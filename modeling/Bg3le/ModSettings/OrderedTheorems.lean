import Bg3le.ModSettings.Ordered
import Bg3le.Library.DepthFirst

/-!
# When `ordered` puts dependencies first

`place` is an ordered depth-first search (`ordered_explores`), but over the graph the stale index
gives: a need leads to the mod that the sort moved to the place of the needed one. `ordered`
always returns a permutation of its mods; it is a load order exactly when the first chain of
needs to each dependency, followed through that index, does not come after its dependent's.
-/

namespace Bg3le
namespace ModSettings

open DepthFirst

/-- The mods whose needs `place` follows from `mod`, in order. -/
def staleNeeds (mods sorted : List Mod) (mod : Mod) : List Mod :=
  mod.needs.filterMap (deref mods sorted)

/-- Every mod has a UUID of its own. -/
def UuidsDistinct (mods : List Mod) : Prop := (mods.map Mod.uuid).Nodup

/-- No mod of the list needs itself through other mods of the list. -/
def NeedsAcyclic (mods : List Mod) : Prop :=
  ∀ m, ¬ Relation.TransGen (fun a b => a ∈ mods ∧ b ∈ mods ∧ b.uuid ∈ a.needs) m m

/-- In `out`, every mod stands after every mod of `mods` whose UUID is among its needs. -/
def DependenciesFirst (mods out : List Mod) : Prop :=
  ∀ pre m post, out = pre ++ m :: post → ∀ d ∈ mods, d.uuid ∈ m.needs → d ∈ pre

/-- Followed through the index that the sort left stale, the first chain of needs to a
dependency runs through its dependent or precedes the first chain to it. -/
def StaleIndexKeepsOrder (std : StdSort) (mods : List Mod) : Prop :=
  ∀ m ∈ mods, ∀ d ∈ mods, d.uuid ∈ m.needs →
    ChainBefore (staleNeeds mods (std.sort mods)) [] (std.sort mods) d m

/-! ## `place` is a depth-first search -/

theorem UuidsDistinct.inj {mods : List Mod} (h : UuidsDistinct mods) {a b : Mod} (ha : a ∈ mods)
    (hb : b ∈ mods) (hab : a.uuid = b.uuid) : a = b :=
  List.inj_on_of_nodup_map h ha hb hab

/-- What stands between two calls of `place`: `placing` holds the path, `placed` the result. -/
structure Between (mods path : List Mod) (st : Placement) : Prop where
  placing : st.placing = path.map Mod.uuid
  placed : ∀ u, u ∈ st.placed ↔ u ∈ st.out.map Mod.uuid
  subset : ∀ m ∈ st.out, m ∈ mods

theorem Between.mem_placed {mods path : List Mod} {st : Placement} (hd : UuidsDistinct mods)
    (h : Between mods path st) {m : Mod} (hm : m ∈ mods) : m.uuid ∈ st.placed ↔ m ∈ st.out := by
  rw [h.placed, List.mem_map]
  constructor
  · rintro ⟨a, ha, hau⟩
    rwa [← hd.inj (h.subset a ha) hm hau]
  · exact fun h => ⟨m, h, rfl⟩

theorem Between.mem_placing {mods path : List Mod} {st : Placement} (hd : UuidsDistinct mods)
    (h : Between mods path st) (hpath : path ⊆ mods) {m : Mod} (hm : m ∈ mods) :
    m.uuid ∈ st.placing ↔ m ∈ path := by
  rw [h.placing, List.mem_map]
  constructor
  · rintro ⟨a, ha, hau⟩
    rwa [← hd.inj (hpath ha) hm hau]
  · exact fun h => ⟨m, h, rfl⟩

theorem mem_of_deref {mods sorted : List Mod} {need : Bytes} {m : Mod}
    (h : deref mods sorted need = some m) : m ∈ sorted := by
  rw [deref, Option.bind_eq_some_iff] at h
  obtain ⟨i, -, hi⟩ := h
  exact List.mem_of_getElem? hi

/-- From `st` to `st'` a depth-first search along `path` went through `cands`. -/
def Searched (mods sorted path cands : List Mod) (st st' : Placement) : Prop :=
  Between mods path st' ∧
    ∃ new, st'.out = st.out ++ new ∧ Explores (staleNeeds mods sorted) path st.out cands new

/-- A loop whose every round searches from its candidate searches from all of them. -/
theorem Searched.foldl {mods sorted : List Mod} (path : List Mod)
    (f : Placement → Mod → Placement) :
    ∀ (cands : List Mod) (st : Placement), Between mods path st →
      (∀ m ∈ cands, ∀ st, Between mods path st → Searched mods sorted path [m] st (f st m)) →
      Searched mods sorted path cands st (cands.foldl f st) := by
  intro cands
  induction cands with
  | nil => exact fun st h _ => ⟨h, [], by simp, .nil⟩
  | cons m cands ih =>
    intro st h hf
    obtain ⟨h₁, new₁, hout₁, he₁⟩ := hf m (by simp) st h
    obtain ⟨h₂, new₂, hout₂, he₂⟩ := ih (f st m) h₁ fun m' hm' => hf m' (by simp [hm'])
    refine ⟨h₂, new₁ ++ new₂, ?_, ?_⟩
    · rw [List.foldl_cons, hout₂, hout₁, List.append_assoc]
    · exact he₁.cons (by rwa [← hout₁])

/-- The loop over `mod.Needs` is the loop over the mods the needs lead to. -/
theorem foldl_needs {mods sorted : List Mod} (f : Mod → Placement → Placement) (m : Mod)
    (st : Placement) :
    m.needs.foldl (fun st need =>
        match deref mods sorted need with
        | some dep => f dep st
        | none => st) st
      = (staleNeeds mods sorted m).foldl (fun st dep => f dep st) st := by
  rw [staleNeeds, List.foldl_filterMap]
  congr 1
  funext st need
  cases deref mods sorted need <;> rfl

/-- With fuel for every mod off the path, `place` is one step of a depth-first search. -/
theorem place_searched {mods sorted : List Mod} (hd : UuidsDistinct mods) (hsorted : sorted ⊆ mods) :
    ∀ (fuel : ℕ) (path : List Mod) (st : Placement) (m : Mod), path ⊆ mods → path.Nodup →
      mods.length < fuel + path.length → m ∈ mods → Between mods path st →
      Searched mods sorted path [m] st (place (deref mods sorted) fuel m st) := by
  intro fuel
  induction fuel with
  | zero =>
    intro path st m hsub hnodup hfuel _ _
    have := (List.subperm_of_subset hnodup hsub).length_le
    omega
  | succ fuel ih =>
    intro path st m hsub hnodup hfuel hm hst
    have hplaced := hst.mem_placed hd hm
    have hplacing := hst.mem_placing hd hsub hm
    rw [place]
    by_cases h₁ : m ∈ st.out
    · rw [if_pos (hplaced.mpr h₁)]
      exact ⟨hst, [], by simp, .skip (.inl h₁) .nil⟩
    rw [if_neg (mt hplaced.mp h₁)]
    by_cases h₂ : m ∈ path
    · rw [if_pos (hplacing.mpr h₂)]
      exact ⟨hst, [], by simp, .skip (.inr h₂) .nil⟩
    rw [if_neg (mt hplacing.mp h₂)]
    -- the needs, one level deeper on the path
    have hsub' : m :: path ⊆ mods := List.cons_subset.mpr ⟨hm, hsub⟩
    have hdeeper := Searched.foldl (m :: path) (fun st dep => place (deref mods sorted) fuel dep st)
      (staleNeeds mods sorted m) { st with placing := m.uuid :: st.placing }
      ⟨by simp [hst.placing], hst.placed, hst.subset⟩ fun m' hm' st' hst' => by
        refine ih (m :: path) st' m' hsub' (List.nodup_cons.mpr ⟨h₂, hnodup⟩)
          (by rw [List.length_cons]; omega) (hsorted ?_) hst'
        obtain ⟨need, -, hneed⟩ := List.mem_filterMap.mp hm'
        exact mem_of_deref hneed
    rw [← foldl_needs] at hdeeper
    extract_lets entered after left
    obtain ⟨hst', below, hout, he⟩ : Searched mods sorted (m :: path) (staleNeeds mods sorted m)
      entered after := hdeeper
    have hm' : m ∉ after.out := by
      rw [hout, List.mem_append, not_or]
      exact ⟨h₁, fun h => (he.fresh m h).2 (by simp)⟩
    have hleft : m.uuid ∉ left.placed := mt (hst'.mem_placed hd hm).mp hm'
    rw [if_neg hleft]
    refine ⟨⟨?_, ?_, ?_⟩, below ++ [m], ?_, ?_⟩
    · show after.placing.erase m.uuid = _
      rw [hst'.placing, List.map_cons, List.erase_cons_head]
    · intro u
      show u ∈ m.uuid :: after.placed ↔ _
      simp only [List.mem_cons, List.map_append, List.mem_append, List.map_cons, List.map_nil,
        List.not_mem_nil, or_false]
      rw [hst'.placed u, or_comm]
    · intro m'' hm''
      rcases List.mem_append.mp hm'' with h | h
      · exact hst'.subset m'' h
      · rwa [List.mem_singleton.mp h]
    · show after.out ++ [m] = _
      rw [hout, List.append_assoc]
    · simpa using Explores.visit h₁ h₂ he .nil

/-- `ordered` runs a depth-first search over the stale index, from the mods in order of name. -/
theorem ordered_explores (std : StdSort) {mods : List Mod} (hd : UuidsDistinct mods) :
    Explores (staleNeeds mods (std.sort mods)) [] [] (std.sort mods) (ordered std mods) := by
  have hsub : std.sort mods ⊆ mods := (std.perm mods).subset
  have h := Searched.foldl []
    (fun st m => place (deref mods (std.sort mods)) (mods.length + 1) m st)
    (std.sort mods) {} ⟨rfl, by simp, by simp⟩ fun m hm st hst =>
      place_searched hd hsub _ [] st m (by simp) (by simp) (by simp) (hsub hm) hst
  obtain ⟨-, new, hout, he⟩ := h
  have hout : ordered std mods = new := by simpa [ordered] using hout
  rw [hout]
  exact he

theorem mem_ordered (std : StdSort) {mods : List Mod} (hd : UuidsDistinct mods) (m : Mod) :
    m ∈ ordered std mods ↔ m ∈ mods := by
  have he := ordered_explores std hd
  constructor
  · intro hm
    refine (std.perm mods).subset (he.mem_of_closed (S := (· ∈ std.sort mods)) ?_ ?_ m hm)
    · intro v e hv
      obtain ⟨need, -, hneed⟩ := List.mem_filterMap.mp hv
      exact mem_of_deref hneed
    · exact fun c hc => hc
  · intro hm
    simpa using (he.closed (by simp [Closed])).1 m ((std.perm mods).mem_iff.mpr hm)

/-- `ordered` loses no mod and repeats none. -/
theorem ordered_perm (std : StdSort) {mods : List Mod} (hd : UuidsDistinct mods) :
    (ordered std mods).Perm mods :=
  (List.perm_ext_iff_of_nodup (ordered_explores std hd).nodup hd.of_map).mpr (mem_ordered std hd)

/-! ## When the result is a load order -/

/-- No mod of an acyclic list needs itself. -/
theorem NeedsAcyclic.ne {mods : List Mod} (h : NeedsAcyclic mods) {m d : Mod} (hm : m ∈ mods)
    (hd : d ∈ mods) (hneeds : d.uuid ∈ m.needs) : d ≠ m := by
  rintro rfl
  exact h d (.single ⟨hm, hd, hneeds⟩)

/-- `ordered` returns a load order exactly when the stale index keeps the order of the needs. -/
theorem ordered_loadOrder_iff (std : StdSort) (mods : List Mod) (hd : UuidsDistinct mods)
    (hacyclic : NeedsAcyclic mods) :
    ((ordered std mods).Perm mods ∧ DependenciesFirst mods (ordered std mods)) ↔
      StaleIndexKeepsOrder std mods := by
  have he := ordered_explores std hd
  constructor
  · rintro ⟨-, hfirst⟩ m hm d hdm hneeds
    obtain ⟨pre, post, hout⟩ := List.append_of_mem ((mem_ordered std hd m).mpr hm)
    exact (he.mem_before_iff hout ((mem_ordered std hd d).mpr hdm) (hacyclic.ne hm hdm hneeds)).mp
      (hfirst pre m post hout d hdm hneeds)
  · intro hkeeps
    refine ⟨ordered_perm std hd, fun pre m post hout d hdm hneeds => ?_⟩
    have hm : m ∈ mods := (mem_ordered std hd m).mp (by simp [hout])
    exact (he.mem_before_iff hout ((mem_ordered std hd d).mpr hdm) (hacyclic.ne hm hdm hneeds)).mpr
      (hkeeps m hm d hdm hneeds)

/-- One `std::sort`. -/
def insertionByName : StdSort where
  sort := List.insertionSort fun a b => a.name ≤ b.name
  perm := List.perm_insertionSort _
  sorted mods := by
    have : Std.Total fun a b : Mod => a.name ≤ b.name := ⟨fun a b => List.le_total a.name b.name⟩
    have : IsTrans Mod fun a b => a.name ≤ b.name := ⟨fun _ _ _ h h' => List.le_trans h h'⟩
    exact (List.pairwise_insertionSort (fun a b : Mod => a.name ≤ b.name) mods).imp
      fun h => List.not_lt.mpr h

/-- A mod "A" that needs the mod "B" listed before it. -/
def needsLater : List Mod :=
  [{ uuid := bytes "b", name := bytes "B" },
    { uuid := bytes "a", name := bytes "A", needs := [bytes "b"] }]

theorem needsLater_acyclic : NeedsAcyclic needsLater := by
  intro m h
  obtain ⟨a, ⟨hm, ha, hneeds⟩, -⟩ := Relation.TransGen.head'_iff.mp h
  obtain ⟨b, -, ⟨hb, -, hneeds'⟩⟩ := Relation.TransGen.tail'_iff.mp h
  -- only "A" has needs, and only "B" is needed
  have hA : m.needs ≠ [] := fun h => by simp [h] at hneeds
  have hB : ∀ b ∈ needsLater, ∀ m ∈ needsLater, m.uuid ∈ b.needs → m.needs = [] := by decide
  exact hA (hB b hb m hm hneeds')

/-- "A" is placed before the mod it needs: its need leads back to itself. -/
theorem ordered_needsLater : UuidsDistinct needsLater ∧ NeedsAcyclic needsLater ∧
    ¬ DependenciesFirst needsLater (ordered insertionByName needsLater) := by
  refine ⟨by unfold UuidsDistinct; decide, needsLater_acyclic, fun h => ?_⟩
  have hout : ordered insertionByName needsLater = [] ++ needsLater[1] :: [needsLater[0]] := by
    decide
  exact absurd (h _ _ _ hout needsLater[0] (by decide) (by decide)) (by simp)

theorem ordered_loadOrder_iff_needsLater :
    ((ordered insertionByName needsLater).Perm needsLater ∧
        DependenciesFirst needsLater (ordered insertionByName needsLater)) ↔
      StaleIndexKeepsOrder insertionByName needsLater :=
  ordered_loadOrder_iff insertionByName needsLater (by unfold UuidsDistinct; decide)
    needsLater_acyclic

example : (ordered insertionByName needsLater).map Mod.name = [bytes "A", bytes "B"] := by decide

/-! ## A sort that moves no needed mod -/

theorem foldl_remember_of_not_mem {u : Bytes} :
    ∀ (mods : List Mod) (k : ℕ) (index : Bytes → Option ℕ), u ∉ mods.map Mod.uuid →
      (mods.zipIdx k).foldl remember index u = index u
  | [], _, _, _ => rfl
  | m :: mods, k, index, hu => by
    simp only [List.map_cons, List.mem_cons, not_or] at hu
    rw [List.zipIdx_cons, List.foldl_cons, foldl_remember_of_not_mem mods _ _ hu.2, remember,
      Function.update_of_ne hu.1]

theorem foldl_remember_getElem? {d : Mod} :
    ∀ (mods : List Mod) (k : ℕ) (index : Bytes → Option ℕ), UuidsDistinct mods →
      ∀ i : ℕ, mods[i]? = some d →
      (mods.zipIdx k).foldl remember index d.uuid = some (k + i)
  | [], _, _, _, _, h => by simp at h
  | m :: mods, k, index, hd, i, h => by
    rw [UuidsDistinct, List.map_cons, List.nodup_cons] at hd
    rw [List.zipIdx_cons, List.foldl_cons]
    cases i with
    | zero =>
      obtain rfl : m = d := by simpa using h
      rw [foldl_remember_of_not_mem mods _ _ hd.1, remember, Function.update_self, Nat.add_zero]
    | succ i =>
      rw [foldl_remember_getElem? mods (k + 1) _ hd.2 i (by simpa using h)]
      congr 1
      omega

/-- Before the sort, the index names each mod by its position. -/
theorem byUuid_getElem? {mods : List Mod} (hd : UuidsDistinct mods) {d : Mod} {i : ℕ}
    (h : mods[i]? = some d) : byUuid mods d.uuid = some i := by
  simpa [byUuid] using foldl_remember_getElem? mods 0 (fun _ => none) hd i h

/-- The index holds no other UUIDs. -/
theorem mem_of_byUuid {mods : List Mod} {u : Bytes} {i : ℕ} (h : byUuid mods u = some i) :
    ∃ d ∈ mods, d.uuid = u := by
  by_contra hu
  have hu : u ∉ mods.map Mod.uuid := fun h => hu (List.mem_map.mp h)
  rw [byUuid, foldl_remember_of_not_mem mods 0 _ hu] at h
  cases h

/-- If every mod that is needed stands where it stood before the sort, the index is not stale,
and the result is a load order. -/
theorem staleIndexKeepsOrder_of_unmoved (std : StdSort) {mods : List Mod} (hd : UuidsDistinct mods)
    (hacyclic : NeedsAcyclic mods)
    (hunmoved : ∀ m ∈ mods, ∀ d ∈ mods, d.uuid ∈ m.needs →
      ∀ i : ℕ, mods[i]? = some d → (std.sort mods)[i]? = some d) :
    StaleIndexKeepsOrder std mods := by
  have hmem : ∀ m ∈ mods, ∀ d ∈ mods, d.uuid ∈ m.needs →
      deref mods (std.sort mods) d.uuid = some d := by
    intro m hm d hdm hneeds
    obtain ⟨i, hi⟩ := List.getElem?_of_mem hdm
    rw [deref, byUuid_getElem? hd hi]
    exact hunmoved m hm d hdm hneeds i hi
  have hedge : ∀ a ∈ mods, ∀ b ∈ staleNeeds mods (std.sort mods) a,
      b ∈ mods ∧ b.uuid ∈ a.needs := by
    intro a ha b hb
    obtain ⟨need, hneed, hb⟩ := List.mem_filterMap.mp hb
    obtain ⟨d, hdm, rfl⟩ : ∃ d ∈ mods, d.uuid = need := by
      rw [deref, Option.bind_eq_some_iff] at hb
      obtain ⟨i, hi, -⟩ := hb
      exact mem_of_byUuid hi
    obtain rfl : d = b := by simpa [hmem a ha d hdm hneed] using hb
    exact ⟨hdm, hneed⟩
  have he := ordered_explores std hd
  have hfirst := (he.finished (by simp [Closed])).1
  intro m hm d hdm hneeds
  refine .of_succ (List.mem_filterMap.mpr ⟨d.uuid, hneeds, hmem m hm d hdm hneeds⟩) ?_
    (hfirst m ((mem_ordered std hd m).mpr hm)) (hfirst d ((mem_ordered std hd d).mpr hdm))
  -- a way back would close a cycle of needs
  intro hback
  have hcycle : ∀ x, Relation.ReflTransGen (fun a b => b ∈ staleNeeds mods (std.sort mods) a) d x →
      x ∈ mods ∧
        Relation.ReflTransGen (fun a b => a ∈ mods ∧ b ∈ mods ∧ b.uuid ∈ a.needs) d x := by
    intro x hx
    induction hx with
    | refl => exact ⟨hdm, .refl⟩
    | @tail b c _ hbc ih =>
      obtain ⟨hc, hneeds'⟩ := hedge b ih.1 c hbc
      exact ⟨hc, ih.2.tail ⟨ih.1, hc, hneeds'⟩⟩
  exact hacyclic m (.head' ⟨hm, hdm, hneeds⟩ (hcycle m hback).2)

end ModSettings
end Bg3le
