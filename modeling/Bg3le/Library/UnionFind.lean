import Mathlib.Data.Fintype.Card
import Mathlib.Data.List.Basic

/-!
# Union-find with path halving

Elements are numbers, and a list holds the parent of each: a root is its own parent, and so is an
element that the list does not hold. The root of an element is what survives halving.
-/

namespace UnionFind

/-- The parent of an element. -/
def up (parent : List ℕ) (g : ℕ) : ℕ := parent.getD g g

/-- Follows the parents, with every other one of them made to point one further. -/
def findLoop : ℕ → List ℕ → ℕ → List ℕ × ℕ
  | 0, parent, g => (parent, g)
  | fuel + 1, parent, g =>
    if up parent g = g then (parent, g)
    else
      let halved := parent.set g (up parent (up parent g))
      findLoop fuel halved (up halved g)

/-- The root of an element, with the parents halved on the way: no path is longer than the list. -/
def find (parent : List ℕ) (g : ℕ) : List ℕ × ℕ := findLoop parent.length parent g

/-- The root of an element. -/
def rootOf (parent : List ℕ) (g : ℕ) : ℕ := (find parent g).2

/-! ## Paths -/

/-- `Path parent g r d`: `d` steps up from `g` lead to the root `r`. -/
inductive Path (parent : List ℕ) : ℕ → ℕ → ℕ → Prop
  | root {r} (h : up parent r = r) : Path parent r r 0
  | step {g r d} (h : up parent g ≠ g) (path : Path parent (up parent g) r d) :
    Path parent g r (d + 1)

/-- Every path ends, and stays inside the list. -/
structure Forest (parent : List ℕ) : Prop where
  up_lt {g} (h : g < parent.length) : up parent g < parent.length
  exists_path (g : ℕ) : ∃ r d, Path parent g r d

variable {parent parent' : List ℕ} {g r r' a b x d d' fuel : ℕ}

/-- What is not in the forest is its own parent. -/
theorem up_of_length_le (h : parent.length ≤ g) : up parent g = g := by
  simp [up, List.getD_eq_getElem?_getD, List.getElem?_eq_none h]

/-- One parent changes. -/
theorem up_set (h : g < parent.length) :
    up (parent.set g a) x = if x = g then a else up parent x := by
  unfold up
  split
  · next hx =>
    subst hx
    simp [List.getD_eq_getElem?_getD, h]
  · next hx => simp [List.getD_eq_getElem?_getD, List.getElem?_set_ne (Ne.symm hx)]

/-- A new node is its own parent. -/
theorem up_concat (parent : List ℕ) (x : ℕ) : up (parent ++ [parent.length]) x = up parent x := by
  unfold up
  rcases Nat.lt_trichotomy x parent.length with h | rfl | h
  · simp [List.getD_eq_getElem?_getD, List.getElem?_append_left h]
  · simp [List.getD_eq_getElem?_getD]
  · have hlength : (parent ++ [parent.length]).length ≤ x := by
      simp
      omega
    simp [List.getD_eq_getElem?_getD, List.getElem?_eq_none hlength, List.getElem?_eq_none h.le]

namespace Path

/-- A path ends at a root. -/
theorem up_root (h : Path parent g r d) : up parent r = r := by
  induction h with
  | root h => exact h
  | step _ _ ih => exact ih

/-- There is one path to a root. -/
theorem unique (h : Path parent g r d) (h' : Path parent g r' d') : r = r' ∧ d = d' := by
  induction h generalizing d' with
  | root hroot =>
    cases h' with
    | root => exact ⟨rfl, rfl⟩
    | step hne => exact absurd hroot hne
  | step hne _ ih =>
    cases h' with
    | root hroot => exact absurd hroot hne
    | step _ h' =>
      obtain ⟨rfl, rfl⟩ := ih h'
      exact ⟨rfl, rfl⟩

/-- Paths depend on the parents only. -/
theorem of_up (h : Path parent g r d) (hup : ∀ x, up parent' x = up parent x) :
    Path parent' g r d := by
  induction h with
  | root h => exact .root (by rw [hup, h])
  | step h _ ih => exact .step (by rwa [hup]) (by rwa [hup])

/-- The root of a node is a node. -/
theorem root_lt (hup : ∀ {g}, g < parent.length → up parent g < parent.length)
    (h : Path parent g r d) (hg : g < parent.length) : r < parent.length := by
  induction h with
  | root => exact hg
  | step _ _ ih => exact ih (hup hg)

/-- Every shorter way to the root is gone by some element of the list. -/
theorem exists_of_le (h : Path parent g r d) (hd : d' < d) :
    ∃ x, Path parent x r (d' + 1) ∧ x < parent.length := by
  induction h with
  | root => omega
  | @step g r d hne path ih =>
    rcases Nat.lt_or_eq_of_le (Nat.le_of_lt_succ hd) with hlt | rfl
    · exact ih hlt
    · refine ⟨g, .step hne path, ?_⟩
      by_contra hlength
      exact hne (up_of_length_le (by omega))

/-- No path is longer than the list: its elements differ. -/
theorem le_length (h : Path parent g r d) : d ≤ parent.length := by
  choose! f hf using fun (i : Fin d) => h.exists_of_le i.isLt
  have hinjective : Function.Injective fun i : Fin d => (⟨f i, (hf i).2⟩ : Fin parent.length) := by
    intro i j hij
    have hfij : f i = f j := congrArg Fin.val hij
    have hpath := (hf i).1
    rw [hfij] at hpath
    have := (hpath.unique (hf j).1).2
    exact Fin.ext (by omega)
  simpa using Fintype.card_le_of_injective _ hinjective

end Path

/-! ## Halving -/

/-- One step of halving shortens paths. -/
theorem Path.halve (hg : g < parent.length) (hne : up parent g ≠ g) (h : Path parent x r d) :
    ∃ d' ≤ d, Path (parent.set g (up parent (up parent g))) x r d' := by
  induction h with
  | @root r hroot =>
    refine ⟨0, le_rfl, .root ?_⟩
    rw [up_set hg, if_neg (by rintro rfl; exact hne hroot), hroot]
  | @step x r d hx path ih =>
    obtain ⟨d', hd', path'⟩ := ih
    have hup (hxg : x ≠ g) : up (parent.set g (up parent (up parent g))) x = up parent x := by
      rw [up_set hg, if_neg hxg]
    by_cases hxg : x = g
    · subst hxg
      have hself : up (parent.set x (up parent (up parent x))) x = up parent (up parent x) := by
        rw [up_set hg, if_pos rfl]
      cases path with
      | root hroot =>
        refine ⟨d' + 1, by omega, .step ?_ ?_⟩
        · rwa [hself, hroot]
        · rw [hself]
          exact hroot.symm ▸ path'
      | @step _ _ d₁ hne₁ path₁ =>
        -- a path does not come back to its start
        have hback : up parent (up parent x) ≠ x := by
          intro hback
          rw [hback] at path₁
          have := (path₁.unique (.step hx (.step hne₁ (hback ▸ path₁)))).2
          omega
        have hup₁ : up (parent.set x (up parent (up parent x))) (up parent x) =
            up parent (up parent x) := by
          rw [up_set hg, if_neg hx]
        cases path' with
        | root hroot => exact absurd (hup₁.symm.trans hroot) hne₁
        | @step _ _ d₂ _ path₂ =>
          rw [hup₁] at path₂
          refine ⟨d₂ + 1, by omega, .step ?_ ?_⟩
          · rwa [hself]
          · rwa [hself]
    · refine ⟨d' + 1, by omega, .step ?_ ?_⟩
      · rwa [hup hxg]
      · rwa [hup hxg]

/-- Halving keeps the roots. -/
structure Halved (parent parent' : List ℕ) : Prop where
  length_eq : parent'.length = parent.length
  forest : Forest parent'
  path {x s e} (h : Path parent x s e) : ∃ e', Path parent' x s e'

theorem Halved.refl (h : Forest parent) : Halved parent parent := ⟨rfl, h, fun h => ⟨_, h⟩⟩

/-- A forest may be halved again. -/
theorem Halved.trans {parent'' : List ℕ} (h : Halved parent parent') (h' : Halved parent' parent'') :
    Halved parent parent'' where
  length_eq := h'.length_eq.trans h.length_eq
  forest := h'.forest
  path hpath := by
    obtain ⟨d, hpath⟩ := h.path hpath
    exact h'.path hpath

/-- A node may be put below its grandparent. -/
theorem halved_set (hforest : Forest parent) (hne : up parent g ≠ g) :
    Halved parent (parent.set g (up parent (up parent g))) := by
  have hg : g < parent.length := by
    by_contra hg
    exact hne (up_of_length_le (by omega))
  refine ⟨by simp, ⟨?_, ?_⟩, ?_⟩
  · intro x hx
    rw [List.length_set] at hx ⊢
    rw [up_set hg]
    split
    · exact hforest.up_lt (hforest.up_lt hg)
    · exact hforest.up_lt hx
  · intro x
    obtain ⟨r, d, path⟩ := hforest.exists_path x
    obtain ⟨d', -, path⟩ := path.halve hg hne
    exact ⟨r, d', path⟩
  · intro x r d path
    obtain ⟨d', -, path⟩ := path.halve hg hne
    exact ⟨d', path⟩

/-- The loop ends at the root, and has halved the path to it. -/
theorem findLoop_spec (hforest : Forest parent) (path : Path parent g r d) (hd : d ≤ fuel) :
    (findLoop fuel parent g).2 = r ∧ Halved parent (findLoop fuel parent g).1 := by
  induction fuel generalizing parent g d with
  | zero =>
    obtain rfl : d = 0 := by omega
    cases path with
    | root => exact ⟨rfl, .refl hforest⟩
  | succ fuel ih =>
    rw [findLoop]
    split
    · next hroot =>
      exact ⟨((Path.root hroot).unique path).1, .refl hforest⟩
    · next hne =>
      have hg : g < parent.length := by
        by_contra hg
        exact hne (up_of_length_le (by omega))
      have hhalved := halved_set hforest hne
      obtain ⟨d', hd', path'⟩ := path.halve hg hne
      cases path' with
      | root => exact absurd path.up_root hne
      | @step _ _ d₂ hne' path' =>
        obtain ⟨hroot, hrest⟩ := ih hhalved.forest path' (by omega)
        exact ⟨hroot, hhalved.trans hrest⟩

/-! ## Roots -/

namespace Forest

theorem nil : Forest [] :=
  ⟨fun h => absurd h (by simp), fun g => ⟨g, 0, .root (up_of_length_le (by simp))⟩⟩

/-- The root is the end of the path. -/
theorem rootOf_eq (h : Forest parent) (path : Path parent g r d) : rootOf parent g = r :=
  (findLoop_spec h path path.le_length).1

/-- Every node has a path to its root. -/
theorem exists_path_rootOf (h : Forest parent) (g : ℕ) : ∃ d, Path parent g (rootOf parent g) d := by
  obtain ⟨r, d, path⟩ := h.exists_path g
  rw [h.rootOf_eq path]
  exact ⟨d, path⟩

/-- Finding a root halves paths. -/
theorem halved_find (h : Forest parent) (g : ℕ) : Halved parent (find parent g).1 := by
  obtain ⟨r, d, path⟩ := h.exists_path g
  exact (findLoop_spec h path path.le_length).2

theorem find (h : Forest parent) (g : ℕ) : Forest (UnionFind.find parent g).1 :=
  (h.halved_find g).forest

theorem length_find (h : Forest parent) (g : ℕ) :
    (UnionFind.find parent g).1.length = parent.length :=
  (h.halved_find g).length_eq

/-- Finding a root changes none. -/
theorem rootOf_find (h : Forest parent) (g x : ℕ) :
    rootOf (UnionFind.find parent g).1 x = rootOf parent x := by
  obtain ⟨d, path⟩ := h.exists_path_rootOf x
  obtain ⟨d', path'⟩ := (h.halved_find g).path path
  exact (h.find g).rootOf_eq path'

/-- A root is its own parent. -/
theorem up_rootOf (h : Forest parent) (g : ℕ) : up parent (rootOf parent g) = rootOf parent g := by
  obtain ⟨d, path⟩ := h.exists_path_rootOf g
  exact path.up_root

/-- What is its own parent is its root. -/
theorem rootOf_of_up (h : Forest parent) (hg : up parent g = g) : rootOf parent g = g :=
  h.rootOf_eq (.root hg)

/-- The root of a root is itself. -/
theorem rootOf_rootOf (h : Forest parent) (g : ℕ) :
    rootOf parent (rootOf parent g) = rootOf parent g :=
  h.rootOf_of_up (h.up_rootOf g)

/-- The root of a node is a node. -/
theorem rootOf_lt (h : Forest parent) (hg : g < parent.length) :
    rootOf parent g < parent.length := by
  obtain ⟨d, path⟩ := h.exists_path_rootOf g
  exact path.root_lt h.up_lt hg

/-- A new element is a root. -/
theorem concat (h : Forest parent) : Forest (parent ++ [parent.length]) where
  up_lt {g} hg := by
    rw [up_concat]
    rw [List.length_append, List.length_singleton] at hg ⊢
    by_cases hlt : g < parent.length
    · have := h.up_lt hlt
      omega
    · rw [up_of_length_le (by omega)]
      omega
  exists_path g := by
    obtain ⟨r, d, path⟩ := h.exists_path g
    exact ⟨r, d, path.of_up (up_concat parent)⟩

/-- A new node changes no root. -/
theorem rootOf_concat (h : Forest parent) (g : ℕ) :
    rootOf (parent ++ [parent.length]) g = rootOf parent g := by
  obtain ⟨d, path⟩ := h.exists_path_rootOf g
  exact h.concat.rootOf_eq (path.of_up (up_concat parent))

/-- The paths after one root is put under another. -/
theorem exists_path_link (hb : b < parent.length) (hrootA : up parent a = a)
    (hrootB : up parent b = b) (hne : a ≠ b) (path : Path parent g r d) :
    ∃ d', Path (parent.set b a) g (if r = b then a else r) d' := by
  have hroot : Path (parent.set b a) a a 0 := .root (by rw [up_set hb, if_neg hne, hrootA])
  induction path with
  | @root r hr =>
    split
    · next hrb =>
      subst hrb
      have hup : up (parent.set r a) r = a := by rw [up_set hb, if_pos rfl]
      exact ⟨1, .step (by rwa [hup]) (by rwa [hup])⟩
    · next hrb => exact ⟨0, .root (by rw [up_set hb, if_neg hrb, hr])⟩
  | @step x r d hx path ih =>
    obtain ⟨d', path'⟩ := ih
    have hxb : x ≠ b := by
      rintro rfl
      exact hx hrootB
    exact ⟨d' + 1, .step (by rwa [up_set hb, if_neg hxb]) (by rwa [up_set hb, if_neg hxb])⟩

/-- One root may be put below another. -/
theorem link (h : Forest parent) (ha : a < parent.length) (hb : b < parent.length)
    (hrootA : up parent a = a) (hrootB : up parent b = b) (hne : a ≠ b) :
    Forest (parent.set b a) where
  up_lt {g} hg := by
    rw [List.length_set] at hg ⊢
    rw [up_set hb]
    split
    · exact ha
    · exact h.up_lt hg
  exists_path g := by
    obtain ⟨r, d, path⟩ := h.exists_path g
    obtain ⟨d', path'⟩ := exists_path_link hb hrootA hrootB hne path
    exact ⟨_, d', path'⟩

/-- What was under one root is under the other. -/
theorem rootOf_link (h : Forest parent) (ha : a < parent.length) (hb : b < parent.length)
    (hrootA : up parent a = a) (hrootB : up parent b = b) (hne : a ≠ b) (g : ℕ) :
    rootOf (parent.set b a) g = if rootOf parent g = b then a else rootOf parent g := by
  obtain ⟨d, path⟩ := h.exists_path_rootOf g
  obtain ⟨d', path'⟩ := exists_path_link hb hrootA hrootB hne path
  exact (h.link ha hb hrootA hrootB hne).rootOf_eq path'

end Forest

/-! ## Classes -/

section Classes

variable {α γ : Type*} [DecidableEq γ] {U : List (α × α)} {root : α → γ}

/-- The classes that joining the pairs of a list makes. -/
def Joined (U : List (α × α)) : α → α → Prop := Relation.EqvGen fun x y => (x, y) ∈ U

theorem Joined.refl (U : List (α × α)) (x : α) : Joined U x x := Relation.EqvGen.refl x

theorem Joined.symm {x y : α} (h : Joined U x y) : Joined U y x := Relation.EqvGen.symm x y h

theorem Joined.trans {x y z : α} (h : Joined U x y) (h' : Joined U y z) : Joined U x z :=
  Relation.EqvGen.trans x y z h h'

theorem Joined.of_mem {x y : α} (h : (x, y) ∈ U) : Joined U x y := Relation.EqvGen.rel x y h

/-- What the pairs agree on, the members of a class agree on. -/
theorem Joined.value {β : Type*} {v : α → β} (hU : ∀ x y, (x, y) ∈ U → v x = v y) {x y : α}
    (h : Joined U x y) : v x = v y := by
  induction h with
  | rel x y hmem => exact hU x y hmem
  | refl x => rfl
  | symm x y _ ih => exact ih.symm
  | trans x y z _ _ ih ih' => exact ih.trans ih'

/-- Without pairs everything is joined to itself alone. -/
theorem joined_nil {x y : α} : Joined [] x y ↔ x = y := by
  constructor
  · intro h
    exact h.value (v := id) fun x y hmem => absurd hmem List.not_mem_nil
  · rintro rfl
    exact .refl [] x

/-- More pairs join more. -/
theorem Joined.mono {U' : List (α × α)} (hU : ∀ x y, (x, y) ∈ U → Joined U' x y) {x y : α}
    (h : Joined U x y) : Joined U' x y := by
  induction h with
  | rel x y hmem => exact hU x y hmem
  | refl x => exact .refl U' x
  | symm x y _ ih => exact ih.symm
  | trans x y z _ _ ih ih' => exact ih.trans ih'

/-- Putting one root under another joins two classes. -/
theorem joined_link (hroot : ∀ x y, root x = root y ↔ Joined U x y) (a b x y : α) :
    ((if root x = root b then root a else root x) = if root y = root b then root a else root y) ↔
      Joined (U ++ [(a, b)]) x y := by
  have hold {x y : α} (h : root x = root y) : Joined (U ++ [(a, b)]) x y :=
    ((hroot x y).mp h).mono fun x y hmem => .of_mem (List.mem_append_left _ hmem)
  have hab : Joined (U ++ [(a, b)]) a b := .of_mem (by simp)
  constructor
  · intro h
    by_cases hx : root x = root b
    · by_cases hy : root y = root b
      · exact hold (hx.trans hy.symm)
      · rw [if_pos hx, if_neg hy] at h
        exact (hold hx).trans (hab.symm.trans (hold h))
    · by_cases hy : root y = root b
      · rw [if_neg hx, if_pos hy] at h
        exact (hold h).trans (hab.trans (hold hy.symm))
      · rw [if_neg hx, if_neg hy] at h
        exact hold h
  · intro h
    apply h.value (v := fun x => if root x = root b then root a else root x)
    intro x y hmem
    rcases List.mem_append.mp hmem with hmem | hmem
    · have := (hroot x y).mpr (.of_mem hmem)
      simp only [this]
    · obtain ⟨rfl, rfl⟩ := Prod.mk.inj (List.mem_singleton.mp hmem)
      simp

end Classes

end UnionFind
