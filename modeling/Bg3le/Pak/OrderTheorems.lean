import Bg3le.Pak.AlikeTheorems
import Bg3le.Pak.FrameTheorems

/-!
# The order of an archive

The fixer gives every entry and every content the same spellings in whatever order they come.
-/

namespace Bg3le
namespace Pak

variable {ρ γ : Equiv.Perm ℕ} {names names' newNames : List Bytes} {contents contents' : List Content}
  {X X' : Index} {id s t : Bytes} {o : Occurrence} {x : ℕ ⊕ ℕ}

/-- A content whose file is another entry. -/
def Content.moved (ρ : Equiv.Perm ℕ) (content : Content) : Content :=
  { content with file := ρ content.file }

/-- Entry `i` becomes entry `ρ i`, and content `c` content `γ c`. -/
structure Reordered (ρ γ : Equiv.Perm ℕ) (names names' : List Bytes)
    (contents contents' : List Content) : Prop where
  names (i : ℕ) : names'[ρ i]? = names[i]?
  contents (c : ℕ) : contents'[γ c]? = contents[c]?.map (Content.moved ρ)

/-- `unify` returned the same, with the same new name for every entry and the same bytes for every
content. -/
structure Unified.Moved (ρ γ : Equiv.Perm ℕ) (U U' : Unified) : Prop where
  result : U'.names.isSome = U.names.isSome
  names {newNames : List Bytes} (h : U.names = some newNames) :
    ∃ newNames', U'.names = some newNames' ∧ ∀ i, newNames'[ρ i]? = newNames[i]?
  contents (h : U.names.isSome = true) (c : ℕ) :
    U'.contents[γ c]?.map Content.bytes = U.contents[c]?.map Content.bytes

theorem LsfString.Alike.refl (t : LsfString) : t.Alike t := ⟨rfl, rfl, rfl⟩

theorem Content.moved_alike (ρ : Equiv.Perm ℕ) (content : Content) :
    Content.Alike ρ content (content.moved ρ) where
  file := rfl
  bytes := rfl
  tokens := List.forall₂_same.mpr fun t _ => .refl t

namespace Reordered

theorem length_le_iff (h : Reordered ρ γ names names' contents contents') (i : ℕ) :
    ρ i < names'.length ↔ i < names.length := by
  have hi := h.names i
  rw [← not_iff_not, Nat.not_lt, Nat.not_lt, ← List.getElem?_eq_none_iff,
    ← List.getElem?_eq_none_iff, hi]

theorem alike (h : Reordered ρ γ names names' contents contents') (hX : X.names = names)
    (hX' : X'.names = names') : Alike ρ γ X X' contents contents' where
  index := by
    refine ⟨fun i => ?_, fun i => ?_⟩
    · rw [hX, hX']
      exact h.length_le_iff i
    · unfold Index.name
      rw [hX, hX', List.getD_eq_getElem?_getD, List.getD_eq_getElem?_getD, h.names]
      rfl
  contents c := by
    rw [h.contents]
    cases contents[c]? with
    | none => exact .none
    | some content => exact .some (content.moved_alike ρ)

theorem buffer_eq (h : Reordered ρ γ names names' contents contents') (x : ℕ ⊕ ℕ) :
    buffer names' contents' (Sum.map ρ γ x) = buffer names contents x := by
  cases x with
  | inl i =>
    show names'.getD (ρ i) [] = names.getD i []
    rw [List.getD_eq_getElem?_getD, List.getD_eq_getElem?_getD, h.names]
  | inr c =>
    show ((contents'[γ c]?).map Content.bytes).getD [] = ((contents[c]?).map Content.bytes).getD []
    rw [h.contents, Option.map_map]
    rfl

theorem noBackslash (h : Reordered ρ γ names names' contents contents')
    (hnames : ∀ name ∈ names, 92 ∉ name) : ∀ name ∈ names', 92 ∉ name := by
  intro name hname
  obtain ⟨j, hj⟩ := List.mem_iff_getElem?.mp hname
  have hi := h.names (ρ.symm j)
  rw [Equiv.apply_symm_apply, hj] at hi
  exact hnames name (List.mem_of_getElem? hi.symm)

theorem separated (h : Reordered ρ γ names names' contents contents')
    (hcontents : SeparatedTokens contents) : SeparatedTokens contents' := by
  intro content hcontent hlsf
  obtain ⟨c, hc⟩ := List.mem_iff_getElem?.mp hcontent
  have hi := h.contents (γ.symm c)
  rw [Equiv.apply_symm_apply, hc, eq_comm, Option.map_eq_some_iff] at hi
  obtain ⟨content', hc', rfl⟩ := hi
  exact hcontents content' (List.mem_of_getElem? hc') hlsf

end Reordered

/-! ## Outcomes -/

section Outcomes

variable {B B' : ℕ ⊕ ℕ → Bytes} (h : Alike ρ γ X X' contents contents') (hX : Indexed X)
  (hX' : Indexed X') (hB : ∀ x, B' (Sum.map ρ γ x) = B x)

theorem read_moved (hB : ∀ x, B' (Sum.map ρ γ x) = B x) (o : Occurrence) :
    Slots.read B' (o.moved ρ γ).slot = Slots.read B o.slot := by
  rw [Occurrence.slot_moved]
  unfold Slots.read Occurrence.slot
  rw [hB]

theorem symm_buffer (hB : ∀ x, B' (Sum.map ρ γ x) = B x) (x : ℕ ⊕ ℕ) :
    B (Sum.map ρ.symm γ.symm x) = B' x := by
  rw [← hB, Sum.map_map, Equiv.self_comp_symm, Equiv.self_comp_symm, Sum.map_id_id, id]

include h hX hX'

theorem Alike.pinsOf (hnames : ∀ i, namePins (X'.name (ρ i)) = namePins (X.name i)) :
    pinsOf X' contents' id = pinsOf X contents id := by
  unfold Pak.pinsOf
  ext p
  simp only [Set.mem_ofPred_eq, ← h.sameGroup hX hX']
  constructor
  · rintro ⟨id', hgroup, j, hj, hpin⟩
    refine ⟨id', hgroup, ρ.symm j, ?_, ?_⟩
    · rwa [← h.index.lt_iff, Equiv.apply_symm_apply]
    · rwa [← hnames, Equiv.apply_symm_apply]
  · rintro ⟨id', hgroup, i, hi, hpin⟩
    exact ⟨id', hgroup, ρ i, (h.index.lt_iff i).mpr hi, (hnames i).symm ▸ hpin⟩

include hB

theorem Alike.spellingsOf_subset : spellingsOf X contents B id ⊆ spellingsOf X' contents' B' id := by
  rintro s ⟨id', o, hgroup, hm, rfl⟩
  exact ⟨id', o.moved ρ γ, (h.sameGroup hX hX').mp hgroup, h.mentions hX hX' hm,
    (read_moved hB o).symm⟩

theorem Alike.archiveOf_subset : archiveOf X contents B id ⊆ archiveOf X' contents' B' id := by
  rintro s ⟨id', o, hgroup, hm, hnone, rfl⟩
  exact ⟨id', o.moved ρ γ, (h.sameGroup hX hX').mp hgroup, h.mentions hX hX' hm,
    o.content_moved.mpr hnone, (read_moved hB o).symm⟩

/-- A spelling becomes the same in both archives. -/
theorem Alike.outcome (hnames : ∀ i, namePins (X'.name (ρ i)) = namePins (X.name i)) :
    Outcome X' contents' B' id s t ↔ Outcome X contents B id s t := by
  have hspellings : spellingsOf X' contents' B' id = spellingsOf X contents B id :=
    (h.symm.spellingsOf_subset hX' hX (symm_buffer hB)).antisymm
      (h.spellingsOf_subset hX hX' hB)
  have harchive : archiveOf X' contents' B' id = archiveOf X contents B id :=
    (h.symm.archiveOf_subset hX' hX (symm_buffer hB)).antisymm (h.archiveOf_subset hX hX' hB)
  unfold Outcome
  rw [hspellings, harchive, h.pinsOf hX hX' hnames, h.directoryGroup hX hX']

end Outcomes

/-! ## Edits -/

section Edits

variable {f f' : Fixer} {l l' : Ledger}

/-- Every place has the same byte in the end. -/
theorem Alike.buffer_edits (h : Alike ρ γ f.index f'.index contents contents')
    (hs : Scanned (buffer f.index.names contents) f.index contents f.groups l)
    (hs' : Scanned (buffer f'.index.names contents') f'.index contents' f'.groups l')
    (hcontents : SeparatedTokens contents) (hcontents' : SeparatedTokens contents')
    (hB : ∀ x, buffer f'.index.names contents' (Sum.map ρ γ x) = buffer f.index.names contents x)
    (hnames : ∀ i, namePins (f'.index.name (ρ i)) = namePins (f.index.name i)) (x : ℕ ⊕ ℕ) :
    (f'.edits contents').buffer (Sum.map ρ γ x) = (f.edits contents).buffer x := by
  have hX := hs.ready.indexed
  have hX' := hs'.ready.indexed
  apply List.ext_getElem?
  intro k
  by_cases hcovered : ∃ o id, Mentions f.index contents id o ∧ o.slot.Covers x k
  · obtain ⟨o, id, hm, hcovers⟩ := hcovered
    have hread : Slots.read (fun x => (f'.edits contents').buffer (Sum.map ρ γ x)) o.slot =
        Slots.read (f.edits contents).buffer o.slot := by
      have houtcome := hs'.outcome hcontents' (h.mentions hX hX' hm)
      rw [h.outcome hX hX' hB hnames, read_moved hB] at houtcome
      rw [← houtcome.unique (hs.outcome hcontents hm)]
      exact (read_moved (fun _ => rfl) o).symm
    exact Slots.getElem?_of_read hread hcovers
  · rw [(Edited.all hs).rest (x := x), (Edited.all hs').rest (x := Sum.map ρ γ x), hB]
    · rintro o ⟨id, hm⟩ ⟨hfile, hpos, hlt⟩
      have hm' := h.symm.mentions hX' hX hm
      refine hcovered ⟨_, id, hm', ?_, ?_, ?_⟩
      · rw [Occurrence.slot_moved, show o.file = Sum.map ρ γ x from hfile, Sum.map_map,
          Equiv.symm_comp_self, Equiv.symm_comp_self, Sum.map_id_id]
        rfl
      · rwa [Occurrence.slot_moved]
      · rwa [Occurrence.slot_moved]
    · rintro o ⟨id, hm⟩ hcovers
      exact hcovered ⟨o, id, hm, hcovers⟩

end Edits

/-! ## Results -/

theorem firstRepeat_eq_none {seen : List Bytes} (hnodup : names.Nodup) (h : ∀ n ∈ names, n ∉ seen) :
    firstRepeat seen names = none := by
  induction names generalizing seen with
  | nil => rfl
  | cons n names ih =>
    obtain ⟨hn, hnodup⟩ := List.nodup_cons.mp hnodup
    rw [firstRepeat_cons, if_neg (h n List.mem_cons_self)]
    apply ih hnodup
    intro n' hn' hseen
    rcases List.mem_cons.mp hseen with rfl | hseen
    · exact hn hn'
    · exact h n' (List.mem_cons_of_mem _ hn') hseen

theorem firstRepeat_eq_none_iff : firstRepeat [] names = none ↔ names.Nodup :=
  ⟨fun h => (nodup_of_firstRepeat h).1, fun h => firstRepeat_eq_none h fun _ _ => List.not_mem_nil⟩

/-- Names in another order come as often. -/
theorem nodup_of_moved (h : ∀ i, names'[ρ i]? = names[i]?) (hnodup : names.Nodup) : names'.Nodup := by
  rw [List.nodup_iff_getElem?_ne_getElem?] at *
  intro i j hij hj heq
  have hget (i : ℕ) : names'[i]? = names[ρ.symm i]? := by
    rw [← h, Equiv.apply_symm_apply]
  rw [hget, hget] at heq
  have hlt (i : ℕ) (hi : i < names'.length) : ρ.symm i < names.length := by
    by_contra hle
    have hnone := hget i
    rw [List.getElem?_eq_none (Nat.le_of_not_lt hle), List.getElem?_eq_none_iff] at hnone
    omega
  have hne : ρ.symm i ≠ ρ.symm j := fun heq => by
    have := ρ.symm.injective heq
    omega
  rcases Nat.lt_or_gt_of_ne hne with hlt' | hlt'
  · exact hnodup _ _ hlt' (hlt j hj) heq
  · exact hnodup _ _ hlt' (hlt i (by omega)) heq.symm

theorem nodup_moved_iff (h : ∀ i, names'[ρ i]? = names[i]?) : names'.Nodup ↔ names.Nodup := by
  constructor
  · apply nodup_of_moved (ρ := ρ.symm)
    intro i
    rw [← h, Equiv.apply_symm_apply]
  · exact nodup_of_moved h

/-- What `unify` returns, by the names after its edits. -/
theorem Fixer.unify_eq (f : Fixer) (contents : List Content) :
    ((f.edits contents).names.Nodup → (f.unify contents).names = some (f.edits contents).names ∧
      (f.unify contents).contents = (f.edits contents).contents) ∧
    (¬ (f.edits contents).names.Nodup → (f.unify contents).names = none) := by
  have hedits : (List.range f.groups.groups.length).foldl f.unifyGroup ⟨f.index.names, contents, []⟩ =
    f.edits contents := rfl
  unfold Fixer.unify
  simp only [hedits]
  rw [← firstRepeat_eq_none_iff]
  constructor
  · intro hnone
    rw [hnone]
    exact ⟨rfl, rfl⟩
  · intro hsome
    obtain ⟨n, hn⟩ := Option.ne_none_iff_exists'.mp hsome
    rw [hn]

/-- The fixer does not depend on the order of the archive and of the contents. -/
theorem unify_reordered (h : Reordered ρ γ names names' contents contents')
    (hnames : ∀ name ∈ names, 92 ∉ name) (hcontents : SeparatedTokens contents) :
    Unified.Moved ρ γ (((Fixer.new names).scan contents).unify contents)
      (((Fixer.new names').scan contents').unify contents') := by
  obtain ⟨l, hs, heq⟩ := scanned_scan contents hnames
  obtain ⟨l', hs', heq'⟩ := scanned_scan contents' (h.noBackslash hnames)
  have halike := h.alike heq heq'
  have hname (i : ℕ) : ((Fixer.new names').scan contents').index.name (ρ i) =
      ((Fixer.new names).scan contents).index.name i := by
    unfold Index.name
    rw [heq, heq', List.getD_eq_getElem?_getD, List.getD_eq_getElem?_getD, h.names]
  -- each buffer is edited as its counterpart is; what remains is to read that off the lists
  have hbuffer := halike.buffer_edits hs hs' hcontents (h.separated hcontents)
    (by rw [heq, heq']; exact h.buffer_eq) (fun i => by rw [hname])
  have hedited := Edited.all hs
  have hedited' := Edited.all hs'
  have hlength := hedited.names_length
  have hlength' := hedited'.names_length
  rw [heq] at hlength
  rw [heq'] at hlength'
  generalize (Fixer.new names).scan contents = f at *
  generalize (Fixer.new names').scan contents' = f' at *
  have hnew (i : ℕ) : (f'.edits contents').names[ρ i]? = (f.edits contents).names[i]? := by
    have hget : (f'.edits contents').names.getD (ρ i) [] = (f.edits contents).names.getD i [] :=
      hbuffer (.inl i)
    rw [List.getD_eq_getElem?_getD, List.getD_eq_getElem?_getD] at hget
    have hiff := h.length_le_iff i
    by_cases hi : i < names.length
    · have hi' := hiff.mpr hi
      rw [← hlength] at hi
      rw [← hlength'] at hi'
      rw [List.getElem?_eq_getElem hi, List.getElem?_eq_getElem hi'] at hget ⊢
      exact congrArg some hget
    · have hi' := mt hiff.mp hi
      rw [List.getElem?_eq_none (by omega), List.getElem?_eq_none (by omega)]
  have hnewContents (c : ℕ) : (f'.edits contents').contents[γ c]?.map Content.bytes =
      (f.edits contents).contents[c]?.map Content.bytes := by
    have hget : (((f'.edits contents').contents[γ c]?).map Content.bytes).getD [] =
        (((f.edits contents).contents[c]?).map Content.bytes).getD [] := hbuffer (.inr c)
    have hcount := hedited.contents_edited.length_eq
    have hcount' := hedited'.contents_edited.length_eq
    have hc := h.contents c
    cases hold : contents[c]? with
    | none =>
      rw [hold, Option.map_none, List.getElem?_eq_none_iff] at hc
      rw [List.getElem?_eq_none_iff] at hold
      rw [List.getElem?_eq_none (by omega), List.getElem?_eq_none (by omega)]
    | some content =>
      rw [hold, Option.map_some] at hc
      have hlt := (List.getElem?_eq_some_iff.mp hold).1
      have hlt' := (List.getElem?_eq_some_iff.mp hc).1
      rw [← hcount] at hlt
      rw [← hcount'] at hlt'
      rw [List.getElem?_eq_getElem hlt, List.getElem?_eq_getElem hlt'] at hget ⊢
      exact congrArg some hget
  have hnodup := nodup_moved_iff hnew
  -- both refuse, or neither does
  by_cases hdistinct : (f.edits contents).names.Nodup
  · obtain ⟨hsome, hout⟩ := (f.unify_eq contents).1 hdistinct
    obtain ⟨hsome', hout'⟩ := (f'.unify_eq contents').1 (hnodup.mpr hdistinct)
    refine ⟨by rw [hsome, hsome']; rfl, fun hnames => ?_, fun _ c => ?_⟩
    · rw [hsome, Option.some.injEq] at hnames
      exact ⟨_, hsome', fun i => hnames ▸ hnew i⟩
    · rw [hout, hout']
      exact hnewContents c
  · have hnone := (f.unify_eq contents).2 hdistinct
    have hnone' := (f'.unify_eq contents').2 (mt hnodup.mp hdistinct)
    refine ⟨by rw [hnone, hnone'], fun hnames => ?_, fun hsome => ?_⟩
    · rw [hnone] at hnames
      cases hnames
    · rw [hnone] at hsome
      cases hsome

theorem reordered_swap (a b : Bytes) (contents : List Content) :
    Reordered (Equiv.swap 0 1) (Equiv.refl ℕ) [a, b] [b, a] contents
      (contents.map (Content.moved (Equiv.swap 0 1))) where
  names i := by
    match i with
    | 0 => rfl
    | 1 => rfl
    | i + 2 => rw [Equiv.swap_apply_of_ne_of_ne (by omega) (by omega)]; rfl
  contents c := List.getElem?_map

/-- The list and its use, in the other order. -/
theorem unify_reordered_list : Unified.Moved (Equiv.swap 0 1) (Equiv.refl ℕ)
    (((Fixer.new listNames).scan listContents).unify listContents)
    (((Fixer.new [bytes "M/Use.txt", bytes "M/List.txt"]).scan
      (listContents.map (Content.moved (Equiv.swap 0 1)))).unify
        (listContents.map (Content.moved (Equiv.swap 0 1)))) :=
  unify_reordered (reordered_swap _ _ listContents) (by decide)
    (by simp [SeparatedTokens, listContents, Content.ofText])

/-- Two names of one stem, a backslash being read as a slash: the first spelling replaces the other
one, which has another length. -/
theorem backslash_not_moved : ¬ ∀ (ρ γ : Equiv.Perm ℕ) (names names' : List Bytes)
    (contents contents' : List Content), Reordered ρ γ names names' contents contents' →
    SeparatedTokens contents → Unified.Moved ρ γ
      (((Fixer.new names).scan contents).unify contents)
      (((Fixer.new names').scan contents').unify contents') := by
  intro hall
  have hmoved := hall _ _ _ _ [] [] (reordered_swap (bytes "\\b.txt") (bytes "/b.txt") [])
    (by simp [SeparatedTokens])
  have hrun : (((Fixer.new [bytes "\\b.txt", bytes "/b.txt"]).scan []).unify []).names =
      some [bytes "\\b.txt", bytes "/\\b.txt"] := by decide +kernel
  have hrun' : (((Fixer.new [bytes "/b.txt", bytes "\\b.txt"]).scan []).unify []).names =
      some [bytes "/b.txt", bytes "b.txt"] := by decide +kernel
  obtain ⟨newNames, hnew, hget⟩ := hmoved.names hrun
  rw [hrun', Option.some.injEq] at hnew
  have hfirst := hget 0
  rw [← hnew] at hfirst
  exact absurd hfirst (by decide)

end Pak
end Bg3le
