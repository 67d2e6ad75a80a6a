import Bg3le.Pak.ScannedTheorems

/-!
# The choice of a spelling

`choose` gives a group the spelling that its pins, its kind and its spellings call for.
-/

namespace Bg3le
namespace Pak

variable {group : Group} {S : Set Bytes} {u : Occurrence → Bytes} {text t : Bytes} {o : Occurrence}
  {spellings : List Bytes}

/-- The target of a group, if its spellings are to change at all. -/
def Group.target (group : Group) (spellings : List Bytes) : Option Bytes :=
  if group.occurrences.length < 2 ∧ group.pin = [] then none else choose group spellings

/-- A group whose spellings and pins are all one text up to case. -/
structure Uniform (group : Group) (S : Set Bytes) (u : Occurrence → Bytes) (text : Bytes) : Prop where
  pinState : PinState group S
  pins {p : Bytes} (hp : p ∈ S) : lowered p = text ∧ 92 ∉ p ∧ p ≠ []
  spellings {o : Occurrence} (ho : o ∈ group.occurrences) : lowered (u o) = text ∧ 92 ∉ u o
  archive : ∃ o ∈ group.occurrences, o.content = none

theorem Uniform.ne_nil (h : Uniform group S u text) : group.occurrences ≠ [] := by
  obtain ⟨o, ho, -⟩ := h.archive
  exact List.ne_nil_of_mem ho

/-- The first spelling is one of the group's. -/
theorem Uniform.head (h : Uniform group S u text) :
    ∃ o ∈ group.occurrences, (group.occurrences.map u).headD [] = u o := by
  cases hocc : group.occurrences with
  | nil => exact absurd hocc h.ne_nil
  | cons o os => exact ⟨o, List.mem_cons_self, rfl⟩

theorem Uniform.pin_mem (h : Uniform group S u text) (hp : group.pin ≠ []) :
    lowered group.pin = text ∧ 92 ∉ group.pin :=
  ⟨(h.pins (h.pinState.mem hp)).1, (h.pins (h.pinState.mem hp)).2.1⟩

theorem Uniform.pins_eq (h : Uniform group S u text) (hp : group.pin = []) : S = ∅ :=
  h.pinState.none hp

/-! ## The archive's spelling -/

/-- `archiveSpelling` finds the only spelling in the archive, or two. -/
theorem archiveSpelling_spec (archive : Bytes) (L : List (Occurrence × Bytes))
    (hL : ∀ e ∈ L, e.2 ≠ []) :
    match archiveSpelling archive L with
    | some b => (archive ≠ [] → archive = b) ∧ (∀ e ∈ L, e.1.content = none → e.2 = b) ∧
        (archive = [] → ∃ e ∈ L, e.1.content = none ∧ e.2 = b)
    | none => (archive = [] ∧ ∀ e ∈ L, e.1.content ≠ none) ∨
        ∃ e ∈ L, e.1.content = none ∧ ((archive ≠ [] ∧ archive ≠ e.2) ∨
          ∃ e' ∈ L, e'.1.content = none ∧ e'.2 ≠ e.2) := by
  induction L generalizing archive with
  | nil =>
    unfold archiveSpelling
    by_cases ha : archive = []
    · rw [if_pos ha]
      exact .inl ⟨ha, by simp⟩
    · rw [if_neg ha]
      exact ⟨fun _ => rfl, by simp, fun h => absurd h ha⟩
  | cons e L ih =>
    obtain ⟨o, s⟩ := e
    have hrest : ∀ e ∈ L, e.2 ≠ [] := fun e he => hL e (List.mem_cons_of_mem _ he)
    have hs : s ≠ [] := hL (o, s) List.mem_cons_self
    unfold archiveSpelling
    by_cases ho : o.content = none
    · rw [if_neg (by simpa using ho)]
      by_cases ha : archive = []
      · -- the first spelling of the archive
        rw [if_pos ha]
        have hih := ih s hrest
        cases hspelling : archiveSpelling s L with
        | some b =>
          rw [hspelling] at hih
          obtain ⟨heq, hall, -⟩ := hih
          have heq := heq hs
          refine ⟨fun hne => absurd ha hne, fun e he hnone => ?_,
            fun _ => ⟨(o, s), List.mem_cons_self, ho, heq⟩⟩
          rcases List.mem_cons.mp he with rfl | he
          · exact heq
          · exact hall e he hnone
        | none =>
          rw [hspelling] at hih
          rcases hih with ⟨hnil, -⟩ | ⟨e, he, hnone, ⟨-, hne⟩ | ⟨e', he', hnone', hne⟩⟩
          · exact absurd hnil hs
          · exact .inr ⟨e, List.mem_cons_of_mem _ he, hnone,
              .inr ⟨(o, s), List.mem_cons_self, ho, hne⟩⟩
          · exact .inr ⟨e, List.mem_cons_of_mem _ he, hnone,
              .inr ⟨e', List.mem_cons_of_mem _ he', hnone', hne⟩⟩
      · rw [if_neg ha]
        by_cases hne : archive = s
        · rw [if_neg (by simpa using hne)]
          have hih := ih archive hrest
          cases hspelling : archiveSpelling archive L with
          | some b =>
            rw [hspelling] at hih
            obtain ⟨heq, hall, -⟩ := hih
            refine ⟨heq, fun e he hnone => ?_, fun hnil => absurd hnil ha⟩
            rcases List.mem_cons.mp he with rfl | he
            · exact hne.symm.trans (heq ha)
            · exact hall e he hnone
          | none =>
            rw [hspelling] at hih
            rcases hih with ⟨hnil, -⟩ | ⟨e, he, hnone, hother⟩
            · exact absurd hnil ha
            · refine .inr ⟨e, List.mem_cons_of_mem _ he, hnone, hother.imp_right ?_⟩
              rintro ⟨e', he', hother'⟩
              exact ⟨e', List.mem_cons_of_mem _ he', hother'⟩
        · rw [if_pos hne]
          exact .inr ⟨(o, s), List.mem_cons_self, ho, .inl ⟨ha, hne⟩⟩
    · rw [if_pos ho]
      have hih := ih archive hrest
      cases hspelling : archiveSpelling archive L with
      | some b =>
        rw [hspelling] at hih
        obtain ⟨heq, hall, hexists⟩ := hih
        refine ⟨heq, fun e he hnone => ?_, fun hnil => ?_⟩
        · rcases List.mem_cons.mp he with rfl | he
          · exact absurd hnone ho
          · exact hall e he hnone
        · obtain ⟨e, he, hfound⟩ := hexists hnil
          exact ⟨e, List.mem_cons_of_mem _ he, hfound⟩
      | none =>
        rw [hspelling] at hih
        rcases hih with ⟨hnil, hall⟩ | ⟨e, he, hnone, hother⟩
        · refine .inl ⟨hnil, fun e he => ?_⟩
          rcases List.mem_cons.mp he with rfl | he
          · exact ho
          · exact hall e he
        · refine .inr ⟨e, List.mem_cons_of_mem _ he, hnone, hother.imp_right ?_⟩
          rintro ⟨e', he', hother'⟩
          exact ⟨e', List.mem_cons_of_mem _ he', hother'⟩

theorem mem_zip_map {os : List Occurrence} {e : Occurrence × Bytes} :
    e ∈ os.zip (os.map u) ↔ e.1 ∈ os ∧ e.2 = u e.1 := by
  rw [List.zip_map_right, List.mem_map]
  constructor
  · rintro ⟨⟨a, b⟩, hmem, rfl⟩
    obtain ⟨ha, hb⟩ := List.of_mem_zip hmem
    have hself : a = b := by
      have := List.mem_iff_getElem.mp hmem
      obtain ⟨k, hk, heq⟩ := this
      rw [List.getElem_zip] at heq
      obtain ⟨rfl, rfl⟩ := Prod.mk.inj heq
      rfl
    rw [← hself]
    exact ⟨ha, rfl⟩
  · rintro ⟨hmem, heq⟩
    obtain ⟨k, hk, hget⟩ := List.mem_iff_getElem.mp hmem
    refine ⟨(e.1, e.1), ?_, Prod.ext rfl heq.symm⟩
    apply List.mem_iff_getElem.mpr
    exact ⟨k, by simpa using hk, by simp [hget]⟩

/-! ## The common spelling -/

/-- The common spelling of a list is that of its members. -/
theorem commonSpelling_eq (h : Uniform group S u text) (ho : o ∈ group.occurrences) :
    commonSpelling (group.occurrences.map u) = common {s | ∃ o ∈ group.occurrences, s = u o} (u o) := by
  obtain ⟨o', ho', hhead⟩ := h.head
  have hcommon := common_eq {s | ∃ o ∈ group.occurrences, s = u o}
    ((h.spellings ho').1.trans (h.spellings ho).1.symm) ⟨o', ho', rfl⟩ ⟨o, ho, rfl⟩
    (h.spellings ho').2 (h.spellings ho).2
  rw [← hcommon, commonSpelling, common, hhead]
  congr 1
  funext k c
  have hiff : ((group.occurrences.map u).any fun s => decide (s[k]? ≠ some c)) = true ↔
      ∃ s ∈ {s | ∃ o ∈ group.occurrences, s = u o}, s[k]? ≠ some c := by
    simp only [List.any_map, List.any_eq_true, Function.comp_apply, decide_eq_true_eq]
    constructor
    · rintro ⟨o, ho, hne⟩
      exact ⟨u o, ⟨o, ho, rfl⟩, hne⟩
    · rintro ⟨s, ⟨o, ho, rfl⟩, hne⟩
      exact ⟨o, ho, hne⟩
  by_cases hdiffer : ∃ s ∈ {s | ∃ o ∈ group.occurrences, s = u o}, s[k]? ≠ some c
  · rw [if_pos hdiffer, if_pos (hiff.mpr hdiffer)]
  · rw [if_neg hdiffer, if_neg fun hany => hdiffer (hiff.mp hany)]

theorem slashed_lower {c : UInt8} (h : c ≠ 92) : slashed (lower c) = lower c :=
  slashed_of_ne (lower_ne_backslash h)

theorem common_spec (spellings : Set Bytes) {s : Bytes} (hs : 92 ∉ s) :
    lowered (common spellings s) = lowered s ∧ 92 ∉ common spellings s := by
  constructor
  · apply List.ext_getElem?
    intro k
    rw [getElem?_lowered, getElem?_lowered, common, List.getElem?_mapIdx]
    cases hc : s[k]? with
    | none => rfl
    | some c =>
      have hne : c ≠ 92 := fun heq => hs (heq ▸ List.mem_of_getElem? hc)
      rw [Option.map_some, Option.map_some, Option.map_some]
      split
      · rw [slashed_lower hne, lower_lower, slashed_of_ne hne]
      · rfl
  · intro hmem
    obtain ⟨k, hk⟩ := List.mem_iff_getElem?.mp hmem
    rw [common, List.getElem?_mapIdx, Option.map_eq_some_iff] at hk
    obtain ⟨c, hc, heq⟩ := hk
    have hne : c ≠ 92 := fun heq => hs (heq ▸ List.mem_of_getElem? hc)
    split at heq
    · exact lower_ne_backslash hne heq
    · exact hne heq

/-! ## The target -/

/-- Every spelling becomes its group's target, or stays. -/
theorem becomes_target (h : Uniform group S u text) (ho : o ∈ group.occurrences) :
    Becomes S {s | ∃ o ∈ group.occurrences, s = u o}
      {s | ∃ o ∈ group.occurrences, o.content = none ∧ s = u o} (group.directory = true) (u o)
      ((group.target (group.occurrences.map u)).getD (u o)) := by
  obtain ⟨o₀, ho₀, hnone₀⟩ := h.archive
  -- where all spellings are one, nothing changes
  have hsame (hpin : group.pin = []) (hall : ∀ o' ∈ group.occurrences, u o' = u o) :
      Becomes S {s | ∃ o ∈ group.occurrences, s = u o}
        {s | ∃ o ∈ group.occurrences, o.content = none ∧ s = u o} (group.directory = true) (u o)
        (u o) := by
    by_cases hdir : group.directory = true
    · refine Becomes.archive (h.pins_eq hpin) hdir ⟨o₀, ho₀, hnone₀, (hall o₀ ho₀).symm⟩ ?_
      rintro s ⟨o', ho', -, rfl⟩
      exact hall o' ho'
    · have hcommon := @Becomes.common S {s | ∃ o ∈ group.occurrences, s = u o}
        {s | ∃ o ∈ group.occurrences, o.content = none ∧ s = u o} _ (u o) (h.pins_eq hpin) hdir
      have heq : common {s | ∃ o ∈ group.occurrences, s = u o} (u o) = u o := by
        apply List.ext_getElem?
        intro k
        rw [common, List.getElem?_mapIdx]
        cases hc : (u o)[k]? with
        | none => rfl
        | some c =>
          rw [Option.map_some, if_neg]
          rintro ⟨s, ⟨o', ho', rfl⟩, hne⟩
          rw [hall o' ho'] at hne
          exact hne hc
      rwa [heq] at hcommon
  unfold Group.target
  split
  · next hfew =>
    apply hsame hfew.2
    intro o' ho'
    have hone : group.occurrences.length = 1 := by
      have := List.length_pos_of_mem ho
      omega
    obtain ⟨o₁, hone⟩ := List.length_eq_one_iff.mp hone
    rw [hone, List.mem_singleton] at ho ho'
    rw [ho, ho']
  · unfold choose
    split
    · next hconflict =>
      obtain ⟨p, hp, hne⟩ := h.pinState.conflict.mp hconflict
      have hpin : group.pin ≠ [] := fun hnil => by
        rw [h.pins_eq hnil] at hp
        exact Set.notMem_empty p hp
      exact .conflict hp (h.pinState.mem hpin) hne
    · next hconflict =>
      split
      · next hpin =>
        obtain ⟨o', ho', hhead⟩ := h.head
        have hlength : group.pin.length = ((group.occurrences.map u).headD []).length := by
          rw [hhead, ← length_lowered, (h.pin_mem hpin).1, ← (h.spellings ho').1, length_lowered]
        rw [if_pos hlength]
        apply Becomes.pin (h.pinState.mem hpin)
        intro p hp
        by_contra hne
        exact hconflict (h.pinState.conflict.mpr ⟨p, hp, hne⟩)
      · next hpin =>
        have hpin := Decidable.not_not.mp hpin
        obtain ⟨o', ho', hhead⟩ := h.head
        split
        · next hall =>
          apply hsame hpin
          rw [hhead, List.all_map, List.all_eq_true] at hall
          have hall' (x : Occurrence) (hx : x ∈ group.occurrences) : u x = u o' := by
            simpa using hall x hx
          intro x hx
          rw [hall' x hx, hall' o ho]
        · next hdiffer =>
          split
          · next hdir =>
            -- spellings that differ are not empty
            have htext : text ≠ [] := by
              rintro rfl
              apply hdiffer
              rw [hhead, List.all_map, List.all_eq_true]
              intro x hx
              have hnil (y : Occurrence) (hy : y ∈ group.occurrences) : u y = [] := by
                have hlength := congrArg List.length (h.spellings hy).1
                rw [length_lowered] at hlength
                exact List.eq_nil_of_length_eq_zero hlength
              simp [hnil x hx, hnil o' ho']
            have hne (e : Occurrence × Bytes)
                (he : e ∈ group.occurrences.zip (group.occurrences.map u)) : e.2 ≠ [] := by
              obtain ⟨hmem, heq⟩ := mem_zip_map.mp he
              intro hnil
              apply htext
              rw [← (h.spellings hmem).1, ← heq, hnil]
              rfl
            have hspec := archiveSpelling_spec [] _ hne
            cases hspelling : archiveSpelling []
                (group.occurrences.zip (group.occurrences.map u)) with
            | some b =>
              rw [hspelling] at hspec
              obtain ⟨-, hall, hexists⟩ := hspec
              obtain ⟨e, he, hnone, rfl⟩ := hexists rfl
              obtain ⟨hmem, heq⟩ := mem_zip_map.mp he
              refine Becomes.archive (h.pins_eq hpin) hdir ⟨e.1, hmem, hnone, heq⟩ ?_
              rintro s ⟨x, hx, hxnone, rfl⟩
              exact hall (x, u x) (mem_zip_map.mpr ⟨hx, rfl⟩) hxnone
            | none =>
              rw [hspelling] at hspec
              rcases hspec with ⟨-, hall⟩ | ⟨e, he, hnone, ⟨hnil, -⟩ | ⟨e', he', hnone', hne'⟩⟩
              · exact absurd hnone₀ (hall (o₀, u o₀) (mem_zip_map.mpr ⟨ho₀, rfl⟩))
              · exact absurd rfl hnil
              · obtain ⟨hmem, heq⟩ := mem_zip_map.mp he
                obtain ⟨hmem', heq'⟩ := mem_zip_map.mp he'
                exact .several (h.pins_eq hpin) hdir ⟨e'.1, hmem', hnone', heq'⟩
                  ⟨e.1, hmem, hnone, heq⟩ hne'
          · next hdir =>
            rw [Option.getD_some, commonSpelling_eq h ho]
            exact .common (h.pins_eq hpin) hdir

/-- The target is the group's text up to case. -/
theorem target_spec (h : Uniform group S u text)
    (ht : group.target (group.occurrences.map u) = some t) : lowered t = text ∧ 92 ∉ t := by
  obtain ⟨o, ho, -⟩ := h.archive
  have hbecomes := becomes_target h ho
  rw [ht, Option.getD_some] at hbecomes
  generalize hst : u o = s at hbecomes
  have hs := h.spellings ho
  rw [hst] at hs
  cases hbecomes with
  | conflict => exact hs
  | pin hp => exact ⟨(h.pins hp).1, (h.pins hp).2.1⟩
  | several => exact hs
  | archive _ _ ha =>
    obtain ⟨o', ho', -, rfl⟩ := ha
    exact h.spellings ho'
  | common =>
    obtain ⟨hlowered, hslash⟩ := common_spec {s | ∃ o ∈ group.occurrences, s = u o} hs.2
    exact ⟨hlowered.trans hs.1, hslash⟩

end Pak
end Bg3le
