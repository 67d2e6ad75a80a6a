import Mathlib.Data.List.Sort
import Bg3le.Lua.SubscribableEvent

/-!
# The list of an event under nested throws

While a throw is under way only `Once` subscribers leave the list, each when its handler has
returned. Where no throw gets to one whose handler is running, every throw stands on a subscriber
that is still in the list, so what follows it is still ahead.
-/

namespace Bg3le
namespace SubscribableEvent

variable {P : Type} [LinearOrder P] {s s' : State P} {l l' l₁ l₂ adds : List ℕ} {n m cur : ℕ}
  {f : Frame}

/-! ### The order -/

theorem above_of_above {a b c : ℕ} (hab : s.above a b = true) (hbc : s.above c b = false)
    (hc : (s.options c).isSome = true) : s.above a c = true := by
  unfold State.above at *
  cases ha : s.options a with
  | none => simp [ha] at hab
  | some oa =>
    cases hb : s.options b with
    | none => simp [ha, hb] at hab
    | some ob =>
      obtain ⟨oc, hoc⟩ := Option.isSome_iff_exists.mp hc
      simp only [ha, hb, hoc, decide_eq_true_eq, decide_eq_false_iff_not, not_lt] at *
      exact lt_of_le_of_lt hbc hab

/-- Who comes before another is not below it. -/
theorem not_above_of_before {a b : ℕ} (h : s.Before a b) : s.above b a = false := by
  obtain habove | ⟨hnot, _⟩ := h
  · unfold State.above at *
    cases ha : s.options a with
    | none => simp [ha] at habove
    | some oa =>
      cases hb : s.options b with
      | none => simp
      | some ob =>
        simp only [ha, hb, decide_eq_true_eq, decide_eq_false_iff_not, not_lt] at *
        exact habove.le
  · exact hnot

/-- Where a new subscriber goes: before the first one that it is above. -/
def State.place (s : State P) (n : ℕ) (l : List ℕ) : List ℕ :=
  l.orderedInsert (fun a b => s.above a b = true) n

theorem place_cons (b : ℕ) : s.place n (b :: l) =
    if s.above n b = true then n :: b :: l else b :: s.place n l := rfl

/-- Placing adds just the new one. -/
theorem mem_place : m ∈ s.place n l ↔ m = n ∨ m ∈ l := List.mem_orderedInsert _

/-- A new one that is placed behind its equals keeps the order. -/
theorem pairwise_place (h : l.Pairwise s.Before) (hlt : ∀ a ∈ l, a < n)
    (hknown : ∀ a ∈ l, (s.options a).isSome = true) : (s.place n l).Pairwise s.Before := by
  induction l with
  | nil => exact List.pairwise_singleton _ _
  | cons b rest ih =>
    obtain ⟨hb, hrest⟩ := List.pairwise_cons.mp h
    rw [place_cons]
    split
    · rename_i habove
      refine List.pairwise_cons.mpr ⟨fun c hc => .inl ?_, h⟩
      obtain rfl | hc := List.mem_cons.mp hc
      · exact habove
      · exact above_of_above habove (not_above_of_before (hb c hc))
          (hknown c (List.mem_cons_of_mem _ hc))
    · rename_i habove
      refine List.pairwise_cons.mpr ⟨fun c hc => ?_, ih hrest
        (fun a ha => hlt a (List.mem_cons_of_mem _ ha))
        fun a ha => hknown a (List.mem_cons_of_mem _ ha)⟩
      obtain rfl | hc := mem_place.mp hc
      · exact .inr ⟨Bool.not_eq_true _ ▸ habove, hlt b List.mem_cons_self⟩
      · exact hb c hc

/-! ### The loops over the list -/

/-- The loop of `DoSubscribe` links the new one before the first that it is above, or at the end.
-/
theorem insertFrom_isList (h : s.links.IsList (l₁ ++ cur :: l₂)) (hn : n ∉ l₁ ++ cur :: l₂)
    (hloose : s.links.Loose n) {fuel : ℕ} (hfuel : l₂.length < fuel) :
    (insertFrom s n fuel cur).IsList (l₁ ++ s.place n (cur :: l₂)) := by
  induction l₂ generalizing l₁ cur fuel with
  | nil =>
    obtain ⟨fuel, rfl⟩ : ∃ k, fuel = k + 1 := ⟨fuel - 1, by omega⟩
    unfold insertFrom
    rw [place_cons]
    split
    · exact h.insertBefore hn
    · rw [h.next_prev.1]
      have hafter := h.insertAfter hn hloose.1
      rw [List.append_assoc] at hafter
      exact hafter
  | cons next rest ih =>
    obtain ⟨fuel, rfl⟩ : ∃ k, fuel = k + 1 := ⟨fuel - 1, by omega⟩
    unfold insertFrom
    rw [place_cons]
    split
    · exact h.insertBefore hn
    · rw [h.next_prev.1]
      have hshift : l₁ ++ cur :: next :: rest = (l₁ ++ [cur]) ++ next :: rest := by simp
      rw [hshift] at h hn
      have hshort : rest.length < fuel := by
        simp only [List.length_cons] at hfuel
        omega
      have hrest := ih h hn hshort
      rw [List.append_assoc] at hrest
      exact hrest

/-- What is not in the list is still linked to nothing. -/
theorem insertFrom_loose (h : s.links.IsList (l₁ ++ cur :: l₂)) (hm : m ∉ l₁ ++ cur :: l₂)
    (hmn : m ≠ n) (hloose : s.links.Loose m) (fuel : ℕ) :
    (insertFrom s n fuel cur).Loose m := by
  induction l₂ generalizing l₁ cur fuel with
  | nil =>
    cases fuel with
    | zero => exact hloose
    | succ fuel =>
      unfold insertFrom
      split
      · exact hloose.insertBefore h hm hmn
      · rw [h.next_prev.1]
        refine hloose.insertAfter ?_ hmn
        rintro rfl
        exact hm (by simp)
  | cons next rest ih =>
    cases fuel with
    | zero => exact hloose
    | succ fuel =>
      unfold insertFrom
      split
      · exact hloose.insertBefore h hm hmn
      · rw [h.next_prev.1]
        have hshift : l₁ ++ cur :: next :: rest = (l₁ ++ [cur]) ++ next :: rest := by simp
        rw [hshift] at h hm
        exact ih h hm fuel

omit [LinearOrder P] in
/-- The loop of `DoUnsubscribe` unlinks the subscriber if it is there. -/
theorem removeFrom_eq (h : s.links.IsList (l₁ ++ l₂)) {fuel : ℕ} (hfuel : l₂.length ≤ fuel) :
    removeFrom s n fuel l₂.head? = if n ∈ l₂ then removeNode s n else s := by
  induction l₂ generalizing l₁ fuel with
  | nil => cases fuel <;> rfl
  | cons a rest ih =>
    obtain ⟨fuel, rfl⟩ : ∃ k, fuel = k + 1 := ⟨fuel - 1, by
      simp only [List.length_cons] at hfuel
      omega⟩
    show (if a = n then removeNode s a else removeFrom s n fuel (s.links.next a)) = _
    by_cases ha : a = n
    · rw [if_pos ha, if_pos (by simp [ha]), ha]
    · rw [if_neg ha, h.next_prev.1]
      have hshift : l₁ ++ a :: rest = (l₁ ++ [a]) ++ rest := by simp
      rw [hshift] at h
      rw [ih h (Nat.le_of_succ_le_succ hfuel)]
      simp [Ne.symm ha]

omit [LinearOrder P] in
/-- What is unlinked is no longer in the list. -/
theorem isList_removeNode (h : s.links.IsList l) (hn : n ∈ l) :
    (removeNode s n).links.IsList (l.erase n) := by
  obtain ⟨l₁, l₂, rfl⟩ := List.append_of_mem hn
  have hn₁ : n ∉ l₁ := fun hmem =>
    (List.nodup_append.mp h.nodup).2.2 n hmem n List.mem_cons_self rfl
  rw [List.erase_append_right _ hn₁, List.erase_cons_head]
  exact h.unlink

omit [LinearOrder P] in
/-- Others that are not in the list stay out. -/
theorem loose_removeNode (h : s.links.IsList l) (hn : n ∈ l) (hm : m ∉ l)
    (hloose : s.links.Loose m) : (removeNode s n).links.Loose m := by
  obtain ⟨l₁, l₂, rfl⟩ := List.append_of_mem hn
  exact hloose.unlink h hm

/-! ### What comes after a subscriber -/

/-- One subscriber comes after another in the list. -/
def Follows (l : List ℕ) (a b : ℕ) : Prop := ∃ l₁ l₂, l = l₁ ++ a :: l₂ ∧ b ∈ l₂

/-- Two that follow each other still do when a third is gone. -/
theorem Follows.erase (h : Follows l n m) {k : ℕ} (hn : k ≠ n) (hm : k ≠ m) :
    Follows (l.erase k) n m := by
  obtain ⟨l₁, l₂, rfl, hmem⟩ := h
  by_cases hk : k ∈ l₁
  · rw [List.erase_append_left _ hk]
    exact ⟨_, l₂, rfl, hmem⟩
  · rw [List.erase_append_right _ hk, List.erase_cons_tail (by simpa using hn.symm)]
    exact ⟨l₁, _, rfl, (List.mem_erase_of_ne (Ne.symm hm)).mpr hmem⟩

omit [LinearOrder P] in
/-- What follows is next, or follows the next. -/
theorem Follows.next (h : Follows l n m) (hlist : s.links.IsList l) :
    ∃ d, s.links.next n = some d ∧ (m = d ∨ Follows l d m) := by
  obtain ⟨l₁, l₂, rfl, hmem⟩ := h
  rw [hlist.next_prev.1]
  cases l₂ with
  | nil => exact absurd hmem List.not_mem_nil
  | cons d rest =>
    refine ⟨d, rfl, ?_⟩
    obtain rfl | hrest := List.mem_cons.mp hmem
    · exact .inl rfl
    · exact .inr ⟨l₁ ++ [n], rest, by simp, hrest⟩

omit [LinearOrder P] in
/-- The next one is another of the list. -/
theorem next_mem (hlist : s.links.IsList l) (hn : n ∈ l) {d : ℕ}
    (hnext : s.links.next n = some d) : d ∈ l ∧ d ≠ n := by
  obtain ⟨l₁, l₂, rfl⟩ := List.append_of_mem hn
  rw [hlist.next_prev.1] at hnext
  have hd := List.mem_of_mem_head? hnext
  refine ⟨List.mem_append_right _ (List.mem_cons_of_mem _ hd), ?_⟩
  rintro rfl
  exact (List.nodup_cons.mp (List.nodup_append.mp hlist.nodup).2.1).1 hd

/-! ### The event between two actions -/

/-- A throw that stands on a subscriber: what it has to dispatch to yet comes after that. -/
structure Standing (s : State P) (l : List ℕ) (f : Frame) : Prop where
  cur_mem : f.cur ∈ l
  cur_ran : f.cur ∈ s.runs
  ahead : ∀ n ∈ f.began, n ∈ f.ran ∨ (s.once n = true ∧ n ∈ s.runs) ∨ Follows l f.cur n

/-- The list of an event, and what is to be added to it. -/
structure Core (s : State P) (l adds : List ℕ) : Prop where
  isList : s.links.IsList l
  loose : ∀ n, n ∈ adds ∨ s.nextIndex ≤ n → s.links.Loose n
  known : ∀ n, n ∈ l ∨ n ∈ adds → n < s.nextIndex ∧ (s.options n).isSome = true
  unknown : ∀ n, s.nextIndex ≤ n → s.options n = none
  ordered : l.Pairwise s.Before
  later : ∀ a ∈ l, ∀ b ∈ adds, a < b
  increasing : adds.Pairwise (· < ·)
  runs_known : ∀ n ∈ s.runs, n < s.nextIndex
  fresh : ∀ n ∈ adds, n ∉ s.runs
  once_run : OnceRun s
  running : ∀ n ∈ l, s.once n = true → n ∈ s.runs → n ∈ s.stack.map Frame.cur
  complete : Complete s
  frames : ∀ f ∈ s.stack, Standing s l f
  apart : ((s.stack.map Frame.cur).filter s.once).Nodup

theorem Core.length_le (h : Core s l adds) : l.length ≤ s.nextIndex := by
  have hsub : l ⊆ List.range s.nextIndex :=
    fun n hn => List.mem_range.mpr (h.known n (.inl hn)).1
  have hle := (List.subperm_of_subset h.isList.nodup hsub).length_le
  rwa [List.length_range] at hle

/-- The members are the list. -/
theorem Core.members_eq (h : Core s l adds) : s.members = l := h.isList.walk h.length_le

/-- The first of what is to be added is put in its place. -/
theorem Core.doSubscribe (h : Core s l (n :: adds)) (hstack : s.stack = []) :
    ∃ L, doSubscribe s n = { s with links := L } ∧
      Core { s with links := L } (s.place n l) adds := by
  have hn : n ∉ l := fun hmem => absurd (h.later n hmem n List.mem_cons_self) (lt_irrefl n)
  have hadds : n ∉ adds := fun hmem =>
    absurd ((List.pairwise_cons.mp h.increasing).1 n hmem) (lt_irrefl n)
  obtain ⟨hlt, hsome⟩ := h.known n (.inr List.mem_cons_self)
  have hloose := h.loose n (.inl List.mem_cons_self)
  have hrest : ∀ m, m ∈ adds ∨ s.nextIndex ≤ m → m ≠ n ∧ m ∉ l := by
    rintro m (hm | hm)
    · refine ⟨?_, fun hmem => ?_⟩
      · rintro rfl
        exact hadds hm
      · exact absurd (h.later m hmem m (List.mem_cons_of_mem _ hm)) (lt_irrefl m)
    · refine ⟨by omega, fun hmem => ?_⟩
      have := (h.known m (.inl hmem)).1
      omega
  have hloose' : ∀ m, m ∈ adds ∨ s.nextIndex ≤ m → s.links.Loose m :=
    fun m hm => h.loose m (hm.imp_left (List.mem_cons_of_mem _))
  -- the links first, then what is said of the indices
  obtain ⟨L, heq, hlist, hothers⟩ : ∃ L, SubscribableEvent.doSubscribe s n = { s with links := L } ∧
      L.IsList (s.place n l) ∧ ∀ m, m ∈ adds ∨ s.nextIndex ≤ m → L.Loose m := by
    unfold SubscribableEvent.doSubscribe
    cases l with
    | nil =>
      rw [h.isList.first]
      exact ⟨_, rfl, Links.IsList.singleton hloose.1 hloose.2, hloose'⟩
    | cons cur rest =>
      rw [h.isList.first]
      have hwhole : s.links.IsList ([] ++ cur :: rest) := h.isList
      refine ⟨_, rfl, ?_, fun m hm => ?_⟩
      · exact insertFrom_isList hwhole hn hloose h.length_le
      · exact insertFrom_loose hwhole (hrest m hm).2 (hrest m hm).1 (hloose' m hm) _
  refine ⟨L, heq, ?_⟩
  constructor
  · exact hlist
  · exact hothers
  · rintro m (hm | hm)
    · obtain rfl | hm := mem_place.mp hm
      · exact ⟨hlt, hsome⟩
      · exact h.known m (.inl hm)
    · exact h.known m (.inr (List.mem_cons_of_mem _ hm))
  · exact h.unknown
  · exact pairwise_place h.ordered (fun a ha => h.later a ha n List.mem_cons_self)
      fun a ha => (h.known a (.inl ha)).2
  · intro a ha b hb
    obtain rfl | ha := mem_place.mp ha
    · exact (List.pairwise_cons.mp h.increasing).1 b hb
    · exact h.later a ha b (List.mem_cons_of_mem _ hb)
  · exact (List.pairwise_cons.mp h.increasing).2
  · exact h.runs_known
  · exact fun m hm => h.fresh m (List.mem_cons_of_mem _ hm)
  · exact h.once_run
  · intro m hm honce hruns
    obtain rfl | hm := mem_place.mp hm
    · exact absurd hruns (h.fresh m List.mem_cons_self)
    · exact h.running m hm honce hruns
  · exact h.complete
  · show ∀ f ∈ s.stack, _
    -- nothing is being thrown, so there is no frame to keep
    rw [hstack]
    exact fun f hf => absurd hf List.not_mem_nil
  · exact h.apart

/-- The deferred subscribers are placed one by one. -/
theorem Core.foldl_doSubscribe (h : Core s l adds) (hstack : s.stack = []) :
    ∃ L l', adds.foldl SubscribableEvent.doSubscribe s = { s with links := L } ∧
      Core { s with links := L } l' [] ∧ ∀ m, m ∈ l' ↔ m ∈ l ∨ m ∈ adds := by
  induction adds generalizing s l with
  | nil => exact ⟨s.links, l, rfl, h, by simp⟩
  | cons n rest ih =>
    obtain ⟨L, heq, hcore⟩ := h.doSubscribe hstack
    obtain ⟨L', l', hfold, hcore', hmem⟩ := ih hcore hstack
    refine ⟨L', l', ?_, hcore', fun m => ?_⟩
    · rw [List.foldl_cons, heq, hfold]
    · rw [hmem, mem_place, List.mem_cons]
      tauto

/-- Outside of any throw a subscriber may be unlinked. -/
theorem Core.doUnsubscribe (h : Core s l adds) (hstack : s.stack = []) (n : ℕ) :
    ∃ L, doUnsubscribe s n = { s with links := L } ∧
      Core { s with links := L } (l.erase n) adds := by
  have heq : SubscribableEvent.doUnsubscribe s n = if n ∈ l then removeNode s n else s := by
    unfold SubscribableEvent.doUnsubscribe
    have hwhole : s.links.IsList ([] ++ l) := h.isList
    rw [h.isList.first]
    exact removeFrom_eq hwhole h.length_le
  by_cases hn : n ∈ l
  · rw [if_pos hn] at heq
    refine ⟨_, heq, ?_⟩
    have hsub : l.erase n ⊆ l := List.erase_subset
    constructor
    · exact isList_removeNode h.isList hn
    · intro m hm
      refine loose_removeNode h.isList hn ?_ (h.loose m hm)
      intro hmem
      have hlt := (h.known m (.inl hmem)).1
      obtain hm | hm := hm
      · exact absurd (h.later m hmem m hm) (lt_irrefl m)
      · exact absurd (show s.nextIndex ≤ m from hm) (by omega)
    · exact fun m hm => h.known m (hm.imp_left (hsub ·))
    · exact h.unknown
    · exact h.ordered.sublist List.erase_sublist
    · exact fun a ha => h.later a (hsub ha)
    · exact h.increasing
    · exact h.runs_known
    · exact h.fresh
    · exact h.once_run
    · exact fun m hm => h.running m (hsub hm)
    · exact h.complete
    · show ∀ f ∈ s.stack, _
      rw [hstack]
      exact fun f hf => absurd hf List.not_mem_nil
    · exact h.apart
  · rw [if_neg hn] at heq
    rw [List.erase_of_not_mem hn]
    exact ⟨s.links, heq, h⟩

/-- So may the deferred ones, one by one. -/
theorem Core.foldl_doUnsubscribe (h : Core s l adds) (dels : List ℕ) (hstack : s.stack = []) :
    ∃ L l', dels.foldl SubscribableEvent.doUnsubscribe s = { s with links := L } ∧
      Core { s with links := L } l' adds ∧ ∀ m, m ∈ l' ↔ m ∈ l ∧ m ∉ dels := by
  induction dels generalizing s l with
  | nil => exact ⟨s.links, l, rfl, h, by simp⟩
  | cons n rest ih =>
    obtain ⟨L, heq, hcore⟩ := h.doUnsubscribe hstack n
    obtain ⟨L', l', hfold, hcore', hmem⟩ := ih hcore hstack
    refine ⟨L', l', ?_, hcore', fun m => ?_⟩
    · rw [List.foldl_cons, heq, hfold]
    · rw [hmem, h.isList.nodup.mem_erase_iff, List.mem_cons]
      tauto

/-- What is pending is no part of the list. -/
theorem Core.setPending (h : Core s l adds) (newAdds newDels : List ℕ) (count : ℕ) :
    Core { s with pendingAdds := newAdds, pendingDeletions := newDels, enterCount := count } l
      adds :=
  ⟨h.isList, h.loose, h.known, h.unknown, h.ordered, h.later, h.increasing, h.runs_known, h.fresh,
    h.once_run, h.running, h.complete, fun f hf => ⟨(h.frames f hf).cur_mem, (h.frames f hf).cur_ran,
      (h.frames f hf).ahead⟩, h.apart⟩

/-- With no throw under way, everything that was asked for is done. -/
theorem Core.process (h : Core s l s.pendingAdds) (hstack : s.stack = []) :
    ∃ L l', processDeferredSubscriptions s =
        { s with links := L, pendingAdds := [], pendingDeletions := [] } ∧
      Core { s with links := L, pendingAdds := [], pendingDeletions := [] } l' [] ∧
      ∀ m, m ∈ l' ↔ (m ∈ l ∨ m ∈ s.pendingAdds) ∧ m ∉ s.pendingDeletions := by
  obtain ⟨L, l', hadds, hcore, hmem⟩ := h.foldl_doSubscribe hstack
  obtain ⟨L', l'', hdels, hcore', hmem'⟩ :=
    (hcore.setPending [] s.pendingDeletions s.enterCount).foldl_doUnsubscribe
      s.pendingDeletions hstack
  refine ⟨L', l'', ?_, hcore'.setPending [] [] s.enterCount, fun m => ?_⟩
  · unfold processDeferredSubscriptions
    simp only [hadds]
    rw [hdels]
  · rw [hmem', hmem]

/-! ### Throws -/

/-- What holds between two actions. -/
structure Inv (s : State P) (l : List ℕ) : Prop where
  core : Core s l s.pendingAdds
  depth : s.enterCount = s.stack.length
  idle : s.stack = [] → s.pendingAdds = [] ∧ s.pendingDeletions = []

/-- What becomes of the list when a throw goes on or returns. -/
def Settles (s : State P) (l : List ℕ) (s' : State P) (l' : List ℕ) : Prop :=
  (s'.stack ≠ [] → l' = l) ∧
  (s'.stack = [] → ∀ m, m ∈ l' ↔ (m ∈ l ∨ m ∈ s.pendingAdds) ∧ m ∉ s.pendingDeletions)

/-- A complete throw may return. -/
theorem Core.thrown (h : Core s l adds) {t : Thrown} (ht : t.stopped = false →
    ∀ n ∈ t.began, n ∈ t.ran ∨ s.once n = true ∧ n ∈ t.runs) (count : ℕ) :
    Core { s with thrown := s.thrown ++ [t], enterCount := count } l adds := by
  refine ⟨h.isList, h.loose, h.known, h.unknown, h.ordered, h.later, h.increasing, h.runs_known,
    h.fresh, h.once_run, h.running, ?_, fun f hf => ⟨(h.frames f hf).cur_mem,
      (h.frames f hf).cur_ran, (h.frames f hf).ahead⟩, h.apart⟩
  intro t' ht'
  obtain hold | hnew := List.mem_append.mp ht'
  · exact h.complete t' hold
  · rw [List.mem_singleton.mp hnew]
    exact ht

/-- The outermost throw ends with all that was deferred. -/
theorem Core.leave (h : Core s l s.pendingAdds) (hdepth : s.enterCount = s.stack.length + 1)
    {stopped : Bool} (hdone : stopped = false →
      ∀ n ∈ f.began, n ∈ f.ran ∨ s.once n = true ∧ n ∈ s.runs) :
    ∃ l', Inv (leave s f stopped) l' ∧ Settles s l (leave s f stopped) l' := by
  unfold SubscribableEvent.leave
  have hcount : s.enterCount - 1 = s.stack.length := by omega
  have hthrown := h.thrown (t := { began := f.began, ran := f.ran, stopped, runs := s.runs }) hdone
    (s.enterCount - 1)
  simp only
  by_cases hstack : s.stack = []
  · rw [if_pos (by rw [hcount, hstack]; rfl)]
    obtain ⟨L, l', heq, hcore, hmem⟩ := hthrown.process hstack
    rw [heq]
    refine ⟨l', ⟨hcore, ?_, fun _ => ⟨rfl, rfl⟩⟩, fun hne => absurd hstack hne, fun _ => hmem⟩
    exact hcount
  · rw [if_neg (by rw [hcount]; exact fun hzero => hstack (List.length_eq_zero_iff.mp hzero))]
    exact ⟨l, ⟨hthrown, hcount, fun hempty => absurd hempty hstack⟩, fun _ => rfl,
      fun hempty => absurd hempty hstack⟩

/-- A throw about to dispatch to `next`, with the others under way below it. -/
structure Poised (s : State P) (l : List ℕ) (f : Frame) (next : Option ℕ) : Prop where
  core : Core s l s.pendingAdds
  depth : s.enterCount = s.stack.length + 1
  next_mem : ∀ n, next = some n → n ∈ l
  ahead : ∀ n ∈ f.began, n ∈ f.ran ∨ (s.once n = true ∧ n ∈ s.runs) ∨
    ∃ k, next = some k ∧ (n = k ∨ Follows l k n)

/-- The next handler is run. -/
theorem Poised.dispatch (h : Poised s l f (some n))
    (hentered : s.once n = true → n ∉ s.stack.map Frame.cur) :
    Inv { s with
      stack := { f with cur := n, ran := f.ran ++ [n] } :: s.stack
      runs := s.runs ++ [n] } l := by
  have hn := h.next_mem n rfl
  have hcore := h.core
  -- a handler that runs once and has run would still be running
  have hnew : s.once n = true → n ∉ s.runs :=
    fun honce hruns => hentered honce (hcore.running n hn honce hruns)
  refine ⟨?_, h.depth, fun hempty => absurd hempty (by simp)⟩
  constructor
  · exact hcore.isList
  · exact hcore.loose
  · exact hcore.known
  · exact hcore.unknown
  · exact hcore.ordered
  · exact hcore.later
  · exact hcore.increasing
  · intro m hm
    obtain hold | hnew := List.mem_append.mp hm
    · exact hcore.runs_known m hold
    · rw [List.mem_singleton.mp hnew]
      exact (hcore.known n (.inl hn)).1
  · intro m hm hruns
    obtain hold | hnew := List.mem_append.mp hruns
    · exact hcore.fresh m hm hold
    · obtain rfl := List.mem_singleton.mp hnew
      exact absurd (hcore.later m hn m hm) (lt_irrefl m)
  · intro m honce
    show (s.runs ++ [n]).count m ≤ 1
    rw [List.count_append]
    by_cases hmn : m = n
    · subst hmn
      rw [List.count_eq_zero_of_not_mem (hnew honce), List.count_singleton_self]
    · have hlast : List.count m [n] = 0 := List.count_eq_zero_of_not_mem (by simpa using hmn)
      rw [hlast]
      exact hcore.once_run m honce
  · intro m hm honce hruns
    obtain hold | hnew := List.mem_append.mp hruns
    · exact List.mem_cons_of_mem _ (hcore.running m hm honce hold)
    · obtain rfl := List.mem_singleton.mp hnew
      exact List.mem_cons_self
  · exact hcore.complete
  · intro g hg
    obtain rfl | hold := List.mem_cons.mp hg
    · refine ⟨hn, List.mem_append_right _ List.mem_cons_self, fun m hm => ?_⟩
      -- what this throw has yet to reach is the node itself or behind it
      obtain hran | ⟨honce, hruns⟩ | ⟨k, hk, hfollows⟩ := h.ahead m hm
      · exact .inl (List.mem_append_left _ hran)
      · exact .inr (.inl ⟨honce, List.mem_append_left _ hruns⟩)
      · obtain rfl := Option.some.inj hk
        obtain rfl | hfollows := hfollows
        · exact .inl (List.mem_append_right _ List.mem_cons_self)
        · exact .inr (.inr hfollows)
    · have hg := hcore.frames g hold
      exact ⟨hg.cur_mem, List.mem_append_left _ hg.cur_ran, fun m hm =>
        (hg.ahead m hm).imp_right (Or.imp_left (And.imp_right (List.mem_append_left _)))⟩
  · show ((n :: s.stack.map Frame.cur).filter s.once).Nodup
    rw [List.filter_cons]
    split
    · rename_i honce
      exact List.nodup_cons.mpr
        ⟨fun hmem => hentered honce (List.mem_of_mem_filter hmem), hcore.apart⟩
    · exact hcore.apart

/-- A throw goes on to its next handler or ends. -/
theorem Poised.advance {next : Option ℕ} (h : Poised s l f next)
    (hentered : ∀ n, next = some n → s.stopped f.event = false → s.once n = true →
      n ∉ s.stack.map Frame.cur) :
    ∃ l', Inv (advance s f next) l' ∧ Settles s l (advance s f next) l' := by
  unfold SubscribableEvent.advance
  cases next with
  | none =>
    apply h.core.leave h.depth
    intro _ n hn
    obtain hran | hruns | ⟨k, hk, _⟩ := h.ahead n hn
    · exact .inl hran
    · exact .inr hruns
    · exact absurd hk (by simp)
  | some n =>
    simp only
    split
    · exact h.core.leave h.depth fun hfalse => absurd hfalse (by simp)
    · rename_i hgoes
      refine ⟨l, h.dispatch (hentered n rfl (by simpa using hgoes)), fun _ => rfl,
        fun hempty => absurd hempty (by simp)⟩

/-! ### The other actions -/

/-- A subscriber is made, with a new index. -/
def registered (s : State P) (o : Options P) : State P :=
  { s with
    nextIndex := s.nextIndex + 1
    options := Function.update s.options s.nextIndex (some o) }

omit [LinearOrder P] in
theorem registered_options {o : Options P} (h : n ≠ s.nextIndex) :
    (registered s o).options n = s.options n := Function.update_of_ne h _ _

omit [LinearOrder P] in
/-- A new subscriber does not change the others. -/
theorem registered_once {o : Options P} (h : n ≠ s.nextIndex) :
    (registered s o).once n = s.once n := by
  unfold State.once
  rw [registered_options h]

omit [LinearOrder P] in
theorem once_registered {o : Options P} (hunknown : s.options s.nextIndex = none)
    (h : s.once n = true) : (registered s o).once n = true := by
  by_cases hn : n = s.nextIndex
  · subst hn
    unfold State.once at h
    rw [hunknown] at h
    exact absurd h (by simp)
  · rw [registered_once hn]
    exact h

/-- A new subscriber waits to be placed. -/
theorem Core.register (h : Core s l adds) (o : Options P) :
    Core (registered s o) l (adds ++ [s.nextIndex]) := by
  -- the index is new, so for all that are known nothing changes
  have hold : ∀ m, m ∈ l ∨ m ∈ adds → m ≠ s.nextIndex := by
    intro m hm
    have := (h.known m hm).1
    omega
  have honce : ∀ m, s.once m = true → (registered s o).once m = true :=
    fun m => once_registered (h.unknown _ le_rfl)
  constructor
  · exact h.isList
  · intro m hm
    apply h.loose m
    obtain hm | hm := hm
    · obtain hm | hm := List.mem_append.mp hm
      · exact .inl hm
      · rw [List.mem_singleton.mp hm]
        exact .inr le_rfl
    · exact .inr (Nat.le_of_succ_le hm)
  · intro m hm
    by_cases hnew : m = s.nextIndex
    · subst hnew
      refine ⟨Nat.lt_succ_self _, ?_⟩
      show (Function.update s.options s.nextIndex (some o) s.nextIndex).isSome = true
      rw [Function.update_self]
      rfl
    · have hm' : m ∈ l ∨ m ∈ adds := by
        simpa [hnew] using hm
      rw [registered_options hnew]
      exact ⟨Nat.lt_succ_of_lt (h.known m hm').1, (h.known m hm').2⟩
  · intro m hm
    have hm' : s.nextIndex + 1 ≤ m := hm
    rw [registered_options (by omega)]
    exact h.unknown m (by omega)
  · apply h.ordered.imp_of_mem
    intro a b ha hb hbefore
    unfold State.Before State.above at hbefore ⊢
    rw [registered_options (hold a (.inl ha)), registered_options (hold b (.inl hb))]
    exact hbefore
  · intro a ha b hb
    obtain hb | hb := List.mem_append.mp hb
    · exact h.later a ha b hb
    · rw [List.mem_singleton.mp hb]
      exact (h.known a (.inl ha)).1
  · rw [List.pairwise_append]
    refine ⟨h.increasing, List.pairwise_singleton _ _, fun a ha b hb => ?_⟩
    rw [List.mem_singleton.mp hb]
    exact (h.known a (.inr ha)).1
  · exact fun m hm => Nat.lt_succ_of_lt (h.runs_known m hm)
  · intro m hm hruns
    obtain hm | hm := List.mem_append.mp hm
    · exact h.fresh m hm hruns
    · rw [List.mem_singleton.mp hm] at hruns
      exact absurd (h.runs_known _ hruns) (lt_irrefl _)
  · intro m hm
    show s.runs.count m ≤ 1
    by_cases hnew : m = s.nextIndex
    · rw [List.count_eq_zero_of_not_mem]
      · exact Nat.zero_le _
      · subst hnew
        exact fun hruns => absurd (h.runs_known _ hruns) (lt_irrefl _)
    · rw [registered_once hnew] at hm
      exact h.once_run m hm
  · intro m hm hmonce
    rw [registered_once (hold m (.inl hm))] at hmonce
    exact h.running m hm hmonce
  · exact fun t ht hstopped n hn =>
      (h.complete t ht hstopped n hn).imp_right (And.imp_left (honce n))
  · exact fun f hf => ⟨(h.frames f hf).cur_mem, (h.frames f hf).cur_ran, fun n hn =>
      ((h.frames f hf).ahead n hn).imp_right (Or.imp_left (And.imp_left (honce n)))⟩
  · have hfilter : (s.stack.map Frame.cur).filter (registered s o).once =
        (s.stack.map Frame.cur).filter s.once := by
      apply List.filter_congr
      intro m hm
      obtain ⟨f, hf, rfl⟩ := List.mem_map.mp hm
      exact registered_once (hold _ (.inl (h.frames f hf).cur_mem))
    show ((s.stack.map Frame.cur).filter (registered s o).once).Nodup
    rw [hfilter]
    exact h.apart

/-- Subscribing places the new one, or defers it during a throw. -/
theorem Inv.subscribe (h : Inv s l) (o : Options P) :
    ∃ l', Inv (subscribe s o) l' ∧ (subscribe s o).stack = s.stack ∧
      (s.stack ≠ [] → l' = l) := by
  have hregister := h.core.register o
  unfold SubscribableEvent.subscribe
  simp only
  by_cases hstack : s.stack = []
  · rw [if_pos (by rw [h.depth, hstack]; rfl)]
    obtain ⟨hadds, hdels⟩ := h.idle hstack
    rw [hadds, List.nil_append] at hregister
    obtain ⟨L, heq, hcore⟩ := hregister.doSubscribe hstack
    refine ⟨(registered s o).place s.nextIndex l, ?_, ?_, fun hne => absurd hstack hne⟩
    · show Inv (doSubscribe (registered s o) s.nextIndex) _
      rw [heq]
      refine ⟨?_, h.depth, fun _ => ⟨hadds, hdels⟩⟩
      show Core _ _ s.pendingAdds
      rw [hadds]
      exact hcore
    · show (doSubscribe (registered s o) s.nextIndex).stack = _
      rw [heq]
      rfl
  · rw [if_neg (by rw [h.depth]; exact fun hzero => hstack (List.length_eq_zero_iff.mp hzero))]
    exact ⟨l, ⟨hregister.setPending _ s.pendingDeletions s.enterCount, h.depth,
      fun hempty => absurd hempty hstack⟩, rfl, fun _ => rfl⟩

/-- Unsubscribing unlinks, or is deferred during a throw. -/
theorem Inv.unsubscribe (h : Inv s l) (idPrefix id : ℕ) :
    ∃ l', Inv (unsubscribe idPrefix s id) l' ∧ (unsubscribe idPrefix s id).stack = s.stack ∧
      (s.stack ≠ [] → l' = l) := by
  unfold SubscribableEvent.unsubscribe
  split
  · exact ⟨l, h, rfl, fun _ => rfl⟩
  · simp only
    by_cases hstack : s.stack = []
    · rw [if_pos (by rw [h.depth, hstack]; rfl)]
      obtain ⟨L, heq, hcore⟩ := h.core.doUnsubscribe hstack (id &&& 0xffffffff)
      rw [heq]
      exact ⟨_, ⟨hcore, h.depth, h.idle⟩, rfl, fun hne => absurd hstack hne⟩
    · rw [if_neg (by rw [h.depth]; exact fun hzero => hstack (List.length_eq_zero_iff.mp hzero))]
      exact ⟨l, ⟨h.core.setPending s.pendingAdds _ s.enterCount, h.depth,
        fun hempty => absurd hempty hstack⟩, rfl, fun _ => rfl⟩

/-- A throw goes to the first subscriber. -/
theorem Inv.throw (h : Inv s l) {event : ℕ} (hentered : Unentered s (.throw event)) :
    ∃ l' s', s' = advance { s with enterCount := s.enterCount + 1 }
        { event, cur := 0, began := s.members, ran := [] } s.links.first ∧
      Inv s' l' ∧ Settles s l s' l' := by
  have hpoised : Poised { s with enterCount := s.enterCount + 1 } l
      { event, cur := 0, began := s.members, ran := [] } s.links.first := by
    constructor
    · exact h.core.setPending s.pendingAdds s.pendingDeletions _
    · show s.enterCount + 1 = _
      rw [h.depth]
    · intro n hn
      rw [h.core.isList.first] at hn
      exact List.mem_of_mem_head? hn
    · intro n hn
      right
      right
      have hn' : n ∈ s.members := hn
      rw [h.core.members_eq] at hn'
      rw [h.core.isList.first]
      cases l with
      | nil => exact absurd hn' List.not_mem_nil
      | cons k rest =>
        refine ⟨k, rfl, ?_⟩
        obtain rfl | hrest := List.mem_cons.mp hn'
        · exact .inl rfl
        · exact .inr ⟨[], rest, rfl, hrest⟩
  obtain ⟨l', hinv, hsettles⟩ := hpoised.advance hentered
  exact ⟨l', _, rfl, hinv, hsettles⟩

/-- The handler on top is through, and its throw not yet on the next one. -/
theorem Inv.popped {rest : List Frame} (h : Inv s l) (hstack : s.stack = f :: rest)
    (honce : s.once f.cur = false) :
    Poised { s with stack := rest } l f (s.links.next f.cur) := by
  have hcore := h.core
  have hframe : Standing s l f := hcore.frames f (by rw [hstack]; exact List.mem_cons_self)
  constructor
  · refine ⟨hcore.isList, hcore.loose, hcore.known, hcore.unknown, hcore.ordered, hcore.later,
      hcore.increasing, hcore.runs_known, hcore.fresh, hcore.once_run, ?_, hcore.complete, ?_, ?_⟩
    · intro n hn hnonce hruns
      have hrunning := hcore.running n hn hnonce hruns
      rw [hstack, List.map_cons] at hrunning
      obtain rfl | hrest := List.mem_cons.mp hrunning
      · exact absurd (honce.symm.trans hnonce) (by simp)
      · exact hrest
    · intro g hg
      have hg := hcore.frames g (by rw [hstack]; exact List.mem_cons_of_mem _ hg)
      exact ⟨hg.cur_mem, hg.cur_ran, hg.ahead⟩
    · have hapart := hcore.apart
      rw [hstack, List.map_cons, List.filter_cons, if_neg (by simp [honce])] at hapart
      exact hapart
  · show s.enterCount = rest.length + 1
    rw [h.depth, hstack]
    rfl
  · exact fun n hn => (next_mem hcore.isList hframe.cur_mem hn).1
  · intro n hn
    obtain hran | hruns | hfollows := hframe.ahead n hn
    · exact .inl hran
    · exact .inr (.inl hruns)
    · exact .inr (.inr (hfollows.next hcore.isList))

/-- The same for one that is taken out then: no throw below stands on it. -/
theorem Inv.poppedOnce {rest : List Frame} (h : Inv s l) (hstack : s.stack = f :: rest)
    (honce : s.once f.cur = true) :
    Poised (removeNode { s with stack := rest } f.cur) (l.erase f.cur) f
      (s.links.next f.cur) := by
  have hcore := h.core
  have hframe : Standing s l f := hcore.frames f (by rw [hstack]; exact List.mem_cons_self)
  have hsub : l.erase f.cur ⊆ l := List.erase_subset
  have hapart := hcore.apart
  rw [hstack, List.map_cons, List.filter_cons, if_pos honce, List.nodup_cons] at hapart
  -- no throw below is in the midst of this handler: it runs once
  have hbelow : ∀ g ∈ rest, g.cur ≠ f.cur := by
    intro g hg heq
    apply hapart.1
    rw [← heq] at honce ⊢
    exact List.mem_filter.mpr ⟨List.mem_map_of_mem hg, honce⟩
  have hgone : ∀ n, n = f.cur → s.once n = true ∧ n ∈ s.runs := by
    rintro n rfl
    exact ⟨honce, hframe.cur_ran⟩
  constructor
  · refine ⟨isList_removeNode hcore.isList hframe.cur_mem, ?_, ?_, hcore.unknown,
      hcore.ordered.sublist List.erase_sublist, fun a ha => hcore.later a (hsub ha),
      hcore.increasing, hcore.runs_known, hcore.fresh, hcore.once_run, ?_, hcore.complete, ?_,
      hapart.2⟩
    · intro n hn
      refine loose_removeNode (s := { s with stack := rest }) hcore.isList hframe.cur_mem ?_
        (hcore.loose n hn)
      intro hmem
      have hlt := (hcore.known n (.inl hmem)).1
      obtain hn | hn := hn
      · exact absurd (hcore.later n hmem n hn) (lt_irrefl n)
      · exact absurd (show s.nextIndex ≤ n from hn) (by omega)
    · exact fun n hn => hcore.known n (hn.imp_left (hsub ·))
    · intro n hn hnonce hruns
      have hrunning := hcore.running n (hsub hn) hnonce hruns
      rw [hstack, List.map_cons] at hrunning
      obtain rfl | hrest := List.mem_cons.mp hrunning
      · exact absurd hn (hcore.isList.nodup.not_mem_erase)
      · exact hrest
    · intro g hg
      have hstanding := hcore.frames g (by rw [hstack]; exact List.mem_cons_of_mem _ hg)
      refine ⟨(List.mem_erase_of_ne (hbelow g hg)).mpr hstanding.cur_mem, hstanding.cur_ran, ?_⟩
      intro n hn
      obtain hran | hruns | hfollows := hstanding.ahead n hn
      · exact .inl hran
      · exact .inr (.inl hruns)
      · by_cases hcur : n = f.cur
        · exact .inr (.inl (hgone n hcur))
        · exact .inr (.inr (hfollows.erase (hbelow g hg).symm (Ne.symm hcur)))
  · show s.enterCount = rest.length + 1
    rw [h.depth, hstack]
    rfl
  · intro n hn
    obtain ⟨hmem, hne⟩ := next_mem hcore.isList hframe.cur_mem hn
    exact (List.mem_erase_of_ne hne).mpr hmem
  · intro n hn
    obtain hran | hruns | hfollows := hframe.ahead n hn
    · exact .inl hran
    · exact .inr (.inl hruns)
    · by_cases hcur : n = f.cur
      · exact .inr (.inl (hgone n hcur))
      · obtain ⟨k, hk, hnext⟩ := hfollows.next hcore.isList
        have hne := (next_mem hcore.isList hframe.cur_mem hk).2
        exact .inr (.inr ⟨k, hk, hnext.imp_right fun hafter =>
          hafter.erase hne.symm (Ne.symm hcur)⟩)

/-- What leaves the list as it is defers its changes. -/
theorem defers_of_same (h : Inv s l) (h' : Inv s' l') (hstack : s'.stack = s.stack)
    (hsame : s.stack ≠ [] → l' = l) : Defers s s' := by
  unfold Defers
  split
  · rename_i hempty
    exact ⟨(h'.idle hempty).1, (h'.idle hempty).2, fun hne => absurd (hstack ▸ hempty) hne⟩
  · rename_i hne
    rw [h.core.members_eq, h'.core.members_eq, hsame (hstack ▸ hne)]
    exact ⟨List.Sublist.refl _, fun n hn => .inl hn⟩

/-- The outermost throw makes all changes that were deferred. -/
theorem defers_of_settles {s₁ : State P} {l₁ : List ℕ} (h : Inv s l) (h' : Inv s' l')
    (hsub : l₁.Sublist l) (hgone : ∀ n ∈ l, n ∈ l₁ ∨ s.once n = true ∧ n ∈ s.runs)
    (hadds : s₁.pendingAdds = s.pendingAdds) (hdels : s₁.pendingDeletions = s.pendingDeletions)
    (hsettles : Settles s₁ l₁ s' l') : Defers s s' := by
  unfold Defers
  rw [h.core.members_eq, h'.core.members_eq]
  split
  · rename_i hempty
    refine ⟨(h'.idle hempty).1, (h'.idle hempty).2, fun _ => ?_⟩
    have hmem := hsettles.2 hempty
    rw [hadds, hdels] at hmem
    constructor
    · intro n hn
      obtain ⟨hin, hkept⟩ := (hmem n).mp hn
      exact ⟨hin.imp_left (hsub.subset ·), hkept⟩
    · rintro n (hn | hn) hkept
      · exact (hgone n hn).imp_left fun hl₁ => (hmem n).mpr ⟨.inl hl₁, hkept⟩
      · exact .inl ((hmem n).mpr ⟨.inr hn, hkept⟩)
  · rename_i hne
    rw [hsettles.1 hne]
    exact ⟨hsub, hgone⟩

/-- Every step that comes to no running `Once` subscriber keeps the list, and defers its changes.
-/
theorem Inv.step {a : Action P} {idPrefix : ℕ} (h : Inv s l) (hentered : Unentered s a)
    (hstep : step idPrefix s a = some s') : ∃ l', Inv s' l' ∧ Defers s s' := by
  cases a with
  | subscribe o =>
    obtain rfl := Option.some.inj hstep
    obtain ⟨l', hinv, hstack, hsame⟩ := h.subscribe o
    exact ⟨l', hinv, defers_of_same h hinv hstack hsame⟩
  | unsubscribe id =>
    obtain rfl := Option.some.inj hstep
    obtain ⟨l', hinv, hstack, hsame⟩ := h.unsubscribe idPrefix id
    exact ⟨l', hinv, defers_of_same h hinv hstack hsame⟩
  | throw event =>
    obtain rfl := Option.some.inj hstep
    obtain ⟨l', _, rfl, hinv, hsettles⟩ := h.throw hentered
    exact ⟨l', hinv, defers_of_settles h hinv (List.Sublist.refl l) (fun n hn => .inl hn) rfl rfl
      hsettles⟩
  | setStopped event stopped =>
    obtain rfl := Option.some.inj hstep
    have hcore := h.core
    have hinv : Inv { s with stopped := Function.update s.stopped event stopped } l := by
      refine ⟨⟨hcore.isList, hcore.loose, hcore.known, hcore.unknown, hcore.ordered, hcore.later,
        hcore.increasing, hcore.runs_known, hcore.fresh, hcore.once_run, hcore.running,
        hcore.complete, fun f hf => ?_, hcore.apart⟩, h.depth, h.idle⟩
      exact ⟨(hcore.frames f hf).cur_mem, (hcore.frames f hf).cur_ran, (hcore.frames f hf).ahead⟩
    exact ⟨l, hinv, defers_of_same h hinv rfl fun _ => rfl⟩
  | returns =>
    cases hstack : s.stack with
    | nil => simp [SubscribableEvent.step, hstack] at hstep
    | cons f rest =>
      simp only [SubscribableEvent.step, hstack, Option.some.injEq] at hstep
      -- what the throw goes on to does not wait further down the stack
      have hbelow : ∀ n, s.links.next f.cur = some n → s.stopped f.event = false →
          s.once n = true → n ∉ rest.map Frame.cur := by
        intro n hnext hgoes honce hmem
        refine hentered f rest n hstack hnext hgoes honce ?_
        rw [hstack]
        exact List.mem_cons_of_mem _ hmem
      have hcur : State.once { s with stack := rest } f.cur = s.once f.cur := rfl
      rw [hcur] at hstep
      cases honce : s.once f.cur with
      | false =>
        rw [honce, if_neg (by simp)] at hstep
        obtain ⟨l', hinv, hsettles⟩ := (h.popped hstack honce).advance hbelow
        rw [← hstep]
        exact ⟨l', hinv, defers_of_settles h hinv (List.Sublist.refl l) (fun n hn => .inl hn) rfl
          rfl hsettles⟩
      | true =>
        rw [honce, if_pos rfl] at hstep
        obtain ⟨l', hinv, hsettles⟩ := (h.poppedOnce hstack honce).advance hbelow
        rw [← hstep]
        have hran := (h.core.frames f (by rw [hstack]; exact List.mem_cons_self)).cur_ran
        refine ⟨l', hinv, defers_of_settles h hinv List.erase_sublist (fun n hn => ?_) rfl rfl
          hsettles⟩
        by_cases hn' : n = f.cur
        · rw [hn']
          exact .inr ⟨honce, hran⟩
        · exact .inl ((List.mem_erase_of_ne hn').mpr hn)
  | raises => exact absurd hentered id

theorem Inv.start : Inv ({} : State P) [] := by
  refine ⟨?_, rfl, fun _ => ⟨rfl, rfl⟩⟩
  constructor
  · exact ⟨List.nodup_nil, rfl, trivial⟩
  · exact fun _ _ => ⟨rfl, rfl⟩
  · exact fun n hn => absurd hn (by simp)
  · exact fun _ _ => rfl
  · exact List.Pairwise.nil
  · exact fun a ha => absurd ha List.not_mem_nil
  · exact List.Pairwise.nil
  · exact fun n hn => absurd hn List.not_mem_nil
  · exact fun n hn => absurd hn List.not_mem_nil
  · exact fun n hn => absurd hn (by simp [State.once])
  · exact fun n hn => absurd hn List.not_mem_nil
  · exact fun t ht => absurd ht List.not_mem_nil
  · exact fun f hf => absurd hf List.not_mem_nil
  · exact List.nodup_nil

/-- In every run in which no throw gets to a `Once` subscriber whose handler is running, the list
is linked and in order, a `Once` handler is run at most once, throws that are not stopped are
complete, and changes wait for the outermost throw. -/
theorem listed_of_run {idPrefix : ℕ} {as : List (Action P)}
    (h : Run (step idPrefix) Unentered {} as s) :
    Listed s ∧ OnceRun s ∧ Complete s ∧
      ∀ a s', Unentered s a → step idPrefix s a = some s' → Defers s s' := by
  obtain ⟨l, hinv⟩ : ∃ l, Inv s l := by
    apply h.invariant (I := fun s => ∃ l, Inv s l)
    · exact ⟨[], Inv.start⟩
    · rintro t a u ⟨l, hinv⟩ hentered hstep
      obtain ⟨l', hinv', _⟩ := hinv.step hentered hstep
      exact ⟨l', hinv'⟩
  refine ⟨⟨?_, ?_⟩, hinv.core.once_run, hinv.core.complete, fun a s' hentered hstep => ?_⟩
  · rw [hinv.core.members_eq]
    exact hinv.core.isList
  · rw [hinv.core.members_eq]
    exact hinv.core.ordered
  · obtain ⟨_, _, hdefers⟩ := hinv.step hentered hstep
    exact hdefers

/-! ### Two runs -/

/-- A subscriber for one time. -/
def demoOptions : Options ℕ := { priority := 100, once := true }

instance (s : State P) : (a : Action P) → Decidable (Unentered s a)
  | .throw event =>
    decidable_of_iff (∀ n ∈ s.links.first, s.stopped event = false → s.once n = true →
      n ∉ s.stack.map Frame.cur) Iff.rfl
  | .returns =>
    decidable_of_iff (∀ f ∈ s.stack.head?, ∀ n ∈ s.links.next f.cur, s.stopped f.event = false →
        s.once n = true → n ∉ s.stack.map Frame.cur) <| by
      cases hstack : s.stack with
      | nil => simp [Unentered, hstack]
      | cons f rest =>
        simp only [Unentered, hstack, List.head?_cons, Option.mem_def, Option.some.injEq,
          List.cons.injEq]
        constructor
        · rintro h f' rest' n ⟨rfl, rfl⟩
          exact h f rfl n
        · rintro h f' rfl n
          exact h f rest n ⟨rfl, rfl⟩
  | .raises => inferInstanceAs (Decidable False)
  | .subscribe _ | .unsubscribe _ | .setStopped _ _ => inferInstanceAs (Decidable True)

/-- Before a subscriber for one time comes one that throws the event again and subscribes a third. -/
def demoActions : List (Action ℕ) :=
  [.subscribe demoOptions, .subscribe { priority := 200, once := false }, .throw 0,
    .subscribe { priority := 150, once := false }, .throw 1, .returns, .returns, .returns]

/-- The inner throw spends the one for one time; the third is in the list after the outer one. -/
theorem listed_of_run_demo : ∃ s : State ℕ, Run (step 1) Unentered {} demoActions s ∧
    s.runs = [2, 2, 1] ∧ s.members = [2, 3] ∧ Listed s ∧ OnceRun s ∧ Complete s ∧
      ∀ a s', Unentered s a → step 1 s a = some s' → Defers s s' := by
  obtain ⟨s, hrun, hlists⟩ : ∃ s : State ℕ, Run (step 1) Unentered {} demoActions s ∧
      decide (s.runs = [2, 2, 1] ∧ s.members = [2, 3]) = true :=
    Run.exists_of_follow _ _ _ _ _ (by decide +kernel)
  obtain ⟨hruns, hmembers⟩ := of_decide_eq_true hlists
  exact ⟨s, hrun, hruns, hmembers, listed_of_run hrun⟩

/-- A handler for one time throws the event again, and is run by that throw too. -/
theorem nested_throw_runs_twice : ¬ ∀ (as : List (Action ℕ)) (s : State ℕ),
    Run (step 1) (fun _ _ => True) {} as s → Listed s ∧ OnceRun s ∧ Complete s ∧
      ∀ a s', step 1 s a = some s' → Defers s s' := by
  intro h
  obtain ⟨s, hrun, htwice⟩ : ∃ s : State ℕ, Run (step 1) (fun _ _ => True) {}
      [.subscribe demoOptions, .throw 0, .throw 1] s ∧
      (decide (s.runs.count 1 = 2) && s.once 1) = true :=
    Run.exists_of_follow _ _ _ _ _ (by decide +kernel)
  simp only [Bool.and_eq_true, decide_eq_true_eq] at htwice
  have honce := (h _ s hrun).2.1 1 htwice.2
  omega

end SubscribableEvent
end Bg3le
