import Bg3le.Loca.RepositoryLock

/-!
# Mutual exclusion of the repository's lock

The word is the start's with everyone added that has added itself and not taken it back, so that
a test for writers that comes out clear says that no writer has added itself at all.
-/

namespace Bg3le
namespace RepositoryLock

variable {r w : ℕ}

/-! ## The two fields of the word -/

private theorem mask_split (n : ℕ) (h : n < 2 ^ 32) :
    n = (n &&& 0xfff00000) ||| n % 2 ^ 20 := by
  calc n = n % 2 ^ 32 := (Nat.mod_eq_of_lt h).symm
    _ = n &&& (0xfff00000 ||| 0xfffff) := (Nat.and_two_pow_sub_one_eq_mod n 32).symm
    _ = (n &&& 0xfff00000) ||| (n &&& 0xfffff) := Nat.and_or_distrib_left ..
    _ = (n &&& 0xfff00000) ||| n % 2 ^ 20 := by rw [← Nat.and_two_pow_sub_one_eq_mod n 20]

theorem writers_eq_zero_iff (word : UInt32) : writers word = 0 ↔ word.toNat < 2 ^ 20 := by
  have hnat : writers word = 0 ↔ word.toNat &&& 0xfff00000 = 0 := by
    rw [writers, ← UInt32.toNat_inj, UInt32.toNat_and]
    rfl
  rw [hnat]
  constructor
  · intro h
    have hsplit := mask_split word.toNat word.toNat_lt
    rw [h, Nat.zero_or] at hsplit
    omega
  · intro h
    rw [← Nat.mod_eq_of_lt h, ← Nat.and_two_pow_sub_one_eq_mod, Nat.and_assoc]
    exact Nat.and_zero _

theorem readers_eq_zero_iff (word : UInt32) : readers word = 0 ↔ word.toNat % 2 ^ 20 = 0 := by
  rw [readers, ← UInt32.toNat_inj, UInt32.toNat_and, ← Nat.and_two_pow_sub_one_eq_mod]
  rfl

/-! ## Who is counted -/

/-- The reader has added itself. -/
def Reader.added : Reader → Bool
  | .undoing _ _ | .holding | .unlocking => true
  | _ => false

def Writer.added : Writer → Bool
  | .undoing _ _ | .waiting | .holding | .unlocking => true
  | _ => false

/-- The writer found no other when it added itself. -/
def Writer.owns : Writer → Bool
  | .waiting | .holding | .unlocking => true
  | _ => false

theorem Reader.added_of_has : ∀ p : Reader, p.has = true → p.added = true
  | .holding, _ | .unlocking, _ => rfl

theorem Writer.owns_of_has : ∀ p : Writer, p.has = true → p.owns = true
  | .holding, _ | .unlocking, _ => rfl

theorem Writer.added_of_owns : ∀ p : Writer, p.owns = true → p.added = true
  | .waiting, _ | .holding, _ | .unlocking, _ => rfl

theorem Reader.added_of_idle : ∀ p : Reader, p.idle = true → p.added = p.has
  | .outside, _ | .holding, _ => rfl

theorem Writer.added_of_idle : ∀ p : Writer, p.idle = true → p.added = p.has
  | .outside, _ | .holding, _ => rfl

/-- What the word counts, over what it was at the start. -/
def State.count (s : State r w) : ℕ :=
  tally Reader.added s.reader + 2 ^ 20 * tally Writer.added s.writer

structure Inv (base : UInt32) (s : State r w) : Prop where
  word : s.word.toNat = base.toNat + s.count
  owner : ∀ t t', (s.writer t).owns = true → (s.writer t').owns = true → t' = t
  alone : ∀ t t', (s.writer t).has = true → (s.reader t').has = false

/-- The threads are too few to carry out of their fields. -/
structure Few (base : UInt32) (r w : ℕ) : Prop where
  readers : base.toNat % 2 ^ 20 + r < 2 ^ 20
  writers : base.toNat / 2 ^ 20 + w < 2 ^ 12

variable {base : UInt32} {s : State r w}

theorem State.count_lt (few : Few base r w) (s : State r w) : base.toNat + s.count < 2 ^ 32 := by
  have hr := few.readers
  have hw := few.writers
  have hreaders := tally_le Reader.added s.reader
  have hwriters := tally_le Writer.added s.writer
  unfold State.count
  omega

/-- A word with no writer was added to by none. -/
theorem Inv.no_writer (h : Inv base s) (hclear : writers s.word = 0)
    (t : Fin w) : (s.writer t).added = false := by
  have hlt := (writers_eq_zero_iff _).mp hclear
  rw [h.word, State.count] at hlt
  have hzero : tally Writer.added s.writer = 0 := by omega
  exact (tally_eq_zero_iff ..).mp hzero t

theorem Inv.no_reader (h : Inv base s) (few : Few base r w) (hclear : readers s.word = 0)
    (t : Fin r) : (s.reader t).added = false := by
  have hmod := (readers_eq_zero_iff _).mp hclear
  have hr := few.readers
  have hle := tally_le Reader.added s.reader
  rw [h.word, State.count] at hmod
  have hzero : tally Reader.added s.reader = 0 := by omega
  exact (tally_eq_zero_iff ..).mp hzero t

/-! ## What a step keeps -/

/-- A word that moved with the count of the readers. -/
theorem Inv.setReader (h : Inv base s) (few : Few base r w) (t : Fin r) (word : UInt32)
    (p : Reader)
    (hword : word.toNat =
      (s.word.toNat + p.added.toNat + (2 ^ 32 - (s.reader t).added.toNat)) % 2 ^ 32)
    (hhas : p.has = true → (s.reader t).has = true ∨ ∀ t', (s.writer t').has = false) :
    Inv base (s.setReader t word p) where
  word := by
    have hlt := (s.setReader t word p).count_lt few
    have htally := tally_update Reader.added s.reader t p
    have hold := Bool.toNat_le (s.reader t).added
    have hbefore := h.word
    show word.toNat = base.toNat + (s.setReader t word p).count
    simp only [State.count, State.setReader] at hlt hbefore ⊢
    omega
  owner := h.owner
  alone := by
    intro writer reader hw
    show (Function.update s.reader t p reader).has = false
    by_cases heq : reader = t
    · subst heq
      rw [Function.update_self]
      by_contra hp
      rcases hhas (by simpa using hp) with hbefore | hnone
      · rw [h.alone writer reader hw] at hbefore
        exact absurd hbefore Bool.false_ne_true
      · exact absurd ((hnone writer).symm.trans hw) Bool.false_ne_true
    · rw [Function.update_of_ne heq]
      exact h.alone writer reader hw

/-- A word that moved with the count of the writers. -/
theorem Inv.setWriter (h : Inv base s) (few : Few base r w) (t : Fin w) (word : UInt32)
    (p : Writer)
    (hword : word.toNat = (s.word.toNat + 2 ^ 20 * p.added.toNat +
      (2 ^ 32 - 2 ^ 20 * (s.writer t).added.toNat)) % 2 ^ 32)
    (howns : p.owns = true → (s.writer t).owns = true ∨ ∀ t', (s.writer t').owns = false)
    (hhas : p.has = true → (s.writer t).has = true ∨ ∀ t', (s.reader t').has = false) :
    Inv base (s.setWriter t word p) where
  word := by
    have hlt := (s.setWriter t word p).count_lt few
    have htally := tally_update Writer.added s.writer t p
    have hold := Bool.toNat_le (s.writer t).added
    have hbefore := h.word
    show word.toNat = base.toNat + (s.setWriter t word p).count
    simp only [State.count, State.setWriter] at hlt hbefore ⊢
    omega
  owner := by
    -- the writer that moved owns only what it owned, or what nobody did
    have hmoved : ∀ t', (s.writer t').owns = true → p.owns = true → t' = t := by
      intro t' ht' hp
      rcases howns hp with hbefore | hnone
      · exact h.owner t t' hbefore ht'
      · rw [hnone t'] at ht'
        exact absurd ht' Bool.false_ne_true
    intro t₁ t₂ h₁ h₂
    simp only [State.setWriter, Function.update_apply] at h₁ h₂
    split at h₁ <;> split at h₂
    · rename_i heq₁ heq₂
      rw [heq₁, heq₂]
    · rename_i heq₁ _
      rw [heq₁, hmoved t₂ h₂ h₁]
    · rename_i _ heq₂
      rw [heq₂, hmoved t₁ h₁ h₂]
    · exact h.owner t₁ t₂ h₁ h₂
  alone := by
    intro writer reader hw
    show (s.reader reader).has = false
    simp only [State.setWriter, Function.update_apply] at hw
    split at hw
    · rcases hhas hw with hbefore | hnone
      · exact h.alone t reader hbefore
      · exact hnone reader
    · exact h.alone writer reader hw

/-- A reader's operation moves the word by what it is counted. -/
theorem readStep_word (word : UInt32) (p : Reader) :
    (readStep word p).1.toNat =
      (word.toNat + (readStep word p).2.added.toNat + (2 ^ 32 - p.added.toNat)) % 2 ^ 32 := by
  have hlt := word.toNat_lt
  cases p with
  | outside => simp only [readStep, Reader.added, Bool.toNat_false]; omega
  | holding => simp only [readStep, Reader.added, Bool.toNat_true]; omega
  | loading spins i =>
    simp only [readStep]
    split_ifs <;> simp only [Reader.added, Bool.toNat_false] <;> omega
  | adding spins i =>
    simp only [readStep, UInt32.toNat_add, UInt32.reduceToNat]
    split_ifs <;> simp only [Reader.added, Bool.toNat_false, Bool.toNat_true] <;> omega
  | undoing spins i =>
    simp only [readStep, UInt32.toNat_sub, UInt32.reduceToNat, Reader.added, Bool.toNat_false, Bool.toNat_true]
    omega
  | unlocking =>
    simp only [readStep, UInt32.toNat_sub, UInt32.reduceToNat, Reader.added, Bool.toNat_false, Bool.toNat_true]
    omega

theorem writeStep_word (word : UInt32) (p : Writer) :
    (writeStep word p).1.toNat = (word.toNat + 2 ^ 20 * (writeStep word p).2.added.toNat +
      (2 ^ 32 - 2 ^ 20 * p.added.toNat)) % 2 ^ 32 := by
  have hlt := word.toNat_lt
  cases p with
  | outside => simp only [writeStep, Writer.added, Bool.toNat_false]; omega
  | holding => simp only [writeStep, Writer.added, Bool.toNat_true]; omega
  | waiting =>
    simp only [writeStep]
    split_ifs <;> simp only [Writer.added, Bool.toNat_true] <;> omega
  | loading spins i =>
    simp only [writeStep]
    split_ifs <;> simp only [Writer.added, Bool.toNat_false] <;> omega
  | adding spins i =>
    simp only [writeStep, UInt32.toNat_add, UInt32.reduceToNat]
    split_ifs <;> simp only [Writer.added, Bool.toNat_false, Bool.toNat_true] <;> omega
  | undoing spins i =>
    simp only [writeStep, UInt32.toNat_sub, UInt32.reduceToNat, Writer.added, Bool.toNat_false, Bool.toNat_true]
    omega
  | unlocking =>
    simp only [writeStep, UInt32.toNat_sub, UInt32.reduceToNat, Writer.added, Bool.toNat_false, Bool.toNat_true]
    omega

/-- A reader is let in only by a word with no writer. -/
theorem readStep_has (word : UInt32) (p : Reader) (h : (readStep word p).2.has = true) :
    p.has = true ∨ writers word = 0 := by
  cases p with
  | outside | undoing _ _ | unlocking => exact absurd h Bool.false_ne_true
  | holding => exact .inl rfl
  | loading spins i =>
    simp only [readStep] at h
    split_ifs at h <;> exact absurd h Bool.false_ne_true
  | adding spins i =>
    right
    by_contra hbusy
    simp only [readStep, if_neg hbusy] at h
    exact absurd h Bool.false_ne_true

theorem writeStep_owns (word : UInt32) (p : Writer) (h : (writeStep word p).2.owns = true) :
    p.owns = true ∨ writers word = 0 := by
  cases p with
  | outside | undoing _ _ | unlocking => exact absurd h Bool.false_ne_true
  | holding | waiting => exact .inl rfl
  | loading spins i =>
    simp only [writeStep] at h
    split_ifs at h <;> exact absurd h Bool.false_ne_true
  | adding spins i =>
    right
    by_contra hbusy
    simp only [writeStep, if_neg hbusy] at h
    exact absurd h Bool.false_ne_true

/-- A writer comes out of its wait only at a word with no reader. -/
theorem writeStep_has (word : UInt32) (p : Writer) (h : (writeStep word p).2.has = true) :
    p.has = true ∨ readers word = 0 := by
  cases p with
  | outside | undoing _ _ | unlocking => exact absurd h Bool.false_ne_true
  | holding => exact .inl rfl
  | loading spins i | adding spins i =>
    simp only [writeStep] at h
    split_ifs at h <;> exact absurd h Bool.false_ne_true
  | waiting =>
    right
    by_contra hbusy
    simp only [writeStep, if_neg hbusy] at h
    exact absurd h Bool.false_ne_true

theorem Inv.readStep (h : Inv base s) (few : Few base r w) (t : Fin r) :
    Inv base (s.setReader t (RepositoryLock.readStep s.word (s.reader t)).1
      (RepositoryLock.readStep s.word (s.reader t)).2) := by
  apply h.setReader few t _ _ (readStep_word ..)
  intro hp
  refine (readStep_has _ _ hp).imp_right fun hclear t' => ?_
  have hnone := h.no_writer hclear t'
  by_contra hhas
  rw [Writer.added_of_owns _ (Writer.owns_of_has _ (by simpa using hhas))] at hnone
  exact absurd hnone.symm Bool.false_ne_true

theorem Inv.writeStep (h : Inv base s) (few : Few base r w) (t : Fin w) :
    Inv base (s.setWriter t (RepositoryLock.writeStep s.word (s.writer t)).1
      (RepositoryLock.writeStep s.word (s.writer t)).2) := by
  apply h.setWriter few t _ _ (writeStep_word ..)
  · intro hp
    refine (writeStep_owns _ _ hp).imp_right fun hclear t' => ?_
    have hnone := h.no_writer hclear t'
    by_contra howns
    rw [Writer.added_of_owns _ (by simpa using howns)] at hnone
    exact absurd hnone.symm Bool.false_ne_true
  · intro hp
    refine (writeStep_has _ _ hp).imp_right fun hclear t' => ?_
    have hnone := h.no_reader few hclear t'
    by_contra hhas
    rw [Reader.added_of_has _ (by simpa using hhas)] at hnone
    exact absurd hnone.symm Bool.false_ne_true

/-- A thread moves with no operation on the word. -/
theorem Inv.moveReader (h : Inv base s) (few : Few base r w) (t : Fin r) (p : Reader)
    (hadded : p.added = (s.reader t).added) (hhas : p.has = true → (s.reader t).has = true) :
    Inv base (s.setReader t s.word p) := by
  apply h.setReader few t _ _ _ fun hp => .inl (hhas hp)
  have hlt := s.word.toNat_lt
  have hle := Bool.toNat_le (s.reader t).added
  rw [hadded]
  omega

theorem Inv.moveWriter (h : Inv base s) (few : Few base r w) (t : Fin w) (p : Writer)
    (hadded : p.added = (s.writer t).added) (howns : p.owns = true → (s.writer t).owns = true)
    (hhas : p.has = true → (s.writer t).has = true) : Inv base (s.setWriter t s.word p) := by
  apply h.setWriter few t _ _ _ (fun hp => .inl (howns hp)) fun hp => .inl (hhas hp)
  have hlt := s.word.toNat_lt
  have hle := Bool.toNat_le (s.writer t).added
  rw [hadded]
  omega

theorem Inv.step (h : Inv base s) (few : Few base r w) {offset : UInt32} {a : Action r w}
    {s' : State r w} (hstep : RepositoryLock.step offset s a = some s') : Inv base s' := by
  cases a with
  | readLock t spins =>
    simp only [RepositoryLock.step, Option.ite_none_right_eq_some, Option.some.injEq] at hstep
    obtain ⟨hout, rfl⟩ := hstep
    split_ifs
    · exact h
    · exact h.moveReader few t _ (by rw [hout]; rfl) fun hp => absurd hp Bool.false_ne_true
  | readUnlock t =>
    simp only [RepositoryLock.step, Option.ite_none_right_eq_some, Option.some.injEq] at hstep
    obtain ⟨hhold, rfl⟩ := hstep
    exact h.moveReader few t _ (by rw [hhold]; rfl) fun _ => by rw [hhold]; rfl
  | read t =>
    simp only [RepositoryLock.step, Option.ite_none_left_eq_some, Option.some.injEq] at hstep
    obtain ⟨_, rfl⟩ := hstep
    exact h.readStep few t
  | writeLock t spins =>
    simp only [RepositoryLock.step, Option.ite_none_right_eq_some, Option.some.injEq] at hstep
    obtain ⟨hout, rfl⟩ := hstep
    split_ifs
    · exact h
    · exact h.moveWriter few t _ (by rw [hout]; rfl) (fun hp => absurd hp Bool.false_ne_true)
        fun hp => absurd hp Bool.false_ne_true
  | writeUnlock t =>
    simp only [RepositoryLock.step, Option.ite_none_right_eq_some, Option.some.injEq] at hstep
    obtain ⟨hhold, rfl⟩ := hstep
    exact h.moveWriter few t _ (by rw [hhold]; rfl) (fun _ => by rw [hhold]; rfl)
      fun _ => by rw [hhold]; rfl
  | write t =>
    simp only [RepositoryLock.step, Option.ite_none_left_eq_some, Option.some.injEq] at hstep
    obtain ⟨_, rfl⟩ := hstep
    exact h.writeStep few t

theorem inv_start (base : UInt32) : Inv base (.start base : State r w) where
  word := by
    have hreaders := (tally_eq_zero_iff Reader.added (State.start base : State r w).reader).mpr
      fun _ => rfl
    have hwriters := (tally_eq_zero_iff Writer.added (State.start base : State r w).writer).mpr
      fun _ => rfl
    rw [State.count, hreaders, hwriters]
    rfl
  owner := fun _ _ ht => absurd ht Bool.false_ne_true
  alone := fun _ _ _ => rfl

/-- With nobody inside, the word counts those who hold the lock. -/
theorem Inv.word_of_idle (h : Inv base s) (hidle : s.Idle) : s.word.toNat =
    base.toNat + tally Reader.has s.reader + 2 ^ 20 * tally Writer.has s.writer := by
  rw [h.word, State.count,
    tally_congr fun t => Reader.added_of_idle _ (hidle.1 t),
    tally_congr fun t => Writer.added_of_idle _ (hidle.2 t)]
  omega

/-! ## Every run -/

/-- In every interleaving a writer has the lock alone, and a word that nobody is working on is
the one of the start with those added who hold it. -/
theorem exclusive_of_run (offset base : UInt32) (few : Few base r w) {as : List (Action r w)}
    {s : State r w} (h : Run (step offset) (fun _ _ => True) (.start base) as s) :
    s.Exclusive ∧ (s.Idle → s.word.toNat =
      base.toNat + tally Reader.has s.reader + 2 ^ 20 * tally Writer.has s.writer) := by
  have hinv : Inv base s :=
    h.invariant (inv_start base) fun _ _ _ hi _ hstep => hi.step few hstep
  refine ⟨fun t ht => ⟨fun t' ht' => ?_, fun t' => hinv.alone t t' ht⟩, hinv.word_of_idle⟩
  exact hinv.owner t t' (Writer.owns_of_has _ ht) (Writer.owns_of_has _ ht')

/-- Any two numbers of threads below the two bounds, from a free lock. -/
theorem exclusive_of_run_demo : (∃ s : State 1 1,
    Run (step 64) (fun _ _ => True) (.start 0) [.writeLock 0 2000, .write 0, .write 0, .write 0]
      s ∧ (s.writer 0).has = true) ∧
    ∀ (as : List (Action 1 1)) (s : State 1 1),
      Run (step 64) (fun _ _ => True) (.start 0) as s → s.Exclusive := by
  constructor
  · obtain ⟨s, hrun, hs⟩ := Run.exists_of_follow (step 64) (fun _ _ => True)
      (.start 0 : State 1 1) [.writeLock 0 2000, .write 0, .write 0, .write 0]
      (fun s => (s.writer 0).has) (by decide)
    exact ⟨s, hrun, hs⟩
  · intro as s hrun
    have few : Few 0 1 1 := ⟨by decide, by decide⟩
    exact (exclusive_of_run 64 0 few hrun).1

/-- A reader that holds the lock is inside no function, and the word is not what it was. -/
theorem word_while_held : ∃ s : State 1 0,
    Run (step 64) (fun _ _ => True) (.start 0) [.readLock 0 2000, .read 0, .read 0] s ∧
      s.Idle ∧ s.word ≠ 0 := by
  obtain ⟨s, hrun, hs⟩ := Run.exists_of_follow (step 64) (fun _ _ => True)
    (.start 0 : State 1 0) [.readLock 0 2000, .read 0, .read 0]
    (fun s => decide (s.Idle ∧ s.word ≠ 0)) (by decide)
  exact ⟨s, hrun, of_decide_eq_true hs⟩

end RepositoryLock
end Bg3le
