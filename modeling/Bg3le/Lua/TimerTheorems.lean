import Mathlib.Data.Nat.Bitwise
import Mathlib.Data.Prod.Lex
import Bg3le.Lua.Timer

/-!
# Which timers an update starts

What an update has collected and not come to was due when it was collected, and stays so: nothing
but a pause moves the due time of such a timer, and resuming it makes it due at once. Where no
timer is left paused when the update comes to it, each start is of a timer that is due.
-/

namespace Bg3le
namespace Timer

variable {s s' : State} {t t' : Entry} {handle : ℕ} {now : ℚ} {rest : List (ℕ × ℚ)}

/-! ### Handles -/

/-- The handle of the `n`-th timer. -/
def numbered (n : ℕ) (realtime : Bool) : ℕ := if realtime then n ||| REALTIME_FLAG else n

/-- The realtime flag is bit 30. -/
theorem flagged_eq_testBit (handle : ℕ) : flagged handle = handle.testBit 30 := by
  show decide (handle &&& 2 ^ 30 ≠ 0) = handle.testBit 30
  rw [Nat.and_two_pow]
  cases handle.testBit 30 <;> simp

/-- The flag is added to a number below it. -/
theorem numbered_eq {n : ℕ} (h : n < 2 ^ 30) (realtime : Bool) :
    numbered n realtime = if realtime then n + 2 ^ 30 else n := by
  unfold numbered
  split
  · exact Nat.or_two_pow_eq_add_of_lt h
  · rfl

/-- A handle shows whether its timer is realtime. -/
theorem flagged_numbered {n : ℕ} (h : n < 2 ^ 30) (realtime : Bool) :
    flagged (numbered n realtime) = realtime := by
  rw [flagged_eq_testBit, numbered_eq h]
  cases realtime with
  | false => exact Nat.testBit_lt_two_pow h
  | true =>
    rw [if_pos rfl, Nat.add_comm, Nat.testBit_two_pow_add_eq, Nat.testBit_lt_two_pow h]
    rfl

/-- Handles differ by their numbers. -/
theorem numbered_inj {n m : ℕ} {a b : Bool} (hn : n < 2 ^ 30) (hm : m < 2 ^ 30)
    (h : numbered n a = numbered m b) : n = m := by
  rw [numbered_eq hn, numbered_eq hm] at h
  split at h <;> split at h <;> omega

/-! ### The order of an update -/

/-- What `before` compares. -/
def key (a : ℕ × ℚ) : Bool ×ₗ ℚ ×ₗ ℕ := toLex (!flagged a.1, toLex (a.2, a.1))

/-- The order of the collected timers is that of their keys. -/
theorem before_iff (a b : ℕ × ℚ) : before a b = true ↔ key a < key b := by
  unfold before key
  rw [Prod.Lex.toLex_lt_toLex, Prod.Lex.toLex_lt_toLex]
  cases flagged a.1 <;> cases flagged b.1 <;> by_cases h : a.2 = b.2 <;> simp [h]

theorem not_before_iff (a b : ℕ × ℚ) : ¬ before b a = true ↔ key a ≤ key b := by
  rw [before_iff, not_lt]

instance : Std.Total fun a b : ℕ × ℚ => ¬ before b a = true :=
  ⟨fun a b => by
    rw [not_before_iff, not_before_iff]
    exact le_total _ _⟩

instance : IsTrans (ℕ × ℚ) fun a b => ¬ before b a = true :=
  ⟨fun a b c hab hbc => by
    rw [not_before_iff] at *
    exact hab.trans hbc⟩

/-- One is of another timer, and comes first. -/
def Prior (a b : ℕ × ℚ) : Prop := before a b = true ∧ a.1 ≠ b.1

/-- What is not before comes after. -/
theorem prior_of_not_before {a b : ℕ × ℚ} (h : ¬ before b a = true) (hne : a.1 ≠ b.1) :
    Prior a b := by
  rw [not_before_iff] at h
  refine ⟨(before_iff a b).mpr (lt_of_le_of_ne h ?_), hne⟩
  intro hkey
  apply hne
  have hlex := congrArg (fun k => (ofLex (ofLex k).2).2) hkey
  exact hlex

/-- What is collected are the timers that are due and not paused. -/
theorem mem_collect {timers : Table} {e : ℕ × ℚ} : e ∈ collect timers now ↔
    ∃ t, timers.lookup e.1 = some t ∧ t.paused = false ∧ t.due ≤ now ∧ e.2 = t.due := by
  unfold collect
  rw [List.mem_insertionSort, List.mem_map]
  constructor
  · rintro ⟨⟨handle, t⟩, hmem, rfl⟩
    rw [List.mem_filter] at hmem
    simp only [Bool.and_eq_true, Bool.not_eq_true', decide_eq_true_eq] at hmem
    exact ⟨t, AList.mem_lookup_iff.mpr hmem.1, hmem.2.1, hmem.2.2, rfl⟩
  · rintro ⟨t, hlookup, hpaused, hdue, he⟩
    refine ⟨⟨e.1, t⟩, List.mem_filter.mpr ⟨AList.mem_lookup_iff.mp hlookup, ?_⟩, ?_⟩
    · simp [hpaused, hdue]
    · rw [← he]

/-- They are collected in order. -/
theorem collect_prior (timers : Table) (now : ℚ) : (collect timers now).Pairwise Prior := by
  have hsorted : (collect timers now).Pairwise fun a b => ¬ before b a = true :=
    List.pairwise_insertionSort _ _
  have hnodup : (collect timers now).Pairwise fun a b => a.1 ≠ b.1 := by
    unfold collect
    refine (List.Perm.pairwise_iff (fun h => h.symm) (List.perm_insertionSort _ _)).mpr ?_
    rw [List.pairwise_map]
    refine List.Pairwise.sublist List.filter_sublist ?_
    exact List.pairwise_map.mp timers.keys_nodup
  exact hsorted.imp₂ (fun _ _ => prior_of_not_before) hnodup

/-! ### Edits of the table -/

theorem timer_setTimer (s : State) (h : ℕ) (t : Entry) (h' : ℕ) :
    (s.setTimer h t).timer h' = if h' = h then some t else s.timer h' := by
  show (s.timers.insert h t).lookup h' = _
  split
  · rename_i heq
    rw [heq]
    exact AList.lookup_insert _
  · rename_i hne
    exact AList.lookup_insert_ne hne

theorem timer_removeTimer (s : State) (h h' : ℕ) :
    (s.removeTimer h).timer h' = if h' = h then none else s.timer h' := by
  show (s.timers.erase h).lookup h' = _
  split
  · rename_i heq
    rw [heq]
    exact AList.lookup_erase _ _
  · rename_i hne
    exact AList.lookup_erase_ne hne

/-! ### What every state keeps -/

/-- The timer that an event is about. -/
def Event.about : Event → ℕ
  | .started x => x.handle
  | .cancelled handle => handle

/-- What is known of a timer in the table: it was not cancelled, and if it was started before, it
is to repeat. -/
structure Fits (created : List (ℕ × Bool)) (log : List Event) (handle : ℕ) (t : Entry) : Prop where
  known : handle ∈ created.map Prod.fst
  kept : .cancelled handle ∉ log
  repeats : ∀ x, .started x ∈ log → x.handle = handle →
    x.timer.every ≠ none ∧ t.every = x.timer.every
  held : t.paused = true → ∃ remaining, t.remaining = some remaining

structure Core (s : State) : Prop where
  sound : Sound s
  numbered : ∀ e ∈ s.created, ∃ n < s.nextHandle, e.1 = numbered n e.2
  logged : ∀ e ∈ s.log, e.about ∈ s.created.map Prod.fst
  counted : ∀ x, .started x ∈ s.log → x.update ≤ s.updates
  fits : ∀ handle t, s.timer handle = some t → Fits s.created s.log handle t

/-- A collected timer: it is due, or was paused after it was due. -/
def Ready (now : ℚ) (t : Entry) : Prop :=
  if t.paused = true then t.remaining = some 0 else t.due ≤ now

/-- What is known of the timers that the update has not come to. -/
structure Waiting (s : State) (now : ℚ) (rest : List (ℕ × ℚ)) : Prop where
  clock : s.ms = now
  prior : rest.Pairwise Prior
  known : ∀ e ∈ rest, e.1 ∈ s.created.map Prod.fst
  ready : ∀ e ∈ rest, ∀ t, s.timer e.1 = some t → Ready now t
  apart : ∀ x, .started x ∈ s.log → x.update = s.updates → ∀ e ∈ rest, Prior (x.handle, x.due) e

structure Inv (s : State) : Prop where
  core : Core s
  waiting : ∀ u, s.update = some u → Waiting s u.now u.rest

/-- A change of the timers keeps the history right where the timers still fit it. -/
theorem Core.edit (h : Core s) (hlog : s'.log = s.log) (hcreated : s'.created = s.created)
    (hnext : s'.nextHandle = s.nextHandle) (hupdates : s.updates ≤ s'.updates)
    (hfits : ∀ handle t, s'.timer handle = some t → Fits s.created s.log handle t) : Core s' := by
  constructor
  · constructor
    · rw [hlog]
      exact h.sound.unpaused
    · rw [hlog]
      exact h.sound.due
    · rw [hlog]
      exact h.sound.order
    · rw [hcreated]
      exact h.sound.distinct
    · rw [hcreated]
      exact h.sound.realtime
  · rw [hcreated, hnext]
    exact h.numbered
  · rw [hlog, hcreated]
    exact h.logged
  · rw [hlog]
    exact fun x hx => (h.counted x hx).trans hupdates
  · rw [hlog, hcreated]
    exact hfits

/-- A timer that fits may be set. -/
theorem Core.setTimer (h : Core s) (hfits : Fits s.created s.log handle t) :
    Core (s.setTimer handle t) := by
  have hlog : (s.setTimer handle t).log = s.log := rfl
  apply h.edit hlog rfl rfl le_rfl
  intro handle' t' ht'
  rw [timer_setTimer] at ht'
  split at ht'
  · rename_i heq
    rw [heq, ← Option.some.inj ht']
    exact hfits
  · exact h.fits handle' t' ht'

/-- Any timer may be removed. -/
theorem Core.removeTimer (h : Core s) (handle : ℕ) : Core (s.removeTimer handle) := by
  have hlog : (s.removeTimer handle).log = s.log := rfl
  apply h.edit hlog rfl rfl le_rfl
  intro handle' t' ht'
  rw [timer_removeTimer] at ht'
  split at ht'
  · exact absurd ht' (by simp)
  · exact h.fits handle' t' ht'

/-- What waits for its turn stays ready where the timer that is set is. -/
theorem Waiting.setTimer (h : Waiting s now rest)
    (hready : handle ∈ rest.map Prod.fst → Ready now t) :
    Waiting (s.setTimer handle t) now rest := by
  refine ⟨h.clock, h.prior, h.known, fun e he t' ht' => ?_, h.apart⟩
  rw [timer_setTimer] at ht'
  split at ht'
  · rename_i heq
    rw [← Option.some.inj ht']
    exact hready (heq ▸ List.mem_map_of_mem he)
  · exact h.ready e he t' ht'

/-- A timer that goes away is passed over. -/
theorem Waiting.removeTimer (h : Waiting s now rest) (handle : ℕ) :
    Waiting (s.removeTimer handle) now rest := by
  refine ⟨h.clock, h.prior, h.known, fun e he t' ht' => ?_, h.apart⟩
  rw [timer_removeTimer] at ht'
  split at ht'
  · exact absurd ht' (by simp)
  · exact h.ready e he t' ht'

theorem Waiting.tail {e : ℕ × ℚ} (h : Waiting s now (e :: rest)) : Waiting s now rest :=
  ⟨h.clock, h.prior.of_cons, fun e' he' => h.known e' (List.mem_cons_of_mem _ he'),
    fun e' he' => h.ready e' (List.mem_cons_of_mem _ he'),
    fun x hx hupdate e' he' => h.apart x hx hupdate e' (List.mem_cons_of_mem _ he')⟩

/-! ### New timers -/

/-- A handle is given out once. -/
theorem Core.fresh (h : Core s) (hfew : s.nextHandle < 2 ^ 30) (realtime : Bool) :
    s.handle realtime ∉ s.created.map Prod.fst := by
  intro hmem
  obtain ⟨e, he, heq⟩ := List.mem_map.mp hmem
  obtain ⟨n, hn, hnum⟩ := h.numbered e he
  have hsame : n = s.nextHandle := numbered_inj (hn.trans hfew) hfew (hnum.symm.trans heq)
  omega

/-- A new timer fits the history. -/
theorem Core.addTimer (h : Core s) {ms repeatMs : Option ℚ} {realtime : Bool}
    (hfew : s.nextHandle < 2 ^ 30) : Core (addTimer s ms repeatMs realtime) := by
  -- below `2 ^ 30` timers the handle is new, so nothing is logged of it
  have hfresh := h.fresh hfew realtime
  have hgrow : ∀ handle, handle ∈ s.created.map Prod.fst →
      handle ∈ (s.created ++ [(s.handle realtime, realtime)]).map Prod.fst := by
    intro handle hmem
    rw [List.map_append]
    exact List.mem_append_left _ hmem
  constructor
  · refine ⟨h.sound.unpaused, h.sound.due, h.sound.order, ?_, fun e he => ?_⟩
    · show ((s.created ++ [(s.handle realtime, realtime)]).map Prod.fst).Nodup
      rw [List.map_append]
      refine List.nodup_append'.mpr ⟨h.sound.distinct, List.nodup_singleton _, ?_⟩
      exact List.disjoint_singleton.mpr hfresh
    · obtain he | he := List.mem_append.mp he
      · exact h.sound.realtime e he
      · rw [List.mem_singleton.mp he]
        exact flagged_numbered hfew realtime
  · intro e he
    obtain he | he := List.mem_append.mp he
    · obtain ⟨n, hn, hnum⟩ := h.numbered e he
      exact ⟨n, Nat.lt_succ_of_lt hn, hnum⟩
    · rw [List.mem_singleton.mp he]
      exact ⟨s.nextHandle, Nat.lt_succ_self _, rfl⟩
  · exact fun e he => hgrow _ (h.logged e he)
  · exact h.counted
  · intro handle t ht
    have ht : (s.setTimer (s.handle realtime) _).timer handle = some t := ht
    rw [timer_setTimer] at ht
    split at ht
    · rename_i heq
      refine ⟨by simp [heq, Timer.addTimer], fun hmem => ?_, fun x hx hx' => ?_, fun hpaused => ?_⟩
      · exact absurd (h.logged _ hmem) (heq ▸ hfresh)
      · have hknown : x.handle ∈ s.created.map Prod.fst := h.logged _ hx
        rw [hx', heq] at hknown
        exact absurd hknown hfresh
      · rw [← Option.some.inj ht] at hpaused
        exact absurd hpaused (by simp)
    · have hfits := h.fits handle t ht
      exact ⟨hgrow _ hfits.known, hfits.kept, hfits.repeats, hfits.held⟩

/-- A new timer waits for no turn. -/
theorem Inv.addTimer (h : Inv s) {ms repeatMs : Option ℚ} {realtime : Bool}
    (hfew : s.nextHandle < 2 ^ 30) : Inv (addTimer s ms repeatMs realtime) := by
  refine ⟨h.core.addTimer hfew, fun u hu => ?_⟩
  have hw := h.waiting u hu
  refine ⟨hw.clock, hw.prior, fun e he => ?_, fun e he t ht => ?_, hw.apart⟩
  · show e.1 ∈ (s.created ++ [(s.handle realtime, realtime)]).map Prod.fst
    rw [List.map_append]
    exact List.mem_append_left _ (hw.known e he)
  · have ht : (s.setTimer (s.handle realtime) _).timer e.1 = some t := ht
    rw [timer_setTimer, if_neg] at ht
    · exact hw.ready e he t ht
    · intro heq
      exact h.core.fresh hfew realtime (heq ▸ hw.known e he)

/-! ### Calls -/

/-- Another state of a timer that is in the table. -/
theorem Inv.setTimer (h : Inv s) (ht : s.timer handle = some t) (hevery : t'.every = t.every)
    (hheld : t'.paused = true → ∃ remaining, t'.remaining = some remaining)
    (hready : ∀ now, s.ms = now → Ready now t → Ready now t') :
    Inv (s.setTimer handle t') := by
  have hfits := h.core.fits handle t ht
  refine ⟨h.core.setTimer ⟨hfits.known, hfits.kept, ?_, hheld⟩, fun u hu => ?_⟩
  · rw [hevery]
    exact hfits.repeats
  · have hw := h.waiting u hu
    refine hw.setTimer fun hmem => hready u.now hw.clock ?_
    obtain ⟨e, he, heq⟩ := List.mem_map.mp hmem
    exact hw.ready e he t (heq ▸ ht)

/-- What is saved with a timer changes nothing of it. -/
theorem Inv.setPersistent (h : Inv s) (handle : ℕ) (persistent : Persistent) :
    Inv (s.setPersistent handle persistent) := by
  unfold State.setPersistent
  cases ht : s.timer handle with
  | none => exact h
  | some t =>
    have hfits := h.core.fits handle t ht
    exact h.setTimer ht rfl hfits.held fun now _ hready => hready

/-- A timer may be paused that waits for its turn. -/
theorem Inv.pause (h : Inv s) (handle : ℕ) : Inv (pause s handle) := by
  unfold Timer.pause
  cases ht : s.timer handle with
  | none => exact h
  | some t =>
    show Inv (if t.paused = true then s else _)
    split
    · exact h
    · rename_i hpaused
      refine h.setTimer ht rfl (fun _ => ⟨_, rfl⟩) fun now hclock hready => ?_
      unfold Ready at hready ⊢
      rw [if_neg hpaused] at hready
      rw [if_pos rfl, hclock]
      show some (max 0 (t.due - now)) = some 0
      rw [max_eq_left (sub_nonpos.mpr hready)]

/-- A resumed timer is due after the last update. -/
theorem Inv.resume (h : Inv s) (handle : ℕ) : Inv (resume s handle) := by
  unfold Timer.resume
  cases ht : s.timer handle with
  | none => exact h
  | some t =>
    show Inv (if t.paused = true then _ else s)
    split
    · rename_i hpaused
      refine h.setTimer ht rfl (fun hresumed => absurd hresumed (by simp)) ?_
      intro now hclock hready
      unfold Ready at hready ⊢
      rw [if_pos hpaused] at hready
      rw [if_neg (by simp), hclock, hready]
      show now + 0 ≤ now
      rw [add_zero]
    · exact h

/-- A cancelled timer is not started again. -/
theorem Inv.cancel (h : Inv s) (handle : ℕ) : Inv (cancel s handle) := by
  unfold Timer.cancel
  cases ht : s.timer handle with
  | none => exact h
  | some t =>
    have hcore := h.core.removeTimer handle
    have hknown := (h.core.fits handle t ht).known
    -- a cancellation adds no start, so what is said of the starts stays
    have hstarts : ∀ x, .started x ∈ s.log ++ [.cancelled handle] → .started x ∈ s.log :=
      fun x hx => by simpa using hx
    constructor
    · constructor
      · refine ⟨fun x hx => ?_, fun x hx => ?_, ?_, h.core.sound.distinct, h.core.sound.realtime⟩
        · exact h.core.sound.unpaused x (hstarts x hx)
        · exact h.core.sound.due x (hstarts x hx)
        · refine List.pairwise_append.mpr ⟨h.core.sound.order, List.pairwise_singleton _ _, ?_⟩
          intro e _ e' he'
          rw [List.mem_singleton.mp he']
          cases e <;> exact trivial
      · exact h.core.numbered
      · intro e he
        obtain he | he := List.mem_append.mp he
        · exact h.core.logged e he
        · rw [List.mem_singleton.mp he]
          exact hknown
      · exact fun x hx => h.core.counted x (hstarts x hx)
      · intro handle' t' ht'
        have ht' : (s.removeTimer handle).timer handle' = some t' := ht'
        have hfits := hcore.fits handle' t' ht'
        rw [timer_removeTimer] at ht'
        split at ht'
        · exact absurd ht' (by simp)
        · rename_i hne
          refine ⟨hfits.known, fun hmem => ?_, fun x hx => ?_, hfits.held⟩
          · obtain hmem | hmem := List.mem_append.mp hmem
            · exact hfits.kept hmem
            · exact hne (Event.cancelled.inj (List.mem_singleton.mp hmem))
          · exact hfits.repeats x (hstarts x hx)
    · intro u hu
      have hw := (h.waiting u hu).removeTimer handle
      refine ⟨hw.clock, hw.prior, hw.known, hw.ready, fun x hx => ?_⟩
      exact hw.apart x (hstarts x hx)

/-! ### Starts -/

/-- Timers that are collected in order start in order. -/
theorem start_before {x y : Start} (h : Prior (x.handle, x.due) (y.handle, y.due)) :
    x.Before y := by
  obtain ⟨hbefore, _⟩ := h
  unfold before at hbefore
  unfold Start.Before
  by_cases hflag : flagged x.handle = flagged y.handle
  · refine .inr ⟨hflag, ?_⟩
    simp only [hflag, ne_eq, not_true_eq_false, if_false] at hbefore
    split at hbefore
    · exact .inl (of_decide_eq_true hbefore)
    · rename_i hdue
      exact .inr ⟨not_not.mp hdue, of_decide_eq_true hbefore⟩
  · rw [if_pos hflag] at hbefore
    refine .inl ⟨hbefore, ?_⟩
    rw [hbefore] at hflag
    exact Bool.eq_false_iff.mpr fun heq => hflag heq.symm

/-- The start of a collected timer that is not paused. -/
theorem Core.start {due : ℚ} (h : Core s) (hw : Waiting s now ((handle, due) :: rest))
    (ht : s.timer handle = some t) (hpaused : t.paused = false) {timers : Table}
    (htimers : ∀ handle' t', timers.lookup handle' = some t' →
      (handle' = handle → t.every ≠ none ∧ t'.every = t.every ∧ t'.paused = false) ∧
      (handle' ≠ handle → s.timer handle' = some t')) :
    Inv { s with
      timers
      update := some { now, rest }
      log := s.log ++ [.started { handle, timer := t, update := s.updates, now, due }] } := by
  have hfits := h.fits handle t ht
  have hready := hw.ready _ List.mem_cons_self t ht
  unfold Ready at hready
  rw [if_neg (by simp [hpaused])] at hready
  have hstarts : ∀ x, .started x ∈
      s.log ++ [.started { handle, timer := t, update := s.updates, now, due }] →
      .started x ∈ s.log ∨ x = { handle, timer := t, update := s.updates, now, due } := by
    intro x hx
    obtain hx | hx := List.mem_append.mp hx
    · exact .inl hx
    · exact .inr (Event.started.inj (List.mem_singleton.mp hx))
  constructor
  · constructor
    · refine ⟨fun x hx => ?_, fun x hx => ?_, ?_, h.sound.distinct, h.sound.realtime⟩
      · obtain hx | rfl := hstarts x hx
        · exact h.sound.unpaused x hx
        · exact hpaused
      · obtain hx | rfl := hstarts x hx
        · exact h.sound.due x hx
        · exact hready
      -- only the new entry has to be put in order with those before it
      · refine List.pairwise_append.mpr ⟨h.sound.order, List.pairwise_singleton _ _, ?_⟩
        intro e he e' he'
        rw [List.mem_singleton.mp he']
        cases e with
        | cancelled handle' =>
          rintro rfl
          exact hfits.kept he
        | started x =>
          constructor
          · intro hsame
            refine ⟨fun hupdate => ?_, hfits.repeats x he hsame⟩
            exact (hw.apart x he hupdate _ List.mem_cons_self).2 hsame
          · intro hupdate
            exact start_before (hw.apart x he hupdate _ List.mem_cons_self)
    · exact h.numbered
    · intro e he
      obtain he | he := List.mem_append.mp he
      · exact h.logged e he
      · rw [List.mem_singleton.mp he]
        exact hfits.known
    · intro x hx
      obtain hx | rfl := hstarts x hx
      · exact h.counted x hx
      · exact le_rfl
    · intro handle' t' ht'
      obtain ⟨hsame, hother⟩ := htimers handle' t' ht'
      -- the timer itself repeats if it is still in the table; the others are as they were
      by_cases heq : handle' = handle
      · obtain ⟨hevery, hevery', hpaused'⟩ := hsame heq
        rw [heq]
        refine ⟨hfits.known, fun hmem => ?_, fun x hx hx' => ?_, fun hp => ?_⟩
        · exact hfits.kept (by simpa using hmem)
        · obtain hx | rfl := hstarts x hx
          · rw [hevery']
            exact hfits.repeats x hx hx'
          · exact ⟨hevery, hevery'⟩
        · exact absurd hp (by simp [hpaused'])
      · have hfits' := h.fits handle' t' (hother heq)
        refine ⟨hfits'.known, fun hmem => ?_, fun x hx hx' => ?_, hfits'.held⟩
        · exact hfits'.kept (by simpa using hmem)
        · obtain hx | rfl := hstarts x hx
          · exact hfits'.repeats x hx hx'
          · exact absurd hx'.symm heq
  · intro u hu
    obtain rfl := Option.some.inj hu
    obtain ⟨hhead, htail⟩ := List.pairwise_cons.mp hw.prior
    refine ⟨hw.clock, htail, hw.tail.known, fun e he t' ht' => ?_, fun x hx hupdate e he => ?_⟩
    · have hne : e.1 ≠ handle := (hhead e he).2.symm
      exact hw.tail.ready e he t' ((htimers e.1 t' ht').2 hne)
    · obtain hx | rfl := hstarts x hx
      · exact hw.tail.apart x hx hupdate e he
      · exact hhead e he

theorem Core.stop (h : Core s) : Inv { s with update := none } := by
  have hlog : State.log { s with update := none } = s.log := rfl
  exact ⟨h.edit hlog rfl rfl le_rfl h.fits, fun u hu => absurd hu (by simp)⟩

/-- The loop starts the next timer that is left, which is due, and stops for its callback. -/
theorem Core.runTimers (h : Core s) (hw : Waiting s now rest)
    (hup : ∀ t, s.upcoming rest = some t → t.paused = false) : Inv (runTimers s now rest) := by
  induction rest with
  | nil => exact h.stop
  | cons e rest ih =>
    unfold Timer.runTimers
    unfold State.upcoming at hup
    cases ht : s.timer e.1 with
    | none =>
      rw [ht] at hup
      exact ih hw.tail hup
    | some t =>
      rw [ht] at hup
      have hpaused := hup t rfl
      dsimp only
      cases hevery : t.every with
      | some every =>
        refine h.start hw ht hpaused fun handle' t' ht' => ?_
        have ht' : (s.setTimer e.1 _).timer handle' = some t' := ht'
        rw [timer_setTimer] at ht'
        split at ht'
        · rename_i heq
          refine ⟨fun _ => ?_, fun hne => absurd heq hne⟩
          rw [← Option.some.inj ht', hevery]
          exact ⟨by simp, hevery, hpaused⟩
        · rename_i hne
          exact ⟨fun heq => absurd heq hne, fun _ => ht'⟩
      | none =>
        refine h.start hw ht hpaused fun handle' t' ht' => ?_
        have ht' : (s.removeTimer e.1).timer handle' = some t' := ht'
        rw [timer_removeTimer] at ht'
        split at ht'
        · exact absurd ht' (by simp)
        · rename_i hne
          exact ⟨fun heq => absurd heq hne, fun _ => ht'⟩

/-- The loop leaves paused timers alone, but for one that it comes to. -/
theorem runTimers_timer (hup : ∀ t, s.upcoming rest = some t → t.paused = false)
    (ht : s.timer handle = some t) (hpaused : t.paused = true) :
    (runTimers s now rest).timer handle = some t := by
  induction rest with
  | nil => exact ht
  | cons e rest ih =>
    unfold runTimers
    unfold State.upcoming at hup
    cases hte : s.timer e.1 with
    | none =>
      rw [hte] at hup
      exact ih hup
    | some te =>
      rw [hte] at hup
      have hne : handle ≠ e.1 := by
        intro heq
        rw [heq, hte] at ht
        rw [← Option.some.inj ht, hup te rfl] at hpaused
        exact absurd hpaused (by simp)
      dsimp only
      cases te.every with
      | some every =>
        show (s.setTimer e.1 _).timer handle = some t
        rw [timer_setTimer, if_neg hne]
        exact ht
      | none =>
        show (s.removeTimer e.1).timer handle = some t
        rw [timer_removeTimer, if_neg hne]
        exact ht

/-- The next timer is one of the collected ones. -/
theorem upcoming_mem (h : s.upcoming rest = some t) : ∃ e ∈ rest, s.timer e.1 = some t := by
  induction rest with
  | nil => exact absurd h (by simp [State.upcoming])
  | cons e rest ih =>
    unfold State.upcoming at h
    cases hte : s.timer e.1 with
    | none =>
      rw [hte] at h
      obtain ⟨e', he', ht'⟩ := ih h
      exact ⟨e', List.mem_cons_of_mem _ he', ht'⟩
    | some te =>
      rw [hte] at h
      exact ⟨e, List.mem_cons_self, hte.trans h⟩

/-- A state as an update collects the timers that are due. -/
def State.tick (s : State) (time : ℚ) (ticks : ℕ) : State :=
  { s with time := some (time, ticks), ms := time * 1000, updates := s.updates + 1 }

/-- What was just collected is not paused. -/
theorem upcoming_collect {time : ℚ} {ticks : ℕ}
    (h : (s.tick time ticks).upcoming (collect s.timers (time * 1000)) = some t) :
    t.paused = false := by
  obtain ⟨e, he, ht⟩ := upcoming_mem h
  obtain ⟨t', ht', hpaused, _⟩ := mem_collect.mp he
  have hsame : some t' = some t := ht'.symm.trans ht
  rw [← Option.some.inj hsame]
  exact hpaused

theorem Core.tick (h : Core s) (time : ℚ) (ticks : ℕ) : Core (s.tick time ticks) := by
  have hlog : (s.tick time ticks).log = s.log := rfl
  exact h.edit hlog rfl rfl (Nat.le_succ _) h.fits

/-- What was just collected is due. -/
theorem Core.waiting_collect (h : Core s) (time : ℚ) (ticks : ℕ) :
    Waiting (s.tick time ticks) (time * 1000) (collect s.timers (time * 1000)) := by
  refine ⟨rfl, collect_prior _ _, fun e he => ?_, fun e he t ht => ?_, fun x hx hupdate => ?_⟩
  · obtain ⟨t, ht, _⟩ := mem_collect.mp he
    exact (h.fits e.1 t ht).known
  · obtain ⟨t', ht', hpaused, hdue, _⟩ := mem_collect.mp he
    have hsame : some t' = some t := ht'.symm.trans ht
    rw [← Option.some.inj hsame]
    unfold Ready
    rw [if_neg (by simp [hpaused])]
    exact hdue
  · have hcounted := h.counted x hx
    have hupdate : x.update = s.updates + 1 := hupdate
    omega

/-- An update starts its first timer. -/
theorem Inv.beginUpdate (h : Inv s) (time : ℚ) (ticks : ℕ) : Inv (beginUpdate s time ticks) := by
  unfold Timer.beginUpdate
  split
  · exact h
  · exact (h.core.tick time ticks).runTimers (h.core.waiting_collect time ticks)
      fun t => upcoming_collect

/-- An update leaves a paused timer. -/
theorem beginUpdate_timer (time : ℚ) (ticks : ℕ) (ht : s.timer handle = some t)
    (hpaused : t.paused = true) : (beginUpdate s time ticks).timer handle = some t := by
  unfold beginUpdate
  split
  · exact ht
  · have ht : (s.tick time ticks).timer handle = some t := ht
    exact runTimers_timer (fun t => upcoming_collect) ht hpaused

/-! ### Runs -/

theorem runTimers_nextHandle : (runTimers s now rest).nextHandle = s.nextHandle := by
  induction rest with
  | nil => rfl
  | cons e rest ih =>
    unfold runTimers
    cases s.timer e.1 with
    | none => exact ih
    | some t =>
      dsimp only
      cases t.every <;> rfl

theorem setPersistent_nextHandle (s : State) (handle : ℕ) (persistent : Persistent) :
    (s.setPersistent handle persistent).nextHandle = s.nextHandle := by
  unfold State.setPersistent
  cases s.timer handle <;> rfl

/-- Timers get the handles in order. -/
theorem step_nextHandle {a : Action} (h : step s a = some s') : s.nextHandle ≤ s'.nextHandle := by
  cases a with
  | waitFor ms repeatMs =>
    obtain rfl := Option.some.inj h
    exact Nat.le_succ _
  | waitForRealtime ms repeatMs =>
    obtain rfl := Option.some.inj h
    exact Nat.le_succ _
  | waitForPersistent ms repeatMs persistent =>
    obtain rfl := Option.some.inj h
    unfold waitForPersistent
    rw [setPersistent_nextHandle]
    exact Nat.le_succ _
  | cancel handle =>
    obtain rfl := Option.some.inj h
    unfold cancel
    cases s.timer handle <;> exact le_rfl
  | pause handle =>
    obtain rfl := Option.some.inj h
    unfold pause
    cases s.timer handle with
    | none => exact le_rfl
    | some t =>
      dsimp only
      split <;> exact le_rfl
  | resume handle =>
    obtain rfl := Option.some.inj h
    unfold resume
    cases s.timer handle with
    | none => exact le_rfl
    | some t =>
      dsimp only
      split <;> exact le_rfl
  | update time ticks =>
    unfold step at h
    cases hu : s.update with
    | some u =>
      rw [hu] at h
      exact absurd h (by simp)
    | none =>
      rw [hu] at h
      obtain rfl := Option.some.inj h
      unfold beginUpdate
      split
      · exact le_rfl
      -- a tick of the clocks gives out no handle
      · have hkept : (s.tick time ticks).nextHandle = s.nextHandle := rfl
        rw [← hkept]
        exact (runTimers_nextHandle).ge
  | returns =>
    obtain ⟨u, _, rfl⟩ := Option.map_eq_some_iff.mp h
    exact (runTimers_nextHandle).ge
  | raises =>
    obtain ⟨u, _, rfl⟩ := Option.map_eq_some_iff.mp h
    exact le_rfl

/-! ### Where timers come from -/

/-- A timer of `s'` is one of `s`, or has the next handle of `s`; one that repeats does so after
some time. -/
def Stems (s s' : State) : Prop :=
  ∀ handle t', s'.timer handle = some t' →
    (∃ t, s.timer handle = some t ∧ t'.every = t.every) ∨
      s.nextHandle < s'.nextHandle ∧ (∃ realtime, handle = s.handle realtime) ∧
        ∀ every, t'.every = some every → 0 < every

theorem Stems.refl (s : State) : Stems s s := fun _ t ht => .inl ⟨t, ht, rfl⟩

/-- A timer that is set is the one before, with its interval. -/
theorem stems_setTimer (ht : s.timer handle = some t) (hevery : t'.every = t.every) :
    Stems s (s.setTimer handle t') := by
  intro handle' t'' ht''
  rw [timer_setTimer] at ht''
  split at ht''
  · rename_i heq
    rw [heq, ← Option.some.inj ht'']
    exact .inl ⟨t, ht, hevery⟩
  · exact .inl ⟨t'', ht'', rfl⟩

theorem stems_removeTimer (s : State) (handle : ℕ) : Stems s (s.removeTimer handle) := by
  intro handle' t' ht'
  rw [timer_removeTimer] at ht'
  split at ht'
  · exact absurd ht' (by simp)
  · exact .inl ⟨t', ht', rfl⟩

theorem stems_addTimer (s : State) (ms repeatMs : Option ℚ) (realtime : Bool) :
    Stems s (addTimer s ms repeatMs realtime) := by
  intro handle t' ht'
  have ht' : (s.setTimer (s.handle realtime) _).timer handle = some t' := ht'
  rw [timer_setTimer] at ht'
  split at ht'
  · rename_i heq
    refine .inr ⟨Nat.lt_succ_self _, ⟨realtime, heq⟩, fun every hevery => ?_⟩
    rw [← Option.some.inj ht'] at hevery
    have hpos := (Option.filter_eq_some_iff.mp hevery).2
    simpa using hpos
  · exact .inl ⟨t', ht', rfl⟩

theorem stems_setPersistent (s : State) (handle : ℕ) (persistent : Persistent) :
    Stems s (s.setPersistent handle persistent) := by
  unfold State.setPersistent
  cases ht : s.timer handle with
  | none => exact Stems.refl s
  | some t => exact stems_setTimer ht rfl

/-- A step that keeps the next handle, after one that may not. -/
theorem Stems.trans {s'' : State} (h : Stems s s') (h' : Stems s' s'')
    (hnext : s''.nextHandle = s'.nextHandle) : Stems s s'' := by
  intro handle t'' ht''
  obtain ⟨t', ht', hevery⟩ | ⟨hlt, _⟩ := h' handle t'' ht''
  · obtain ⟨t, ht, hevery'⟩ | ⟨hlt, hhandle, hpos⟩ := h handle t' ht'
    · exact .inl ⟨t, ht, hevery.trans hevery'⟩
    · rw [hnext, hevery]
      exact .inr ⟨hlt, hhandle, hpos⟩
  · omega

/-- The loop gives no timer another interval. -/
theorem stems_runTimers : Stems s (runTimers s now rest) := by
  induction rest with
  | nil => exact Stems.refl s
  | cons e rest ih =>
    unfold runTimers
    cases ht : s.timer e.1 with
    | none => exact ih
    | some t =>
      dsimp only
      cases t.every with
      | some every =>
        have hstems : Stems s (s.setTimer e.1 (t.advance every now)) := stems_setTimer ht rfl
        exact hstems
      | none =>
        have hstems := stems_removeTimer s e.1
        exact hstems

/-- No step does. -/
theorem stems_step {a : Action} (h : step s a = some s') : Stems s s' := by
  cases a with
  | waitFor ms repeatMs =>
    obtain rfl := Option.some.inj h
    exact stems_addTimer s ms repeatMs false
  | waitForRealtime ms repeatMs =>
    obtain rfl := Option.some.inj h
    exact stems_addTimer s ms repeatMs true
  | waitForPersistent ms repeatMs persistent =>
    obtain rfl := Option.some.inj h
    -- a persistent timer is a timer that is marked afterwards
    exact (stems_addTimer s ms repeatMs false).trans (stems_setPersistent _ _ _)
      (setPersistent_nextHandle _ _ _)
  | cancel handle =>
    obtain rfl := Option.some.inj h
    unfold cancel
    cases s.timer handle with
    | none => exact Stems.refl s
    | some t => exact stems_removeTimer s handle
  | pause handle =>
    obtain rfl := Option.some.inj h
    unfold pause
    cases ht : s.timer handle with
    | none => exact Stems.refl s
    | some t =>
      dsimp only
      split
      · exact Stems.refl s
      · exact stems_setTimer ht rfl
  | resume handle =>
    obtain rfl := Option.some.inj h
    unfold resume
    cases ht : s.timer handle with
    | none => exact Stems.refl s
    | some t =>
      dsimp only
      split
      · exact stems_setTimer ht rfl
      · exact Stems.refl s
  | update time ticks =>
    unfold step at h
    cases hu : s.update with
    | some u =>
      rw [hu] at h
      exact absurd h (by simp)
    | none =>
      rw [hu] at h
      obtain rfl := Option.some.inj h
      unfold beginUpdate
      split
      · exact Stems.refl s
      -- the clocks of the state are no part of a timer
      · have hstems : Stems (s.tick time ticks)
            (runTimers (s.tick time ticks) (time * 1000) (collect s.timers (time * 1000))) :=
          stems_runTimers
        exact hstems
  | returns =>
    obtain ⟨u, _, rfl⟩ := Option.map_eq_some_iff.mp h
    exact stems_runTimers
  | raises =>
    obtain ⟨u, _, rfl⟩ := Option.map_eq_some_iff.mp h
    exact Stems.refl s

/-! ### Steps -/

/-- Every step that comes to no paused timer keeps the history right. -/
theorem Inv.step {a : Action} (h : Inv s) (hunpaused : Unpaused s a)
    (hstep : step s a = some s') (hfew : s'.nextHandle ≤ 2 ^ 30) : Inv s' := by
  cases a with
  | waitFor ms repeatMs =>
    obtain rfl := Option.some.inj hstep
    exact h.addTimer hfew
  | waitForRealtime ms repeatMs =>
    obtain rfl := Option.some.inj hstep
    exact h.addTimer hfew
  | waitForPersistent ms repeatMs persistent =>
    obtain rfl := Option.some.inj hstep
    unfold waitForPersistent at hfew
    rw [setPersistent_nextHandle] at hfew
    exact (h.addTimer hfew).setPersistent _ _
  | cancel handle =>
    obtain rfl := Option.some.inj hstep
    exact h.cancel handle
  | pause handle =>
    obtain rfl := Option.some.inj hstep
    exact h.pause handle
  | resume handle =>
    obtain rfl := Option.some.inj hstep
    exact h.resume handle
  | update time ticks =>
    unfold Timer.step at hstep
    cases hu : s.update with
    | some u =>
      rw [hu] at hstep
      exact absurd hstep (by simp)
    | none =>
      rw [hu] at hstep
      obtain rfl := Option.some.inj hstep
      exact h.beginUpdate time ticks
  -- the handler has returned, and by `hunpaused` no timer that follows is paused
  | returns =>
    obtain ⟨u, hu, rfl⟩ := Option.map_eq_some_iff.mp hstep
    exact h.core.runTimers (h.waiting u hu) fun t => hunpaused u hu t
  | raises =>
    obtain ⟨u, hu, rfl⟩ := Option.map_eq_some_iff.mp hstep
    exact h.core.stop

theorem setPersistent_timer {h : ℕ} {persistent : Persistent} (hne : handle ≠ h) :
    (s.setPersistent h persistent).timer handle = s.timer handle := by
  unfold State.setPersistent
  cases s.timer h with
  | none => rfl
  | some t =>
    dsimp only
    rw [timer_setTimer, if_neg hne]

/-- A new timer leaves the others alone. -/
theorem Inv.addTimer_timer (h : Inv s) {ms repeatMs : Option ℚ} {realtime : Bool}
    (hfew : s.nextHandle < 2 ^ 30) (ht : s.timer handle = some t) :
    handle ≠ s.handle realtime ∧ (Timer.addTimer s ms repeatMs realtime).timer handle = some t := by
  have hne : handle ≠ s.handle realtime := by
    intro heq
    exact h.core.fresh hfew realtime (heq ▸ (h.core.fits handle t ht).known)
  refine ⟨hne, ?_⟩
  show (s.setTimer (s.handle realtime) _).timer handle = some t
  rw [timer_setTimer, if_neg hne]
  exact ht

/-- No step but a cancel or a resume changes a timer that is paused. -/
theorem Inv.stays {a : Action} (h : Inv s) (hunpaused : Unpaused s a)
    (hstep : Timer.step s a = some s') (hfew : s'.nextHandle ≤ 2 ^ 30)
    (ht : s.timer handle = some t) (hpaused : t.paused = true) (hcancel : a ≠ .cancel handle)
    (hresume : a ≠ .resume handle) : s'.timer handle = some t := by
  cases a with
  | waitFor ms repeatMs =>
    obtain rfl := Option.some.inj hstep
    exact (h.addTimer_timer hfew ht).2
  | waitForRealtime ms repeatMs =>
    obtain rfl := Option.some.inj hstep
    exact (h.addTimer_timer hfew ht).2
  | waitForPersistent ms repeatMs persistent =>
    obtain rfl := Option.some.inj hstep
    unfold waitForPersistent at hfew ⊢
    rw [setPersistent_nextHandle] at hfew
    obtain ⟨hne, hsame⟩ := h.addTimer_timer hfew ht
    rw [setPersistent_timer hne]
    exact hsame
  | cancel handle' =>
    obtain rfl := Option.some.inj hstep
    -- another timer goes, which leaves this one
    have hne : handle ≠ handle' := fun heq => hcancel (by rw [heq])
    unfold Timer.cancel
    cases s.timer handle' with
    | none => exact ht
    | some t' =>
      show (s.removeTimer handle').timer handle = some t
      rw [timer_removeTimer, if_neg hne]
      exact ht
  | pause handle' =>
    obtain rfl := Option.some.inj hstep
    unfold Timer.pause
    cases ht' : s.timer handle' with
    | none => exact ht
    | some t' =>
      dsimp only
      split
      · exact ht
      · rename_i hrunning
        rw [timer_setTimer, if_neg]
        · exact ht
        · intro heq
          rw [heq, ht'] at ht
          -- a timer that is paused is not paused once more
          exact hrunning (Option.some.inj ht ▸ hpaused)
  | resume handle' =>
    obtain rfl := Option.some.inj hstep
    have hne : handle ≠ handle' := fun heq => hresume (by rw [heq])
    unfold Timer.resume
    cases s.timer handle' with
    | none => exact ht
    | some t' =>
      dsimp only
      split
      · rw [timer_setTimer, if_neg hne]
        exact ht
      · exact ht
  | update time ticks =>
    unfold Timer.step at hstep
    cases hu : s.update with
    | some u =>
      rw [hu] at hstep
      exact absurd hstep (by simp)
    | none =>
      rw [hu] at hstep
      obtain rfl := Option.some.inj hstep
      exact beginUpdate_timer time ticks ht hpaused
  | returns =>
    obtain ⟨u, hu, rfl⟩ := Option.map_eq_some_iff.mp hstep
    -- the rest of the round passes over a paused timer
    exact runTimers_timer (fun t => hunpaused u hu t) ht hpaused
  | raises =>
    obtain ⟨u, hu, rfl⟩ := Option.map_eq_some_iff.mp hstep
    exact ht

/-- Such a step keeps what remains of paused timers. -/
theorem Inv.keeps {a : Action} (h : Inv s) (hunpaused : Unpaused s a)
    (hstep : Timer.step s a = some s') (hfew : s'.nextHandle ≤ 2 ^ 30) : Keeps s a s' := by
  constructor
  · rintro handle t rfl ht hpaused
    obtain rfl := Option.some.inj hstep
    unfold Timer.pause
    rw [ht]
    dsimp only
    rw [if_neg (by simp [hpaused]), timer_setTimer, if_pos rfl]
  · rintro handle t rfl ht hpaused
    obtain rfl := Option.some.inj hstep
    obtain ⟨remaining, hremaining⟩ := (h.core.fits handle t ht).held hpaused
    refine ⟨remaining, hremaining, ?_⟩
    unfold Timer.resume
    rw [ht]
    dsimp only
    rw [if_pos hpaused, timer_setTimer, if_pos rfl, hremaining]
    rfl
  · intro handle t ht hpaused hcancel hresume
    exact h.stays hunpaused hstep hfew ht hpaused hcancel hresume

/-- The timer that comes next is started. -/
theorem started_upcoming (h : s.upcoming rest = some t) :
    ∃ x, .started x ∈ (runTimers s now rest).log ∧ x.timer = t := by
  induction rest with
  | nil => exact absurd h (by simp [State.upcoming])
  | cons e rest ih =>
    unfold State.upcoming at h
    unfold runTimers
    cases hte : s.timer e.1 with
    | none =>
      rw [hte] at h
      exact ih h
    | some te =>
      rw [hte] at h
      obtain rfl : te = t := Option.some.inj h
      exact ⟨_, List.mem_append_right _ List.mem_cons_self, rfl⟩

/-- So if it is paused, the history is wrong afterwards. -/
theorem unpaused_of_sound {a : Action} (hstep : step s a = some s') (h : Sound s') :
    Unpaused s a := by
  cases a with
  | returns =>
    intro u hu t hup
    obtain ⟨u', hu', rfl⟩ := Option.map_eq_some_iff.mp hstep
    obtain rfl : u = u' := Option.some.inj (hu.symm.trans hu')
    obtain ⟨x, hx, rfl⟩ := started_upcoming hup
    exact h.unpaused x hx
  | _ => exact trivial

theorem Inv.start : Inv {} := by
  have hempty : ∀ handle, State.timer {} handle = none := fun _ => rfl
  refine ⟨⟨⟨?_, ?_, List.Pairwise.nil, List.nodup_nil, ?_⟩, ?_, ?_, ?_, ?_⟩, ?_⟩
  · exact fun x hx => absurd hx List.not_mem_nil
  · exact fun x hx => absurd hx List.not_mem_nil
  · exact fun e he => absurd he List.not_mem_nil
  · exact fun e he => absurd he List.not_mem_nil
  · exact fun e he => absurd he List.not_mem_nil
  · exact fun x hx => absurd hx List.not_mem_nil
  · exact fun handle t ht => absurd ((hempty handle).symm.trans ht) (by simp)
  · exact fun u hu => absurd hu (by simp)

/-- Along every run that comes to no paused timer the history is right. -/
theorem Inv.of_run {as : List Action} (h : Run Timer.step Unpaused {} as s)
    (hfew : s.nextHandle ≤ 2 ^ 30) : Inv s := by
  apply h.invariant (I := fun s => s.nextHandle ≤ 2 ^ 30 → Inv s) _ _ hfew
  · exact fun _ => Inv.start
  · intro t a u hinv hunpaused hstep hfew
    exact (hinv ((step_nextHandle hstep).trans hfew)).step hunpaused hstep hfew

/-- In every run of fewer than `2 ^ 30` timers in which no update comes to a timer that a callback
left paused, each start is due, allowed by all that came before it, and in order, and paused
timers keep what remains of them; and a step that comes to a paused timer starts it. -/
theorem starts_of_run {as : List Action} (h : Run step Unpaused {} as s)
    (hfew : s.nextHandle ≤ 2 ^ 30) : Sound s ∧
      ∀ a s', step s a = some s' → s'.nextHandle ≤ 2 ^ 30 →
        (Sound s' ∧ Keeps s a s' ↔ Unpaused s a) := by
  have hinv := Inv.of_run h hfew
  refine ⟨hinv.core.sound, fun a s' hstep hfew' => ⟨fun hs => ?_, fun hunpaused => ⟨?_, ?_⟩⟩⟩
  · exact unpaused_of_sound hstep hs.1
  · exact (hinv.step hunpaused hstep hfew').core.sound
  · exact hinv.keeps hunpaused hstep hfew'

/-- A callback cancels one timer that is due, pauses another, resumes it and adds a further one. -/
def demoActions : List Action :=
  [.waitFor (some 10) none, .waitForRealtime (some 20) (some 20), .waitFor (some 30) none,
    .update 1 1, .cancel 1, .pause 3, .resume 3, .waitFor (some 5) none, .returns, .returns,
    .update 2 2, .returns, .returns]

/-- The callback that runs first is of a realtime timer, which the next update starts again. -/
theorem starts_of_run_demo : ∃ s, Run step Unpaused {} demoActions s ∧ s.log.length = 5 ∧
    (Sound s ∧ ∀ a s', step s a = some s' → s'.nextHandle ≤ 2 ^ 30 →
      (Sound s' ∧ Keeps s a s' ↔ Unpaused s a)) := by
  obtain ⟨s, hrun, hfew⟩ : ∃ s, Run step Unpaused {} demoActions s ∧
      decide (s.log.length = 5 ∧ s.nextHandle ≤ 2 ^ 30) = true :=
    Run.exists_of_follow _ _ _ _ _ (by decide +kernel)
  obtain ⟨hlength, hfew⟩ := of_decide_eq_true hfew
  exact ⟨s, hrun, hlength, starts_of_run hrun hfew⟩

/-- The first of two timers pauses the second, which the update starts nevertheless. -/
theorem paused_timer_starts : ¬ ∀ (as : List Action) (s : State), Run step Timely {} as s →
    s.nextHandle ≤ 2 ^ 30 → Sound s ∧ ∀ a s', step s a = some s' → Timely s a →
      s'.nextHandle ≤ 2 ^ 30 → Keeps s a s' := by
  intro h
  obtain ⟨s, hrun, hpaused⟩ : ∃ s, Run step Timely {}
      [.waitFor (some 10) none, .waitFor (some 20) none, .update 1 1, .pause 2, .returns] s ∧
      (decide (s.nextHandle ≤ 2 ^ 30) && s.log.any fun
        | .started x => x.timer.paused
        | .cancelled _ => false) = true :=
    Run.exists_of_follow _ _ _ _ _ (by decide +kernel)
  simp only [Bool.and_eq_true, decide_eq_true_eq] at hpaused
  obtain ⟨e, he, hpaused'⟩ := List.any_eq_true.mp hpaused.2
  cases e with
  | started x =>
    have hsound := (h _ s hrun hpaused.1).1
    exact absurd hpaused' (by simp [hsound.unpaused x he])
  | cancelled _ => exact absurd hpaused' (by simp)

end Timer
end Bg3le
