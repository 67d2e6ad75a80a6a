import Bg3le.Lua.Extras
import Bg3le.Lua.TimerTheorems
import Bg3le.Net.VarsTheorems
import Bg3le.Savegame.SerializerTheorems

/-!
# What a save brings back

A row that is collected from a value that survives, through the C structure and back, restores
that value; the rows are of different variables, so each is the last word on its own. Restored
timers get fresh handles and leave the others alone.
-/

namespace Bg3le
namespace Extras

open Lua Vars Savegame

variable {vm : Vm} {c : Vars.Context} {s s' : Timer.State} {value : Value} {v w : Var}

/-! ### Values -/

/-- The row that a value is saved in. -/
def rowOf (v : Var) (saved : ℕ × Value) : Row :=
  { owner := v.owner, name := v.key, kind := saved.1, v := saved.2 }

/-- The kinds that a save is written with, each with its type of value. -/
def Tagged (saved : ℕ × Value) : Prop :=
  saved.1 = 5 ∧ (∃ b, saved.2 = .boolean b) ∨ saved.1 = 1 ∧ (∃ i, saved.2 = .integer i) ∨
    saved.1 = 2 ∧ (∃ bits, saved.2 = .number bits) ∨
    (saved.1 = 3 ∨ saved.1 = 4) ∧ ∃ text, saved.2 = .string text

theorem truthy_boolean (b : Bool) : (Value.boolean b).truthy = b := by
  cases b <;> rfl

/-- A row goes through the C structure and comes back. -/
theorem pushSavedVariable_saved {saved : ℕ × Value} (h : Tagged saved) (howner : 0 ∉ v.owner)
    (hkey : 0 ∉ v.key) : pushSavedVariable (savedVariable vm (rowOf v saved)) = rowOf v saved := by
  have howner' := cStr_eq_self howner
  have hkey' := cStr_eq_self hkey
  obtain ⟨kind, x⟩ := saved
  obtain ⟨rfl, b, rfl⟩ | ⟨rfl, i, rfl⟩ | ⟨rfl, bits, rfl⟩ | ⟨rfl | rfl, text, rfl⟩ := h
  all_goals
    simp [pushSavedVariable, savedVariable, rowOf, howner', hkey', truthy_boolean, toInteger,
      toNumber, toLString]

/-- A value that survives is saved, and the row restores it. -/
theorem restoredValue_saved (h : Survives vm value) :
    ∃ saved, savedValue vm value = some (some saved) ∧ Tagged saved ∧
      restoredValue vm saved.1 saved.2 = some value := by
  cases value with
  | boolean b => exact ⟨_, rfl, .inl ⟨rfl, b, rfl⟩, rfl⟩
  | integer i => exact ⟨_, rfl, .inr (.inl ⟨rfl, i, rfl⟩), rfl⟩
  | number bits => exact ⟨_, rfl, .inr (.inr (.inl ⟨rfl, bits, rfl⟩)), rfl⟩
  | string text => exact ⟨_, rfl, .inr (.inr (.inr ⟨.inl rfl, text, rfl⟩)), rfl⟩
  | table entries =>
    obtain ⟨text, hstringify, hparse⟩ := h
    refine ⟨(4, .string text), ?_, .inr (.inr (.inr ⟨.inr rfl, text, rfl⟩)), hparse⟩
    show (vm.stringify _).map _ = _
    rw [hstringify]
    rfl
  | nil => exact absurd h id
  | other id => exact absurd h fun h => h

/-! ### Variables -/

/-- The persistent variables of a payload, of mods or of users. -/
def chosenOf (c : Vars.Context) (mod : Bool) (entries : Payload) : Payload :=
  entries.filter fun e => decide (e.1.mod = mod ∧ persistentVar (c.defs e.1) = true)

/-- A row that is restored is the variable it was saved from. -/
theorem restoreRow_rowOf {saved : ℕ × Value} {mod : Bool} (htagged : Tagged saved)
    (hrestored : restoredValue vm saved.1 saved.2 = some value) (howner : 0 ∉ v.owner)
    (hkey : 0 ∉ v.key) (hmod : v.mod = mod) (d : Vars.Context) :
    restoreRow vm mod d (pushSavedVariable (savedVariable vm (rowOf v saved))) =
      d.setValue v value := by
  rw [pushSavedVariable_saved htagged howner hkey, ← hmod]
  have hvalue : restoredValue vm (rowOf v saved).kind (rowOf v saved).v = some value := hrestored
  unfold restoreRow
  rw [hvalue]
  rfl

/-- The rows of a payload restore its persistent variables. -/
theorem collectRows_eq {mod : Bool} {entries : Payload}
    (hsurvives : ∀ e ∈ entries, persistentVar (c.defs e.1) = true → Survives vm e.2)
    (hplain : ∀ e ∈ entries, persistentVar (c.defs e.1) = true → 0 ∉ e.1.owner ∧ 0 ∉ e.1.key) :
    ∃ rows, collectRows vm c mod entries = some rows ∧ ∀ d : Vars.Context,
      ((rows.map (savedVariable vm)).map pushSavedVariable).foldl (restoreRow vm mod) d =
        (chosenOf c mod entries).foldl (fun d e => d.setValue e.1 e.2) d := by
  induction entries with
  | nil => exact ⟨[], rfl, fun _ => rfl⟩
  | cons e rest ih =>
    obtain ⟨rows, hrows, hfold⟩ := ih (fun e' he' => hsurvives e' (List.mem_cons_of_mem _ he'))
      fun e' he' => hplain e' (List.mem_cons_of_mem _ he')
    unfold collectRows chosenOf
    by_cases hchosen : e.1.mod = mod ∧ persistentVar (c.defs e.1) = true
    · obtain ⟨saved, hsaved, htagged, hrestored⟩ :=
        restoredValue_saved (hsurvives e List.mem_cons_self hchosen.2)
      obtain ⟨howner, hkey⟩ := hplain e List.mem_cons_self hchosen.2
      refine ⟨rowOf e.1 saved :: rows, ?_, fun d => ?_⟩
      · rw [if_pos hchosen, hsaved, hrows]
        rfl
      · rw [List.filter_cons_of_pos (by simpa using hchosen), List.map_cons, List.map_cons,
          List.foldl_cons, restoreRow_rowOf htagged hrestored howner hkey hchosen.1]
        exact hfold _
    · refine ⟨rows, ?_, fun d => ?_⟩
      · rw [if_neg hchosen, hrows]
      · rw [List.filter_cons_of_neg (by simpa using hchosen)]
        exact hfold d

/-- A variable that is not among those restored keeps its value. -/
theorem value_foldl_of_not_mem {entries : Payload} (h : v ∉ entries.map Prod.fst)
    (d : Vars.Context) :
    (entries.foldl (fun d e => d.setValue e.1 e.2) d).value v = d.value v := by
  induction entries generalizing d with
  | nil => rfl
  | cons e rest ih =>
    rw [List.map_cons, List.mem_cons, not_or] at h
    rw [List.foldl_cons, ih h.2, value_setValue, if_neg h.1]

/-- One that is has the restored value. -/
theorem value_foldl_of_mem {entries : Payload} (hnodup : (entries.map Prod.fst).Nodup)
    {e : Var × Value} (he : e ∈ entries) (d : Vars.Context) :
    (entries.foldl (fun d e => d.setValue e.1 e.2) d).value e.1 = e.2 := by
  induction entries generalizing d with
  | nil => exact absurd he List.not_mem_nil
  | cons e' rest ih =>
    rw [List.map_cons, List.nodup_cons] at hnodup
    rw [List.foldl_cons]
    obtain rfl | he := List.mem_cons.mp he
    · rw [value_foldl_of_not_mem hnodup.1, value_setValue, if_pos rfl]
    · exact ih hnodup.2 he _

/-- A variable's value is the one it is listed with. -/
theorem value_of_mem {e : Var × Value} (hnodup : (c.values.map Prod.fst).Nodup)
    (he : e ∈ c.values) : c.value e.1 = e.2 := by
  unfold Vars.Context.value
  generalize c.values = values at *
  induction values with
  | nil => exact absurd he List.not_mem_nil
  | cons e' rest ih =>
    rw [List.map_cons, List.nodup_cons] at hnodup
    rw [find_cons]
    obtain rfl | he' := List.mem_cons.mp he
    · rw [if_pos rfl]
      rfl
    · rw [if_neg]
      · exact ih hnodup.2 he'
      · intro heq
        exact hnodup.1 (heq ▸ List.mem_map_of_mem he')

/-- A variable that is not listed has none. -/
theorem value_of_not_mem (h : v ∉ c.values.map Prod.fst) : c.value v = .nil := by
  unfold Vars.Context.value find
  rw [List.find?_eq_none.mpr]
  · rfl
  · intro e he heq
    exact h (List.mem_map.mpr ⟨e, he, of_decide_eq_true heq⟩)

/-- Restoring the persistent variables leaves these and no others. -/
theorem value_restored (hnodup : (c.values.map Prod.fst).Nodup) (d : Vars.Context)
    (hd : d.values = []) (v : Var) :
    ((chosenOf c true c.values).foldl (fun d e => d.setValue e.1 e.2)
      ((chosenOf c false c.values).foldl (fun d e => d.setValue e.1 e.2) d)).value v =
      if persistentVar (c.defs v) = true then c.value v else .nil := by
  have hsub : ∀ mod, ((chosenOf c mod c.values).map Prod.fst).Nodup := fun mod =>
    hnodup.sublist (List.filter_sublist.map _)
  have hnil : d.value v = .nil := value_of_not_mem (by simp [hd])
  have hmem : ∀ mod, v ∈ (chosenOf c mod c.values).map Prod.fst →
      v.mod = mod ∧ persistentVar (c.defs v) = true := by
    intro mod hv
    obtain ⟨e, he, rfl⟩ := List.mem_map.mp hv
    exact of_decide_eq_true (List.mem_filter.mp he).2
  by_cases hin : persistentVar (c.defs v) = true ∧ v ∈ c.values.map Prod.fst
  · obtain ⟨hpersistent, hv⟩ := hin
    obtain ⟨e, he, rfl⟩ := List.mem_map.mp hv
    have hchosen : e ∈ chosenOf c e.1.mod c.values :=
      List.mem_filter.mpr ⟨he, decide_eq_true ⟨rfl, hpersistent⟩⟩
    rw [if_pos hpersistent, value_of_mem hnodup he]
    cases hmod : e.1.mod with
    | true =>
      rw [hmod] at hchosen
      exact value_foldl_of_mem (hsub true) hchosen _
    | false =>
      rw [hmod] at hchosen
      rw [value_foldl_of_not_mem]
      · exact value_foldl_of_mem (hsub false) hchosen _
      · intro hv'
        exact absurd (hmem true hv').1 (by simp [hmod])
  · have hout : ∀ mod, v ∉ (chosenOf c mod c.values).map Prod.fst := by
      intro mod hv'
      obtain ⟨e, he, rfl⟩ := List.mem_map.mp hv'
      exact hin ⟨(hmem mod hv').2, List.mem_map_of_mem (List.mem_filter.mp he).1⟩
    rw [value_foldl_of_not_mem (hout true), value_foldl_of_not_mem (hout false), hnil]
    split
    · rename_i hpersistent
      exact (value_of_not_mem fun hv => hin ⟨hpersistent, hv⟩).symm
    · rfl

/-! ### Timers -/

/-- What every state of the timers has: a repeat takes some time, and handles are numbered. -/
structure Regular (s : Timer.State) : Prop where
  every_pos : ∀ handle t, s.timer handle = some t → ∀ every, t.every = some every → 0 < every
  handles : ∀ handle t, s.timer handle = some t →
    ∃ n < s.nextHandle, ∃ realtime, handle = Timer.numbered n realtime

/-- Timers that stem from regular ones are regular. -/
theorem Regular.of_stems (h : Regular s) (hstems : Timer.Stems s s')
    (hnext : s.nextHandle ≤ s'.nextHandle) : Regular s' := by
  constructor
  · intro handle t' ht' every hevery
    obtain ⟨t, ht, hsame⟩ | ⟨_, _, hpos⟩ := hstems handle t' ht'
    · exact h.every_pos handle t ht every (hsame ▸ hevery)
    · exact hpos every hevery
  · intro handle t' ht'
    obtain ⟨t, ht, _⟩ | ⟨hlt, ⟨realtime, hhandle⟩, _⟩ := hstems handle t' ht'
    · obtain ⟨n, hn, hnum⟩ := h.handles handle t ht
      exact ⟨n, by omega, hnum⟩
    · exact ⟨s.nextHandle, hlt, realtime, hhandle⟩

/-- The next handle is no timer's yet. -/
theorem Regular.fresh (h : Regular s) (hfew : s.nextHandle < 2 ^ 30) :
    s.timer (s.handle false) = none := by
  cases ht : s.timer (s.handle false) with
  | none => rfl
  | some t =>
    obtain ⟨n, hn, realtime, hnum⟩ := h.handles _ t ht
    have hsame : s.nextHandle = n := Timer.numbered_inj hfew (hn.trans hfew) hnum
    omega

/-- A timer that a row restores. -/
def restoredEntry (ms : ℚ) (r : TimerRow) : Timer.Entry :=
  { due := ms + if r.frozen * 1000 < 0 then 0 else r.frozen * 1000
    every := (if 0 < r.repeats then some (r.repeats * 1000) else none).filter
      fun every => !decide (every ≤ 0)
    paused := r.paused
    remaining := if r.paused then some (r.frozen * 1000) else none
    persistent := some { handler := r.handler, args := r.args } }

theorem timers_setPersistent {handle : ℕ} {t : Timer.Entry} (table : Timer.Table)
    (h : s.timers = table.insert handle t) (persistent : Timer.Persistent) :
    (s.setPersistent handle persistent).timers =
      table.insert handle { t with persistent := some persistent } := by
  have ht : s.timer handle = some t := by
    unfold Timer.State.timer
    rw [h, AList.lookup_insert]
  unfold Timer.State.setPersistent
  rw [ht]
  show s.timers.insert handle _ = _
  rw [h, AList.insert_insert]

theorem timers_hold {handle : ℕ} {t : Timer.Entry} (table : Timer.Table)
    (h : s.timers = table.insert handle t) (remaining : ℚ) :
    (hold s handle remaining).timers =
      table.insert handle { t with paused := true, remaining := some remaining } := by
  have ht : s.timer handle = some t := by
    unfold Timer.State.timer
    rw [h, AList.lookup_insert]
  unfold hold
  rw [ht]
  show s.timers.insert handle _ = _
  rw [h, AList.insert_insert]

/-- Holding a timer leaves the clock and the handles. -/
theorem hold_keeps (s : Timer.State) (handle : ℕ) (remaining : ℚ) :
    (hold s handle remaining).ms = s.ms ∧ (hold s handle remaining).nextHandle = s.nextHandle := by
  unfold hold
  cases s.timer handle <;> exact ⟨rfl, rfl⟩

theorem stems_hold (s : Timer.State) (handle : ℕ) (remaining : ℚ) :
    Timer.Stems s (hold s handle remaining) := by
  unfold hold
  cases ht : s.timer handle with
  | none => exact Timer.Stems.refl s
  | some t => exact Timer.stems_setTimer ht rfl

theorem setPersistent_ms (s : Timer.State) (handle : ℕ) (persistent : Timer.Persistent) :
    (s.setPersistent handle persistent).ms = s.ms := by
  unfold Timer.State.setPersistent
  cases s.timer handle <;> rfl

/-- A restored timer is inserted under the next handle. -/
theorem restoreTimer_eq (s : Timer.State) (r : TimerRow) :
    (restoreTimer s r).timers = s.timers.insert (s.handle false) (restoredEntry s.ms r) ∧
      (restoreTimer s r).ms = s.ms ∧ (restoreTimer s r).nextHandle = s.nextHandle + 1 := by
  have hadded := timers_setPersistent (s := Timer.addTimer s (some (r.frozen * 1000))
    (if 0 < r.repeats then some (r.repeats * 1000) else none) false) s.timers rfl
    { handler := r.handler, args := r.args }
  unfold restoreTimer restoredEntry
  cases hpaused : r.paused with
  | false =>
    refine ⟨hadded, ?_, ?_⟩
    · exact setPersistent_ms _ _ _
    · exact Timer.setPersistent_nextHandle _ _ _
  | true =>
    refine ⟨timers_hold _ hadded _, ?_, ?_⟩
    · exact (hold_keeps _ _ _).1.trans (setPersistent_ms _ _ _)
    · exact (hold_keeps _ _ _).2.trans (Timer.setPersistent_nextHandle _ _ _)

/-- The others stay. -/
theorem stems_restoreTimer (s : Timer.State) (r : TimerRow) :
    Timer.Stems s (restoreTimer s r) := by
  have hadded := (Timer.stems_addTimer s (some (r.frozen * 1000))
    (if 0 < r.repeats then some (r.repeats * 1000) else none) false).trans
      (Timer.stems_setPersistent _ (s.handle false) { handler := r.handler, args := r.args })
      (Timer.setPersistent_nextHandle _ _ _)
  unfold restoreTimer
  cases r.paused with
  | false => exact hadded
  | true => exact hadded.trans (stems_hold _ _ _) (hold_keeps _ _ _).2

/-- The timers that are left are those that are not persistent. -/
theorem foldl_remove_timer {l : List (Σ _ : ℕ, Timer.Entry)} {handle : ℕ} {t : Timer.Entry} :
    (l.foldl (fun s e => if e.2.persistent.isSome then s.removeTimer e.1 else s) s).timer handle =
        some t ↔
      s.timer handle = some t ∧ ∀ e ∈ l, e.1 = handle → e.2.persistent = none := by
  induction l generalizing s with
  | nil => simp
  | cons e rest ih =>
    rw [List.foldl_cons, ih]
    cases hpersistent : e.2.persistent with
    | none => simp [hpersistent]
    | some persistent =>
      simp only [Option.isSome_some, if_true, Timer.timer_removeTimer]
      by_cases heq : handle = e.1
      · simp [heq, hpersistent]
      · simp [heq, Ne.symm heq]

/-- So they are after the persistent ones are removed. -/
theorem removePersistent_timer {handle : ℕ} {t : Timer.Entry} :
    (removePersistent s).timer handle = some t ↔
      s.timer handle = some t ∧ t.persistent = none := by
  unfold removePersistent
  rw [foldl_remove_timer]
  refine and_congr_right fun ht => ⟨fun h => ?_, fun h e he heq => ?_⟩
  · exact h ⟨handle, t⟩ (AList.mem_lookup_iff.mp ht) rfl
  · have hsame : s.timer e.1 = some e.2 := AList.mem_lookup_iff.mpr he
    rw [heq, ht] at hsame
    rw [← Option.some.inj hsame]
    exact h

theorem removePersistent_keeps (s : Timer.State) : (removePersistent s).ms = s.ms ∧
    (removePersistent s).nextHandle = s.nextHandle := by
  unfold removePersistent
  generalize s.timers.entries = l
  induction l generalizing s with
  | nil => exact ⟨rfl, rfl⟩
  | cons e rest ih =>
    rw [List.foldl_cons]
    split
    · exact ih (s.removeTimer e.1)
    · exact ih s

/-- What is left is regular. -/
theorem Regular.removePersistent (h : Regular s) : Regular (removePersistent s) := by
  apply h.of_stems
  · exact fun handle t ht => .inl ⟨t, (removePersistent_timer.mp ht).1, rfl⟩
  · rw [(removePersistent_keeps s).2]

/-- None that is left is persistent. -/
theorem persistents_removePersistent (s : Timer.State) : persistents (removePersistent s) = [] := by
  unfold persistents
  rw [List.filterMap_eq_nil_iff]
  intro e he
  have ht : (Extras.removePersistent s).timer e.1 = some e.2 := AList.mem_lookup_iff.mpr he
  rw [(removePersistent_timer.mp ht).2]
  rfl

/-- What a row keeps. -/
def keptOf (r : TimerRow) : Kept :=
  { handler := r.handler, args := r.args, every := (restoredEntry 0 r).every, paused := r.paused
    remaining := if r.paused then r.frozen * 1000 else max 0 (r.frozen * 1000) }

/-- A restored timer has the time left that was saved. -/
theorem left_restoredEntry (ms : ℚ) (r : TimerRow) :
    left (restoredEntry ms r) ms = (keptOf r).remaining := by
  unfold left restoredEntry keptOf
  dsimp only
  cases r.paused with
  | true => rfl
  | false =>
    simp only [Bool.false_eq_true, if_false, add_sub_cancel_left]
    split
    · rename_i hneg
      rw [max_self, max_eq_left hneg.le]
    · rfl

/-- A restored timer is one persistent timer more. -/
theorem persistents_restoreTimer (r : TimerRow) (hfresh : s.timer (s.handle false) = none) :
    persistents (restoreTimer s r) = keptOf r :: persistents s := by
  obtain ⟨htimers, hms, _⟩ := restoreTimer_eq s r
  have hnot : s.handle false ∉ s.timers := AList.lookup_eq_none.mp hfresh
  unfold persistents
  rw [htimers, hms, AList.entries_insert_of_notMem hnot, List.filterMap_cons]
  show { handler := r.handler, args := r.args, every := _, paused := r.paused
         remaining := left (restoredEntry s.ms r) s.ms : Kept } :: _ = _
  rw [left_restoredEntry]
  rfl

/-- The timers that are not persistent are as before. -/
theorem restoreTimer_timer {handle : ℕ} {t : Timer.Entry} (r : TimerRow)
    (hfresh : s.timer (s.handle false) = none) (hnone : t.persistent = none) :
    (restoreTimer s r).timer handle = some t ↔ s.timer handle = some t := by
  unfold Timer.State.timer
  rw [(restoreTimer_eq s r).1]
  by_cases heq : handle = s.handle false
  · rw [heq, AList.lookup_insert]
    refine iff_of_false (fun h => ?_) fun h => ?_
    · rw [← Option.some.inj h] at hnone
      exact absurd hnone (by simp [restoredEntry])
    · exact absurd (hfresh.symm.trans h) (by simp)
  · rw [AList.lookup_insert_ne heq]

/-- The rows restore what they keep, and leave timers that are not persistent alone. -/
theorem foldl_restoreTimer {rows : List TimerRow} (h : Regular s)
    (hfew : s.nextHandle + rows.length ≤ 2 ^ 30) :
    persistents (rows.foldl restoreTimer s) = (rows.map keptOf).reverse ++ persistents s ∧
      ∀ handle t, t.persistent = none →
        ((rows.foldl restoreTimer s).timer handle = some t ↔ s.timer handle = some t) := by
  induction rows generalizing s with
  | nil => exact ⟨rfl, fun _ _ _ => Iff.rfl⟩
  | cons r rest ih =>
    rw [List.length_cons] at hfew
    have hfresh := h.fresh (by omega)
    obtain ⟨_, _, hnext⟩ := restoreTimer_eq s r
    have hregular : Regular (restoreTimer s r) :=
      h.of_stems (stems_restoreTimer s r) (by omega)
    obtain ⟨hkept, hothers⟩ := ih hregular (by omega)
    refine ⟨?_, fun handle t hnone => ?_⟩
    · rw [List.foldl_cons, hkept, persistents_restoreTimer r hfresh]
      simp
    · rw [List.foldl_cons, hothers handle t hnone]
      exact restoreTimer_timer r hfresh hnone

/-- So they are after all rows are restored. -/
theorem Regular.foldl_restoreTimer (h : Regular s) (rows : List TimerRow) :
    Regular (rows.foldl restoreTimer s) := by
  induction rows generalizing s with
  | nil => exact h
  | cons r rest ih =>
    refine ih (h.of_stems (stems_restoreTimer s r) ?_)
    rw [(restoreTimer_eq s r).2.2]
    exact Nat.le_succ _

/-- Every state of the timers that can be reached is regular. -/
theorem Reachable.regular (h : Reachable s) : Regular s := by
  induction h with
  | start => exact ⟨fun _ t ht => absurd ht (by simp [Timer.State.timer]),
      fun _ t ht => absurd ht (by simp [Timer.State.timer])⟩
  | step _ hstep ih => exact ih.of_stems (Timer.stems_step hstep) (Timer.step_nextHandle hstep)
  | restored rows _ ih => exact ih.removePersistent.foldl_restoreTimer rows

/-- A row keeps of a timer what the timer has. -/
theorem keptOf_saved {t : Timer.Entry} {persistent : Timer.Persistent} {now : ℚ} {name : Bytes}
    (hpos : ∀ every, t.every = some every → 0 < every) (hhandler : persistent.handler = .string name)
    (hname : 0 ∉ name) (hargs : 0 ∉ persistent.args) :
    keptOf (pushSavedTimer (savedTimer vm
      { frozen := left t now / 1000, repeats := t.every.getD 0 / 1000, paused := t.paused
        handler := persistent.handler, args := persistent.args })) =
      { handler := persistent.handler, args := persistent.args, every := t.every
        paused := t.paused, remaining := left t now } := by
  have hname' : cStr name = name := cStr_eq_self hname
  have hargs' : cStr persistent.args = persistent.args := cStr_eq_self hargs
  have hms : left t now / 1000 * 1000 = left t now := div_mul_cancel₀ _ (by norm_num)
  have hevery : ((if 0 < t.every.getD 0 / 1000 then some (t.every.getD 0 / 1000 * 1000)
      else none).filter fun every => !decide (every ≤ 0)) = t.every := by
    cases ht : t.every with
    | none => simp
    | some every =>
      have hlt : 0 < every := hpos every ht
      have hback : every / 1000 * 1000 = every := div_mul_cancel₀ _ (by norm_num)
      have hdiv : 0 < every / 1000 := div_pos hlt (by norm_num)
      show (if 0 < every / 1000 then some (every / 1000 * 1000) else none).filter _ = _
      rw [if_pos hdiv, hback]
      simp [hlt]
  have hleft : (if t.paused = true then left t now else max 0 (left t now)) = left t now := by
    unfold left
    split
    · rfl
    · exact max_eq_right (le_max_left _ _)
  unfold keptOf restoredEntry pushSavedTimer savedTimer
  simp only [hhandler, toLString, Option.map_some, Option.getD_some, hname', hargs', hms, hevery,
    hleft]

/-- The rows of the timers keep the persistent timers. -/
theorem keptOf_collected {c : Context} (hregular : Regular c.timers) (hsaveable : Saveable vm c)
    (hplain : Plain c) :
    (((collectTimers c.timers).map (savedTimer vm)).map pushSavedTimer).map keptOf =
      persistents c.timers := by
  unfold collectTimers persistents
  rw [List.map_map, List.map_map, List.map_filterMap]
  apply List.filterMap_congr
  intro e he
  have ht : c.timers.timer e.1 = some e.2 := AList.mem_lookup_iff.mpr he
  cases hpersistent : e.2.persistent with
  | none => rfl
  | some persistent =>
    obtain ⟨name, hhandler, hname⟩ := hplain.handlers e.1 e.2 persistent ht hpersistent
    have hargs := hsaveable.args e.1 e.2 persistent ht hpersistent
    exact congrArg some (keptOf_saved (hregular.every_pos e.1 e.2 ht) hhandler hname hargs)

/-! ### A save and a restore -/

/-- What is saved are the rows of the variables and the timers that are kept. -/
theorem luaExtrasToSave_eq {c : Context} {user mod : List Row}
    (huser : collectRows vm c.vars false c.vars.values = some user)
    (hmod : collectRows vm c.vars true c.vars.values = some mod) :
    luaExtrasToSave vm c = some
      { user := user.map (savedVariable vm), mod := mod.map (savedVariable vm)
        timers := (collectTimers c.timers).map (savedTimer vm) } := by
  unfold luaExtrasToSave collectSaveExtras
  rw [huser, hmod]
  rfl

/-- Whatever the state of the context, restoring a save leaves the persistent variables and timers
that were saved, and the other timers it had. -/
theorem restore_of_save {saved before : Context} (hsaved : Saveable vm saved)
    (hplain : Plain saved) (hbefore : Reachable before.timers)
    (hserver : before.vars.server = true)
    (hfew : before.timers.nextHandle + (persistents saved.timers).length ≤ 2 ^ 30) :
    RoundTrips vm saved before := by
  obtain ⟨user, huser, huser'⟩ :
      ∃ rows, collectRows vm saved.vars false saved.vars.values = some rows ∧ _ :=
    collectRows_eq hsaved.survives hplain.names
  obtain ⟨mod, hmod, hmod'⟩ :
      ∃ rows, collectRows vm saved.vars true saved.vars.values = some rows ∧ _ :=
    collectRows_eq hsaved.survives hplain.names
  have hkept := keptOf_collected hsaved.reachable.regular hsaved hplain
  rw [← hkept, List.length_map, ← (removePersistent_keeps before.timers).2] at hfew
  obtain ⟨hpersistents, hothers⟩ := foldl_restoreTimer hbefore.regular.removePersistent hfew
  refine ⟨_, luaExtrasToSave_eq huser hmod, ?_⟩
  unfold restoreSaveExtras
  rw [hserver]
  constructor
  · intro v
    show (List.foldl (restoreRow vm true) (List.foldl (restoreRow vm false)
      { before.vars with values := [] } ((user.map (savedVariable vm)).map pushSavedVariable))
      ((mod.map (savedVariable vm)).map pushSavedVariable)).value v = _
    rw [huser', hmod']
    exact value_restored hsaved.once _ rfl v
  · show (persistents (List.foldl restoreTimer (removePersistent before.timers)
      (((collectTimers saved.timers).map (savedTimer vm)).map pushSavedTimer))).Perm _
    rw [hpersistents, persistents_removePersistent, List.append_nil, hkept]
    exact List.reverse_perm _
  · intro handle t hnone
    refine (hothers handle t hnone).trans ?_
    rw [removePersistent_timer]
    exact and_iff_left hnone

/-! ### Concrete saves -/

/-- A Lua state with one table. -/
def demoVm : Vm where
  userdata _ := false
  numberText _ := bytes "5"
  stringify _ := some (bytes "[1]")
  parse _ := some (.table (.cons (.integer 1) (.integer 1) .nil))
  parseBinary _ := none

/-- A context with one user variable and one persistent timer, which repeats. -/
def demoContext (name : Bytes) (value handler : Value) : Context where
  vars := { server := true, userDefs := [(name, fun _ => none)]
            values := [({ mod := false, owner := bytes "guid", key := name }, value)] }
  timers := Timer.waitForPersistent {} (some 10) (some 5)
    { handler, args := bytes "null" }

theorem demoContext_timer {name : Bytes} {value handler : Value} {h : ℕ} {t : Timer.Entry}
    {persistent : Timer.Persistent} (ht : (demoContext name value handler).timers.timer h = some t)
    (hpersistent : t.persistent = some persistent) :
    persistent = { handler, args := bytes "null" } := by
  have hmem := AList.mem_lookup_iff.mp ht
  have hsame := List.mem_singleton.mp hmem
  rw [Sigma.mk.injEq] at hsame
  rw [eq_of_heq hsame.2] at hpersistent
  exact (Option.some.inj hpersistent).symm

/-- The context can be saved where its value survives. -/
theorem demoContext_saveable {name : Bytes} {value handler : Value} (h : Survives demoVm value) :
    Saveable demoVm (demoContext name value handler) := by
  have hstep : Timer.step {} (.waitForPersistent (some 10) (some 5)
      { handler, args := bytes "null" }) = some (demoContext name value handler).timers := rfl
  refine ⟨.step .start hstep, List.nodup_singleton _, fun e he _ => ?_,
    fun _ t persistent ht hpersistent => ?_⟩
  · rw [List.mem_singleton.mp he]
    exact h
  · rw [demoContext_timer ht hpersistent]
    show 0 ∉ bytes "null"
    decide

/-- Its one timer is kept. -/
theorem demoContext_persistents (name : Bytes) (value handler : Value) :
    persistents (demoContext name value handler).timers =
      [{ handler, args := bytes "null", every := some 5, paused := false, remaining := 10 }] := by
  have hentries : (demoContext name value handler).timers.timers.entries = [⟨1,
      { due := 0 + if (10 : ℚ) < 0 then 0 else 10
        every := (some (5 : ℚ)).filter fun every => !decide (every ≤ 0)
        paused := false, remaining := none
        persistent := some { handler, args := bytes "null" } }⟩] := rfl
  have hms : (demoContext name value handler).timers.ms = 0 := rfl
  unfold persistents
  rw [hentries, hms, List.filterMap_cons]
  norm_num [left]

theorem restore_of_save_demo :
    RoundTrips demoVm (demoContext (bytes "marks") (.table (.cons (.integer 1) (.integer 1) .nil))
      (.string (bytes "tick"))) (demoContext (bytes "marks") (.boolean false) .nil) := by
  apply restore_of_save
  · exact demoContext_saveable ⟨_, rfl, rfl⟩
  · refine ⟨fun e he _ => ?_, fun _ t persistent ht hpersistent => ?_⟩
    · rw [List.mem_singleton.mp he]
      decide
    · rw [demoContext_timer ht hpersistent]
      exact ⟨_, rfl, by decide⟩
  · have hbefore : Survives demoVm (.boolean false) := trivial
    exact (demoContext_saveable hbefore).reachable
  · rfl
  · rw [demoContext_persistents]
    decide

/-- No timer and no variable. -/
def emptyContext : Context where
  vars := { server := true }
  timers := {}

/-- The row of the timer of `demoContext`, after the C structure. -/
theorem timers_of_demoContext {name : Bytes} {value handler : Value} {extras : SaveExtras}
    (h : luaExtrasToSave demoVm (demoContext name value handler) = some extras) :
    ∃ r, (takeSavedExtras extras).timers = [r] ∧
      r.handler = .string (cStr (((toLString demoVm handler).map cStr).getD [])) := by
  obtain ⟨tables, htables, rfl⟩ := Option.map_eq_some_iff.mp h
  unfold collectSaveExtras at htables
  obtain ⟨user, _, hrest⟩ := Option.bind_eq_some_iff.mp htables
  obtain ⟨mod, _, hsome⟩ := Option.bind_eq_some_iff.mp hrest
  rw [← Option.some.inj hsome]
  exact ⟨_, rfl, rfl⟩

/-- The handler that a restored timer gets. -/
theorem handler_of_roundTrips {name : Bytes} {value handler : Value}
    (h : RoundTrips demoVm (demoContext name value handler) emptyContext) :
    .string (cStr (((toLString demoVm handler).map cStr).getD [])) = handler := by
  obtain ⟨extras, hextras, hrestores⟩ := h
  obtain ⟨r, hrows, hhandler⟩ := timers_of_demoContext hextras
  have htimers := hrestores.timers
  rw [demoContext_persistents] at htimers
  have hafter : (restoreSaveExtras demoVm (some (takeSavedExtras extras)) emptyContext).timers =
      [r].foldl restoreTimer {} := by
    rw [← hrows]
    rfl
  have hfew : ({} : Timer.State).nextHandle + [r].length ≤ 2 ^ 30 := by
    show 1 + 1 ≤ 2 ^ 30
    decide
  have hkept := (foldl_restoreTimer Reachable.start.regular hfew).1
  rw [hafter, hkept] at htimers
  have hsame := List.singleton_perm_singleton.mp htimers
  rw [← hhandler]
  exact congrArg Kept.handler hsame

/-- The number of timers given out can reach the handle of a realtime timer. -/
theorem exists_crowded : ∃ s, Reachable s ∧ s.nextHandle = 2 ^ 30 + 1 ∧
    ∃ t, s.timer (2 ^ 30 + 1) = some t ∧ t.persistent = none := by
  have hgrow : ∀ n, n + 2 ≤ 2 ^ 30 + 1 → ∃ s, Reachable s ∧ s.nextHandle = n + 2 ∧
      ∃ t, s.timer (2 ^ 30 + 1) = some t ∧ t.persistent = none := by
    intro n hn
    induction n with
    | zero =>
      have hstep : Timer.step {} (.waitForRealtime none none) =
          some (Timer.waitForRealtime {} none none) := rfl
      refine ⟨_, .step .start hstep, rfl, _, rfl, rfl⟩
    | succ n ih =>
      obtain ⟨s, hs, hnext, t, ht, hnone⟩ := ih (by omega)
      have hstep : Timer.step s (.waitFor none none) = some (Timer.waitFor s none none) := rfl
      refine ⟨_, .step hs hstep, ?_, t, ?_, hnone⟩
      · show s.nextHandle + 1 = _
        omega
      · show (s.setTimer s.nextHandle _).timer (2 ^ 30 + 1) = _
        rw [Timer.timer_setTimer, if_neg (by omega)]
        exact ht
  exact hgrow (2 ^ 30 - 1) (by omega)

/-- A variable whose name has a NUL comes back under another name. -/
theorem name_is_cut : ¬ RoundTrips demoVm
    (demoContext [97, 0, 98] (.boolean true) (.string (bytes "tick"))) emptyContext := by
  intro h
  obtain ⟨extras, hextras, hrestores⟩ := h
  have huser : collectRows demoVm
      (demoContext [97, 0, 98] (.boolean true) (.string (bytes "tick"))).vars false
      [({ mod := false, owner := bytes "guid", key := [97, 0, 98] }, .boolean true)] =
      some [{ owner := bytes "guid", name := [97, 0, 98], kind := 5, v := .boolean true }] := rfl
  have hmod : collectRows demoVm
      (demoContext [97, 0, 98] (.boolean true) (.string (bytes "tick"))).vars true
      [({ mod := false, owner := bytes "guid", key := [97, 0, 98] }, .boolean true)] =
      some [] := rfl
  rw [luaExtrasToSave_eq huser hmod] at hextras
  have hvalue := hrestores.values { mod := false, owner := bytes "guid", key := [97, 0, 98] }
  rw [← Option.some.inj hextras] at hvalue
  have hnil : Value.nil = .boolean true := hvalue
  exact absurd hnil (by simp)

/-- A timer restored under the handle of a realtime timer takes its place. -/
theorem timer_is_replaced : ∃ before, Reachable before.timers ∧ before.vars.server = true ∧
    ¬ RoundTrips demoVm (demoContext (bytes "marks") (.boolean true) (.string (bytes "tick")))
      before := by
  obtain ⟨s, hs, hnext, t, ht, hnone⟩ := exists_crowded
  refine ⟨{ vars := { server := true }, timers := s }, hs, rfl, fun h => ?_⟩
  obtain ⟨extras, hextras, hrestores⟩ := h
  obtain ⟨r, hrows, _⟩ := timers_of_demoContext hextras
  have hkept := (hrestores.others (2 ^ 30 + 1) t hnone).mpr ht
  have hafter : (restoreSaveExtras demoVm (some (takeSavedExtras extras))
      { vars := { server := true }, timers := s }).timers =
        restoreTimers [r] s := by
    rw [← hrows]
    rfl
  have hhandle : (removePersistent s).handle false = 2 ^ 30 + 1 :=
    (removePersistent_keeps s).2.trans hnext
  rw [hafter] at hkept
  have hlookup : (restoreTimer (removePersistent s) r).timers.lookup (2 ^ 30 + 1) = some t := hkept
  rw [(restoreTimer_eq _ r).1, hhandle, AList.lookup_insert] at hlookup
  rw [← Option.some.inj hlookup] at hnone
  exact absurd hnone (by simp [restoredEntry])

/-- A name is cut at a NUL, a handler that is not a string or has a NUL is another one afterwards,
and a handle that is given out again costs a timer. -/
theorem restore_differs : Reachable emptyContext.timers ∧
    (Saveable demoVm (demoContext [97, 0, 98] (.boolean true) (.string (bytes "tick"))) ∧
      ¬ RoundTrips demoVm (demoContext [97, 0, 98] (.boolean true) (.string (bytes "tick")))
        emptyContext) ∧
    (∀ handler, handler = .integer 5 ∨ handler = .string [97, 0, 98] →
      Saveable demoVm (demoContext (bytes "marks") (.boolean true) handler) ∧
        ¬ RoundTrips demoVm (demoContext (bytes "marks") (.boolean true) handler) emptyContext) ∧
    ∃ before, Reachable before.timers ∧ before.vars.server = true ∧
      ¬ RoundTrips demoVm (demoContext (bytes "marks") (.boolean true) (.string (bytes "tick")))
        before := by
  have htrue : Survives demoVm (.boolean true) := trivial
  refine ⟨.start, ⟨demoContext_saveable htrue, name_is_cut⟩, fun handler hhandler => ?_,
    timer_is_replaced⟩
  refine ⟨demoContext_saveable htrue, fun h => ?_⟩
  have hsame := handler_of_roundTrips h
  obtain rfl | rfl := hhandler
  · exact absurd hsame (by simp)
  · have hcut := Value.string.inj hsame
    exact absurd hcut (by decide)

end Extras
end Bg3le
