import Mathlib.Data.List.AList
import Mathlib.Data.List.Sort
import Mathlib.Data.Rat.Defs
import Mathlib.Algebra.Order.Ring.Rat
import Bg3le.Library.Run
import Bg3le.Lua.Value

/-!
# Timers: `Ext.Timer` of `lua_host.cpp`

The timers of one Lua context and its updates. An update collects the timers that are due and
then starts their callbacks one after another; what a callback does comes as actions, between its
start and its return. Times are rational numbers of milliseconds.
-/

namespace Bg3le
namespace Timer

open Lua

/-- `persistent` of a timer. -/
structure Persistent where
  handler : Value
  args : Bytes

/-- A timer, without its callback. -/
structure Entry where
  due : ℚ
  every : Option ℚ
  paused : Bool
  remaining : Option ℚ
  persistent : Option Persistent

/-- `timers`, by handle. -/
abbrev Table := AList fun _ : ℕ => Entry

/-- `REALTIME_FLAG`. -/
def REALTIME_FLAG : ℕ := 0x40000000

def flagged (handle : ℕ) : Bool := handle &&& REALTIME_FLAG ≠ 0

/-- The start of a callback: the timer as it stood, and the update it was started by. -/
structure Start where
  handle : ℕ
  timer : Entry
  /-- The number of the update, and its time. -/
  update : ℕ
  now : ℚ
  /-- When the timer was due as the update collected it. -/
  due : ℚ

inductive Event where
  | started (start : Start)
  | cancelled (handle : ℕ)

/-- An update that has started a callback which has not returned. -/
structure Update where
  now : ℚ
  /-- The handles that it has not come to, each with when its timer was due. -/
  rest : List (ℕ × ℚ)

structure State where
  timers : Table := ∅
  nextHandle : ℕ := 1
  /-- `clock.ms`, and the Time and Ticks of `clock.time`. -/
  ms : ℚ := 0
  time : Option (ℚ × ℕ) := none
  update : Option Update := none
  /-- The handles given out, with whether each is of a realtime timer. -/
  created : List (ℕ × Bool) := []
  /-- The number of updates, and what happened to the timers in order. -/
  updates : ℕ := 0
  log : List Event := []

/-- `timers[handle]`. -/
def State.timer (s : State) (handle : ℕ) : Option Entry := s.timers.lookup handle

/-! ### `Ext.Timer` -/

/-- `timers[handle] = timer`. -/
def State.setTimer (s : State) (handle : ℕ) (t : Entry) : State :=
  { s with timers := s.timers.insert handle t }

/-- `timers[handle] = nil`. -/
def State.removeTimer (s : State) (handle : ℕ) : State :=
  { s with timers := s.timers.erase handle }

/-- The handle that `add_timer` gives out. -/
def State.handle (s : State) (realtime : Bool) : ℕ :=
  if realtime then s.nextHandle ||| REALTIME_FLAG else s.nextHandle

/-- `add_timer`; a delay or a repeat that is not a number is `none`. -/
def addTimer (s : State) (ms repeatMs : Option ℚ) (realtime : Bool) : State :=
  let handle := s.handle realtime
  let ms := ms.getD 0
  let ms := if ms < 0 then 0 else ms
  let repeatMs := repeatMs.filter fun every => !decide (every ≤ 0)
  { s with
    nextHandle := s.nextHandle + 1
    created := s.created ++ [(handle, realtime)]
    timers := s.timers.insert handle
      { due := s.ms + ms, every := repeatMs, paused := false, remaining := none
        persistent := none } }

def waitFor (s : State) (ms repeatMs : Option ℚ) : State := addTimer s ms repeatMs false

def waitForRealtime (s : State) (ms repeatMs : Option ℚ) : State := addTimer s ms repeatMs true

/-- `timers[handle].persistent = persistent`. -/
def State.setPersistent (s : State) (handle : ℕ) (persistent : Persistent) : State :=
  match s.timer handle with
  | none => s
  | some t => s.setTimer handle { t with persistent := some persistent }

/-- `WaitForPersistent`, on the server. -/
def waitForPersistent (s : State) (ms repeatMs : Option ℚ) (persistent : Persistent) : State :=
  (addTimer s ms repeatMs false).setPersistent (s.handle false) persistent

def cancel (s : State) (handle : ℕ) : State :=
  match s.timer handle with
  | none => s
  | some _ => { s.removeTimer handle with log := s.log ++ [.cancelled handle] }

def pause (s : State) (handle : ℕ) : State :=
  match s.timer handle with
  | none => s
  | some t =>
    if t.paused then s
    else s.setTimer handle { t with paused := true, remaining := some (max 0 (t.due - s.ms)) }

def resume (s : State) (handle : ℕ) : State :=
  match s.timer handle with
  | none => s
  | some t =>
    if t.paused then
      s.setTimer handle
        { t with paused := false, due := s.ms + t.remaining.getD 0, remaining := none }
    else s

/-! ### `RunTimers` -/

/-- The order of the collected timers. -/
def before (a b : ℕ × ℚ) : Bool :=
  let ra := flagged a.1
  let rb := flagged b.1
  if ra ≠ rb then ra
  else if a.2 ≠ b.2 then decide (a.2 < b.2)
  else decide (a.1 < b.1)

/-- The timers that are due, each with when it was due. -/
def collect (timers : Table) (now : ℚ) : List (ℕ × ℚ) :=
  ((timers.entries.filter fun e => !e.2.paused && decide (e.2.due ≤ now)).map
    fun e => (e.1, e.2.due)).insertionSort fun a b => ¬ before b a

/-- A timer that is to repeat, after a start. -/
def Entry.advance (t : Entry) (every now : ℚ) : Entry :=
  let due := t.due + every
  { t with due := if due < now - 2 * every then now else due }

/-- The loop of `RunTimers` over the collected handles, up to the next callback. -/
def runTimers (s : State) (now : ℚ) : List (ℕ × ℚ) → State
  | [] => { s with update := none }
  | (handle, due) :: rest =>
    match s.timer handle with
    | none => runTimers s now rest
    | some t =>
      let s :=
        match t.every with
        | some every => s.setTimer handle (t.advance every now)
        | none => s.removeTimer handle
      { s with
        update := some { now, rest }
        log := s.log ++ [.started { handle, timer := t, update := s.updates, now, due }] }

/-- `RunTimers` with the engine's time, up to the first callback. -/
def beginUpdate (s : State) (time : ℚ) (ticks : ℕ) : State :=
  if s.time = some (time, ticks) then s
  else
    let s := { s with time := some (time, ticks), ms := time * 1000, updates := s.updates + 1 }
    runTimers s s.ms (collect s.timers s.ms)

inductive Action where
  | waitFor (ms repeatMs : Option ℚ)
  | waitForRealtime (ms repeatMs : Option ℚ)
  | waitForPersistent (ms repeatMs : Option ℚ) (persistent : Persistent)
  | cancel (handle : ℕ)
  | pause (handle : ℕ)
  | resume (handle : ℕ)
  | update (time : ℚ) (ticks : ℕ)
  /-- The callback returned or raised, and the update goes on. -/
  | returns
  /-- The callback raised, and printing that raised: the update ends. -/
  | raises

def step (s : State) : Action → Option State
  | .waitFor ms repeatMs => some (waitFor s ms repeatMs)
  | .waitForRealtime ms repeatMs => some (waitForRealtime s ms repeatMs)
  | .waitForPersistent ms repeatMs persistent => some (waitForPersistent s ms repeatMs persistent)
  | .cancel handle => some (cancel s handle)
  | .pause handle => some (pause s handle)
  | .resume handle => some (resume s handle)
  | .update time ticks =>
    match s.update with
    | some _ => none
    | none => some (beginUpdate s time ticks)
  | .returns => s.update.map fun u => runTimers s u.now u.rest
  | .raises => s.update.map fun _ => { s with update := none }

/-! ### What is expected of it -/

/-- Realtime timers first, then by when they were due, then by handle. -/
def Start.Before (x y : Start) : Prop :=
  flagged x.handle = true ∧ flagged y.handle = false ∨
    flagged x.handle = flagged y.handle ∧ (x.due < y.due ∨ x.due = y.due ∧ x.handle < y.handle)

/-- What an event allows later: no start after a cancel; no second start by one update, nor of a
timer that does not repeat; and the starts by one update in order. -/
def Event.Allows : Event → Event → Prop
  | .cancelled handle, .started y => y.handle ≠ handle
  | .started x, .started y =>
    (x.handle = y.handle →
      x.update ≠ y.update ∧ x.timer.every ≠ none ∧ y.timer.every = x.timer.every) ∧
    (x.update = y.update → x.Before y)
  | _, .cancelled _ => True

/-- Every start is of a timer that is not paused, and due. -/
structure Sound (s : State) : Prop where
  unpaused : ∀ x, .started x ∈ s.log → x.timer.paused = false
  due : ∀ x, .started x ∈ s.log → x.timer.due ≤ x.now
  order : s.log.Pairwise Event.Allows
  /-- Handles are given out once, and tell which timers are realtime. -/
  distinct : (s.created.map Prod.fst).Nodup
  realtime : ∀ e ∈ s.created, flagged e.1 = e.2

/-- A timer that is paused keeps what remains of it, stays as it is until it is cancelled or
resumed, and is then due what remains of it after the last update. -/
structure Keeps (s : State) (a : Action) (s' : State) : Prop where
  pauses : ∀ handle t, a = .pause handle → s.timer handle = some t → t.paused = false →
    s'.timer handle =
      some { t with paused := true, remaining := some (max 0 (t.due - s.ms)) }
  resumes : ∀ handle t, a = .resume handle → s.timer handle = some t → t.paused = true →
    ∃ remaining, t.remaining = some remaining ∧ s'.timer handle =
      some { t with paused := false, due := s.ms + remaining, remaining := none }
  stays : ∀ handle t, s.timer handle = some t → t.paused = true → a ≠ .cancel handle →
    a ≠ .resume handle → s'.timer handle = some t

/-- The collected timer that an update comes to next. -/
def State.upcoming (s : State) : List (ℕ × ℚ) → Option Entry
  | [] => none
  | (handle, _) :: rest => (s.timer handle).orElse fun _ => s.upcoming rest

/-- The timer that the update comes to next was not paused since the update collected it. -/
def Unpaused (s : State) : Action → Prop
  | .returns => ∀ u ∈ s.update, ∀ t ∈ s.upcoming u.rest, t.paused = false
  | _ => True

instance (s : State) (a : Action) : Decidable (Unpaused s a) :=
  match a with
  | .returns =>
    inferInstanceAs (Decidable (∀ u ∈ s.update, ∀ t ∈ s.upcoming u.rest, t.paused = false))
  | .waitFor _ _ | .waitForRealtime _ _ | .waitForPersistent _ _ _ | .cancel _ | .pause _
  | .resume _ | .update _ _ | .raises => isTrue trivial

/-- Updates come with times that do not decrease. -/
def Timely (s : State) : Action → Prop
  | .update time _ => s.ms ≤ time * 1000
  | _ => True

instance (s : State) (a : Action) : Decidable (Timely s a) :=
  match a with
  | .update time _ => inferInstanceAs (Decidable (s.ms ≤ time * 1000))
  | .waitFor _ _ | .waitForRealtime _ _ | .waitForPersistent _ _ _ | .cancel _ | .pause _
  | .resume _ | .returns | .raises => isTrue trivial

end Timer
end Bg3le
