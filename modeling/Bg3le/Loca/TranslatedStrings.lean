import Mathlib.Data.List.Infix
import Mathlib.Logic.Function.Basic
import Bg3le.Bytes

/-!
# Setting translated strings: `vendor/translated_strings.cpp`

`translated_string_set` stores directly into a repository that is up when nothing is queued, and
queues the text otherwise. The monitor thread takes the whole queue once the repository is up and
replays it. Each critical section under `g_pending_mutex`, each store into the repository and
each exchange of `g_monitor_started` is one step, and the steps of all threads interleave.
-/

namespace Bg3le
namespace Loca

abbrev Handle := Bytes
abbrev Text := Bytes

/-- The menu's copyright line, which the check resolves. -/
def kCheckHandle : Handle := bytes "h5b6e4138g2cf0g4d67gb825gee416cf8c54f"

/-- A thread of the game, by the step of `translated_string_set` (or
`translated_string_show_version`) it takes next. -/
inductive Caller where
  | idle
  /-- `repository()` returned one: the critical section with the direct store is next. -/
  | found (handle : Handle) (text : Text)
  /-- The text goes to the queue next. -/
  | deferring (handle : Handle) (text : Text)
  /-- `start_monitor()` is next. -/
  | queued
deriving DecidableEq

/-- The thread that set `g_monitor_started`, by the step it takes next. -/
inductive Monitor where
  | off
  /-- Between two looks at `repository()`. -/
  | waiting
  /-- At the swap of `apply_pending`. -/
  | found
  /-- Before `translated_string_get(kCheckHandle)`, with the swapped-out suffix and writes. -/
  | version (suffix : Text) (pending : List (Handle × Text))
  /-- Before the store of the version line. -/
  | versionStore (line : Text) (pending : List (Handle × Text))
  /-- In the loop over the swapped-out writes. -/
  | replaying (pending : List (Handle × Text))
deriving DecidableEq

/-- The swapped-out writes that are still to be stored. -/
@[simp] def Monitor.pending : Monitor → List (Handle × Text)
  | .off | .waiting | .found => []
  | .version _ pending | .versionStore _ pending | .replaying pending => pending

structure State where
  /-- Whether the repository resolves the copyright line, and what it then holds. -/
  up : Bool := false
  stored : Handle → Option Text := fun _ => none
  /-- `g_pending` and `g_version_suffix`. -/
  pending : List (Handle × Text) := []
  suffix : Text := []
  callers : ℕ → Caller := fun _ => .idle
  /-- `g_monitor_started` is `monitor ≠ .off`. -/
  monitor : Monitor := .off
  /-- Monitors that cleared `g_monitor_started`: before their look at the queue, and after one
  that found it filled. -/
  leaving : ℕ := 0
  restarting : ℕ := 0
  /-- History, which no step reads: the calls of `translated_string_set` that took effect in
  order, by a direct store or by the queue. -/
  effects : List (Handle × Text) := []
  /-- The handles whose last store replayed a write that the repository refused, or was that of
  the version line. -/
  excepted : Handle → Bool := fun _ => false

inductive Action where
  /-- The localisation loads, with these texts. -/
  | load (texts : Handle → Option Text)
  /-- `translated_string_set` on thread `caller`; `seen`: `repository()` returned one. -/
  | set (caller : ℕ) (handle : Handle) (text : Text) (seen : Bool)
  /-- The critical section with the direct store; `ok`: `store` succeeds if it is called. -/
  | direct (caller : ℕ) (ok : Bool)
  | enqueue (caller : ℕ)
  | showVersion (caller : ℕ) (suffix : Text)
  | start (caller : ℕ)
  /-- The monitor finds the repository, or gives up looking. -/
  | populated
  | giveUp
  | swap
  /-- `translated_string_get(kCheckHandle)`, and whether it succeeds. -/
  | readVersion (ok : Bool)
  | storeVersion (ok : Bool)
  | replay (ok : Bool)
  | finish
  /-- The look at the queue of a monitor that is leaving, and its `start_monitor()`. -/
  | recheck
  | restart

/-- `store`, where `ok` says whether the repository took the text. -/
def State.store (s : State) (handle : Handle) (text : Text) (ok : Bool) : State :=
  if ok then { s with stored := Function.update s.stored handle (some text) } else s

/-- `start_monitor()`: a monitor that is on does its work. -/
def State.startMonitor (s : State) : State :=
  if s.monitor = .off then { s with monitor := .waiting } else s

def State.setCaller (s : State) (caller : ℕ) (at' : Caller) : State :=
  { s with callers := Function.update s.callers caller at' }

/-- One step of one thread; `none` where that thread is not at this step. -/
def step (s : State) : Action → Option State
  | .load texts => if s.up then none else some { s with up := true, stored := texts }
  | .set caller handle text seen =>
    match s.callers caller with
    | .idle =>
      if seen then if s.up then some (s.setCaller caller (.found handle text)) else none
      else some (s.setCaller caller (.deferring handle text))
    | _ => none
  | .direct caller ok =>
    match s.callers caller with
    | .found handle text =>
      if s.pending = [] ∧ s.suffix = [] ∧ ok then
        some { (s.store handle text true).setCaller caller .idle with
          effects := s.effects ++ [(handle, text)]
          excepted := Function.update s.excepted handle false }
      else some (s.setCaller caller (.deferring handle text))
    | _ => none
  | .enqueue caller =>
    match s.callers caller with
    | .deferring handle text =>
      some { s.setCaller caller .queued with
        pending := s.pending ++ [(handle, text)], effects := s.effects ++ [(handle, text)] }
    | _ => none
  | .showVersion caller suffix =>
    match s.callers caller with
    | .idle => some { s.setCaller caller .queued with suffix }
    | _ => none
  | .start caller =>
    match s.callers caller with
    | .queued => some (s.startMonitor.setCaller caller .idle)
    | _ => none
  | .populated =>
    match s.monitor with
    | .waiting => if s.up then some { s with monitor := .found } else none
    | _ => none
  | .giveUp =>
    match s.monitor with
    | .waiting => some { s with monitor := .off }
    | _ => none
  | .swap =>
    match s.monitor with
    | .found =>
      some { s with
        pending := [], suffix := []
        monitor := if s.suffix = [] then .replaying s.pending else .version s.suffix s.pending }
    | _ => none
  | .readVersion ok =>
    match s.monitor with
    | .version suffix pending =>
      match s.stored kCheckHandle with
      | some text =>
        if ok ∧ ¬ bytes "Script Extender" <:+: text then
          some { s with monitor := .versionStore (text ++ suffix) pending }
        else some { s with monitor := .replaying pending }
      | none => some { s with monitor := .replaying pending }
    | _ => none
  | .storeVersion ok =>
    match s.monitor with
    | .versionStore line pending =>
      some { s.store kCheckHandle line ok with
        monitor := .replaying pending
        excepted := if ok then Function.update s.excepted kCheckHandle true else s.excepted }
    | _ => none
  | .replay ok =>
    match s.monitor with
    | .replaying ((handle, text) :: pending) =>
      some { s.store handle text ok with
        monitor := .replaying pending, excepted := Function.update s.excepted handle (!ok) }
    | _ => none
  | .finish =>
    match s.monitor with
    | .replaying [] => some { s with monitor := .off, leaving := s.leaving + 1 }
    | _ => none
  | .recheck =>
    match s.leaving with
    | 0 => none
    | n + 1 =>
      if s.pending = [] ∧ s.suffix = [] then some { s with leaving := n }
      else some { s with leaving := n, restarting := s.restarting + 1 }
  | .restart =>
    match s.restarting with
    | 0 => none
    | n + 1 => some { s.startMonitor with restarting := n }

end Loca
end Bg3le
