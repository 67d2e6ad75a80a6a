import Bg3le.Lua.Timer
import Bg3le.Net.Vars
import Bg3le.Savegame.Serializer

/-!
# Variables and persistent timers in a save

`CollectSaveExtras` and `RestoreSaveExtras` of `lua_host.cpp`, with `lua_extras_to_save` and
`l_take_saved_extras` between them. Times are exact here; the save's file is not passed through.
-/

namespace Bg3le
namespace Extras

open Lua Vars Savegame

/-- The Lua context of the server: its variables and its timers. -/
structure Context where
  vars : Vars.Context
  timers : Timer.State

/-- What a Lua state and `Ext.Json` make of a value. -/
structure Vm where
  userdata : ℕ → Bool
  /-- The text of a number. -/
  numberText : Value → Bytes
  /-- `Ext.Json.Stringify` and `Ext.Json.Parse`, also of the binary form; none where they raise. -/
  stringify : Value → Option Bytes
  parse : Bytes → Option Value
  parseBinary : Bytes → Option Value

/-- `{owner, name, kind, v}`. -/
structure Row where
  owner : Bytes
  name : Bytes
  kind : ℕ
  v : Value

/-- `{remaining, every, paused, handler, args}`, in seconds. -/
structure TimerRow where
  frozen : ℚ
  repeats : ℚ
  paused : Bool
  handler : Value
  args : Bytes

/-- `{user = ..., mod = ..., timers = ...}`. -/
structure Tables where
  user : List Row
  mod : List Row
  timers : List TimerRow

/-! ### `CollectSaveExtras` -/

/-- `saved_value`: nothing where it raises, and no kind for what is not saved. -/
def savedValue (vm : Vm) : Value → Option (Option (ℕ × Value))
  | .boolean b => some (some (5, .boolean b))
  | .integer i => some (some (1, .integer i))
  | .number bits => some (some (2, .number bits))
  | .string s => some (some (3, .string s))
  | .table entries => (vm.stringify (.table entries)).map fun text => some (4, .string text)
  | .other id =>
    if vm.userdata id then (vm.stringify (.other id)).map fun text => some (4, .string text)
    else some none
  | .nil => some none

/-- `persistent_var`. -/
def persistentVar : Option Options → Bool
  | none => false
  | some options => options .persistent ≠ some false

/-- The rows of the mod variables or of the user variables. -/
def collectRows (vm : Vm) (c : Vars.Context) (mod : Bool) : Payload → Option (List Row)
  | [] => some []
  | (v, value) :: rest =>
    if v.mod = mod ∧ persistentVar (c.defs v) = true then do
      let saved ← savedValue vm value
      let rows ← collectRows vm c mod rest
      match saved with
      | some (kind, x) => some ({ owner := v.owner, name := v.key, kind, v := x } :: rows)
      | none => some rows
    else collectRows vm c mod rest

/-- What remains of a timer. -/
def left (t : Timer.Entry) (now : ℚ) : ℚ :=
  if t.paused then t.remaining.getD 0 else max 0 (t.due - now)

def collectTimers (s : Timer.State) : List TimerRow :=
  s.timers.entries.filterMap fun e => e.2.persistent.map fun persistent =>
    { frozen := left e.2 s.ms / 1000, repeats := e.2.every.getD 0 / 1000, paused := e.2.paused
      handler := persistent.handler, args := persistent.args }

/-- `CollectSaveExtras`. -/
def collectSaveExtras (vm : Vm) (c : Context) : Option Tables := do
  let user ← collectRows vm c.vars false c.vars.values
  let mod ← collectRows vm c.vars true c.vars.values
  some { user, mod, timers := collectTimers c.timers }

/-! ### `lua_extras_to_save` -/

/-- `SavedTimer`, with exact times. -/
structure SavedTimer where
  frozen : ℚ
  repeats : ℚ
  paused : Bool
  handler : Bytes
  args : Bytes

structure SaveExtras where
  user : List SavedVariable
  mod : List SavedVariable
  timers : List SavedTimer

/-- `lua_tointeger`; kind 1 comes with an integer. -/
def toInteger : Value → Int64
  | .integer i => i
  | _ => 0

/-- `lua_tonumber`; kind 2 comes with a float. -/
def toNumber : Value → UInt64
  | .number bits => bits
  | _ => 0

/-- `lua_tolstring`. -/
def toLString (vm : Vm) : Value → Option Bytes
  | .string s => some s
  | .integer i => some (vm.numberText (.integer i))
  | .number bits => some (vm.numberText (.number bits))
  | _ => none

/-- The body of `read_saved_variables`; owners and names are strings. -/
def savedVariable (vm : Vm) (r : Row) : SavedVariable :=
  let v : SavedVariable :=
    { owner := cStr r.owner, name := cStr r.name, type := UInt8.ofNat r.kind }
  if v.type = 5 then { v with bool := r.v.truthy }
  else if v.type = 1 then { v with int := toInteger r.v }
  else if v.type = 2 then { v with num := toNumber r.v }
  else { v with str := (toLString vm r.v).getD [] }

def savedTimer (vm : Vm) (r : TimerRow) : SavedTimer :=
  { frozen := r.frozen, repeats := r.repeats, paused := r.paused
    handler := ((toLString vm r.handler).map cStr).getD []
    args := cStr r.args }

/-- `lua_extras_to_save`. -/
def luaExtrasToSave (vm : Vm) (c : Context) : Option SaveExtras :=
  (collectSaveExtras vm c).map fun tables =>
    { user := tables.user.map (savedVariable vm), mod := tables.mod.map (savedVariable vm)
      timers := tables.timers.map (savedTimer vm) }

/-! ### `RestoreSaveExtras` -/

/-- The body of `push_saved_variables`. -/
def pushSavedVariable (v : SavedVariable) : Row :=
  { owner := cStr v.owner, name := cStr v.name, kind := v.type.toNat
    v :=
      if v.type = 5 then .boolean v.bool
      else if v.type = 1 then .integer v.int
      else if v.type = 2 then .number v.num
      else .string v.str }

def pushSavedTimer (t : SavedTimer) : TimerRow :=
  { frozen := t.frozen, repeats := t.repeats, paused := t.paused
    handler := .string (cStr t.handler), args := t.args }

/-- `l_take_saved_extras`. -/
def takeSavedExtras (extras : SaveExtras) : Tables :=
  { user := extras.user.map pushSavedVariable, mod := extras.mod.map pushSavedVariable
    timers := extras.timers.map pushSavedTimer }

/-- `restored_value`; nothing where it raises. -/
def restoredValue (vm : Vm) (kind : ℕ) (value : Value) : Option Value :=
  if kind = 4 then (toLString vm value).bind vm.parse
  else if kind = 6 then (toLString vm value).bind vm.parseBinary
  else some value

/-- The loops over `saved.user` and `saved.mod`. -/
def restoreRow (vm : Vm) (mod : Bool) (c : Vars.Context) (r : Row) : Vars.Context :=
  match restoredValue vm r.kind r.v with
  | some value => c.setValue { mod, owner := r.owner, key := r.name } value
  | none => c

/-- The persistent timers, cleared. -/
def removePersistent (s : Timer.State) : Timer.State :=
  s.timers.entries.foldl
    (fun s e => if e.2.persistent.isSome then s.removeTimer e.1 else s) s

/-- `timers[handle].paused = true` and what remains of it. -/
def hold (s : Timer.State) (handle : ℕ) (remaining : ℚ) : Timer.State :=
  match s.timer handle with
  | none => s
  | some t => s.setTimer handle { t with paused := true, remaining := some remaining }

/-- The loop over `saved.timers`. -/
def restoreTimer (s : Timer.State) (r : TimerRow) : Timer.State :=
  let handle := s.handle false
  let repeatMs := if 0 < r.repeats then some (r.repeats * 1000) else none
  let s := Timer.addTimer s (some (r.frozen * 1000)) repeatMs false
  let s := s.setPersistent handle { handler := r.handler, args := r.args }
  if r.paused then hold s handle (r.frozen * 1000) else s

def restoreTimers (rows : List TimerRow) (s : Timer.State) : Timer.State :=
  rows.foldl restoreTimer (removePersistent s)

/-- `RestoreSaveExtras`, with what `TakeSavedExtras` returns. -/
def restoreSaveExtras (vm : Vm) (saved : Option Tables) (c : Context) : Context :=
  if !c.vars.server then c
  else
    match saved with
    | none => c
    | some saved =>
      let vars := { c.vars with values := [] }
      let vars := saved.user.foldl (restoreRow vm false) vars
      let vars := saved.mod.foldl (restoreRow vm true) vars
      { vars, timers := restoreTimers saved.timers c.timers }

/-! ### What is expected of it -/

/-- The states of the timers: those after any calls, updates and restores. -/
inductive Reachable : Timer.State → Prop
  | start : Reachable {}
  | step {s s' : Timer.State} {a : Timer.Action} : Reachable s → Timer.step s a = some s' →
      Reachable s'
  | restored {s : Timer.State} (rows : List TimerRow) : Reachable s →
      Reachable (restoreTimers rows s)

/-- A persistent timer as a save keeps it. -/
structure Kept where
  handler : Value
  args : Bytes
  every : Option ℚ
  paused : Bool
  remaining : ℚ

def persistents (s : Timer.State) : List Kept :=
  s.timers.entries.filterMap fun e => e.2.persistent.map fun persistent =>
    { handler := persistent.handler, args := persistent.args, every := e.2.every
      paused := e.2.paused, remaining := left e.2 s.ms }

/-- After the restore there are the variables and the persistent timers of the saved context, and
the other timers that were there before. -/
structure Restores (saved before after : Context) : Prop where
  values : ∀ v, after.vars.value v =
    if persistentVar (saved.vars.defs v) = true then saved.vars.value v else .nil
  timers : (persistents after.timers).Perm (persistents saved.timers)
  others : ∀ handle t, t.persistent = none →
    (after.timers.timer handle = some t ↔ before.timers.timer handle = some t)

/-- A save of one state, restored in another. -/
def RoundTrips (vm : Vm) (saved before : Context) : Prop :=
  ∃ extras, luaExtrasToSave vm saved = some extras ∧
    Restores saved before (restoreSaveExtras vm (some (takeSavedExtras extras)) before)

/-- The values that come back: numbers, strings, booleans, and tables that survive `Ext.Json`. -/
def Survives (vm : Vm) : Value → Prop
  | .boolean _ | .integer _ | .number _ | .string _ => True
  | .table entries => ∃ text, vm.stringify (.table entries) = some text ∧
      vm.parse text = some (.table entries)
  | .nil | .other _ => False

/-- A context to save: what its persistent variables hold survives, and the arguments of its
timers are from `Ext.Json.Stringify`, which escapes NUL. -/
structure Saveable (vm : Vm) (c : Context) : Prop where
  reachable : Reachable c.timers
  once : (c.vars.values.map Prod.fst).Nodup
  survives : ∀ e ∈ c.vars.values, persistentVar (c.vars.defs e.1) = true → Survives vm e.2
  args : ∀ handle t persistent, c.timers.timer handle = some t →
    t.persistent = some persistent → 0 ∉ persistent.args

/-- The names that a save keeps are strings without NUL. -/
structure Plain (c : Context) : Prop where
  names : ∀ e ∈ c.vars.values, persistentVar (c.vars.defs e.1) = true →
    0 ∉ e.1.owner ∧ 0 ∉ e.1.key
  handlers : ∀ handle t persistent, c.timers.timer handle = some t →
    t.persistent = some persistent → ∃ name, persistent.handler = .string name ∧ 0 ∉ name

end Extras
end Bg3le
