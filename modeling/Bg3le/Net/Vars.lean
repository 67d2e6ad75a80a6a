import Bg3le.Lua.Value

/-!
# Mod and user variables: `Ext.Vars` of `lua_host.cpp`

The variables of one Lua context, the writes that mark them dirty, and the flushes that send what
is due: to the other context of the process, and to peers on other machines. The tables by owner
and key are lists of variables here.
-/

namespace Bg3le
namespace Vars

open Lua

/-- A mod's variable, by the mod's UUID, or a user variable, by the entity's GUID; the owner `*`
stands for every entity. -/
structure Var where
  mod : Bool
  owner : Bytes
  key : Bytes
deriving DecidableEq

inductive OptionName
  | server | client | writeableOnServer | writeableOnClient | persistent | syncToClient
  | syncToServer | syncOnWrite | dontCache | syncOnTick
deriving DecidableEq

/-- The options a variable was registered with, where they are given. -/
abbrev Options := OptionName → Option Bool

/-- `DEFAULTS`. -/
def kDefaults : OptionName → Bool
  | .server | .writeableOnServer | .persistent | .syncOnTick => true
  | .client | .writeableOnClient | .syncToClient | .syncToServer | .syncOnWrite | .dontCache =>
    false

/-- `option`. -/
def option (defs : Option Options) (name : OptionName) : Bool :=
  (defs.bind (· name)).getD (kDefaults name)

/-- The bucket of `DirtyUserVariables` without an entity. -/
def kEverywhere : Bytes := bytes "*"

/-- A variable and a value; `nil` where the variable is unset. -/
abbrev Payload := List (Var × Value)

structure Context where
  /-- `Ext.IsServer()`. -/
  server : Bool
  /-- `mod_variable_defs` and `user_variable_defs`. -/
  modDefs : List ((Bytes × Bytes) × Options) := []
  userDefs : List (Bytes × Options) := []
  /-- `mod_variables` and `user_variables`: the variables that are not `nil`. -/
  values : Payload := []
  /-- `dirty_mod` and `dirty_user`. -/
  dirty : List Var := []

/-- `table[key]`. -/
def find {α β : Type} [DecidableEq α] (key : α) (table : List (α × β)) : Option β :=
  (table.find? fun e => e.1 = key).map Prod.snd

/-- `table[key] = value`. -/
def store {α β : Type} [DecidableEq α] (key : α) (value : β) (table : List (α × β)) :
    List (α × β) :=
  (key, value) :: table.filter fun e => e.1 ≠ key

/-- What a variable was registered with. -/
def Context.defs (c : Context) (v : Var) : Option Options :=
  if v.mod then find (v.owner, v.key) c.modDefs else find v.key c.userDefs

def Context.value (c : Context) (v : Var) : Value := (find v c.values).getD .nil

def Context.setValue (c : Context) (v : Var) (value : Value) : Context :=
  { c with values :=
      if value.isNil then c.values.filter fun e => e.1 ≠ v else store v value c.values }

def Context.mark (c : Context) (v : Var) : Context := { c with dirty := c.dirty.insert v }

/-- The option that lets this context send. -/
def Context.direction (c : Context) : OptionName := if c.server then .syncToClient else .syncToServer

/-- The option that lets this context write. -/
def Context.writeable (c : Context) : OptionName :=
  if c.server then .writeableOnServer else .writeableOnClient

/-- `syncs`. -/
def Context.syncs (c : Context) (v : Var) (onTick : Bool) : Bool :=
  option (c.defs v) c.direction && (!onTick || option (c.defs v) .syncOnTick)

/-- `out[owner][key] = {V = value}`. -/
def Payload.put (out : Payload) (v : Var) (value : Value) : Payload :=
  if out.any fun e => e.1 = v then out else out ++ [(v, value)]

/-- What a dirty variable adds to a payload; that of every entity adds those that have one. -/
def Context.gather (c : Context) (out : Payload) (v : Var) : Payload :=
  if v.owner = kEverywhere then
    (c.values.filter fun e => !e.1.mod && e.1.key = v.key).foldl
      (fun out e => Payload.put out { v with owner := e.1.owner } e.2) out
  else Payload.put out v (c.value v)

/-- `take`, of the dirty mod variables or of the dirty user variables. -/
def take (mod onTick : Bool) (c : Context) : Payload × Context :=
  let mine := c.dirty.filter fun v => v.mod = mod
  ((mine.filter fun v => c.syncs v onTick).foldl c.gather [],
    { c with dirty := c.dirty.filter fun v => v.mod ≠ mod || onTick && !c.syncs v onTick })

/-- What a flush asks: `NetInfo().Hosting`, whether the binary form of a table can be written, and
which userdata are enum or bitfield values. -/
structure Remote where
  hosting : Bool
  binary : Value → Bool
  labelled : ℕ → Bool := fun _ => false

/-- Whether `Ext.Json.Stringify(payload)` returns: a value lies four tables deep. -/
def Payload.stringifies (labelled : ℕ → Bool) (payload : Payload) : Bool :=
  payload.all fun e => e.2.stringifies labelled 4

/-- What a flush does: the payload it gathered, what it posted to the other context, the
variables it handed to `NetSyncVars`, and whether it raised. -/
structure Flushed where
  context : Context
  payload : Payload := []
  posted : Option Payload := none
  synced : Option Payload := none
  raised : Bool := false

/-- `sync_remote`: `none` where it raises, and nothing to sync on the host's own client. -/
def syncRemote (r : Remote) (c : Context) (payload : Payload) : Option (Option Payload) :=
  if !c.server && r.hosting then some none
  else if payload.all fun e => !e.2.isTable || r.binary e.2 then some (some payload)
  else none

/-- The variables a flush takes, and the context without their marks. -/
def takeAll (mod user onTick : Bool) (c : Context) : Payload × Context :=
  let (modOut, c) := if mod then take true onTick c else ([], c)
  let (userOut, c) := if user then take false onTick c else ([], c)
  (modOut ++ userOut, c)

/-- `flush`. -/
def flush (r : Remote) (mod user onTick : Bool) (c : Context) : Flushed :=
  let (payload, c) := takeAll mod user onTick c
  if payload = [] then { context := c }
  else if !payload.stringifies r.labelled then { context := c, payload, raised := true }
  else
    match syncRemote r c payload with
    | none => { context := c, payload, posted := some payload, raised := true }
    | some synced => { context := c, payload, posted := some payload, synced }

def flushVars (r : Remote) (c : Context) : Flushed := flush r true true true c

def flushVarsOnWrite (r : Remote) (v : Var) (c : Context) : Flushed :=
  if option (c.defs v) .syncOnWrite then flush r true true false c else { context := c }

def syncModVariables (r : Remote) (c : Context) : Flushed := flush r true false false c

def syncUserVariables (r : Remote) (c : Context) : Flushed := flush r false true false c

/-- `RegisterModVariable` and `RegisterUserVariable`. -/
def registerModVariable (module name : Bytes) (options : Options) (c : Context) : Context :=
  { c with modDefs := store (module, name) options c.modDefs }

def registerUserVariable (name : Bytes) (options : Options) (c : Context) : Context :=
  { c with userDefs := store name options c.userDefs }

/-- A write through `GetModVariables` or through an entity's `Vars`: refused for a variable that
is not registered, or not writeable here. -/
def write (r : Remote) (v : Var) (value : Value) (c : Context) : Flushed :=
  if c.defs v = none ∨ option (c.defs v) c.writeable = false then { context := c }
  else flushVarsOnWrite r v ((c.setValue v value).mark v)

/-- `DirtyUserVariables(guid, key)`. -/
def dirtyUserVariables (r : Remote) (guid key : Option Bytes) (c : Context) : Flushed :=
  let owner := guid.getD kEverywhere
  match key with
  | none =>
    { context := c.userDefs.foldl (fun c e => c.mark { mod := false, owner, key := e.1 }) c }
  | some key =>
    let v : Var := { mod := false, owner, key }
    flushVarsOnWrite r v (c.mark v)

/-- `DirtyModVariables(uuid, key)`. -/
def dirtyModVariables (uuid key : Option Bytes) (c : Context) : Context :=
  match uuid with
  | none => c.modDefs.foldl (fun c e => c.mark { mod := true, owner := e.1.1, key := e.1.2 }) c
  | some owner =>
    match key with
    | none =>
      (c.modDefs.filter fun e => e.1.1 = owner).foldl
        (fun c e => c.mark { mod := true, owner, key := e.1.2 }) c
    | some key => c.mark { mod := true, owner, key }

/-! ### The receivers -/

/-- `ApplyVarSync`, with what the payload says. -/
def applyVarSync (payload : Payload) (c : Context) : Context :=
  payload.foldl (fun c e => c.setValue e.1 e.2) c

/-- What a variable of a packet carries, by its `Kind`: a value, or text to parse. -/
inductive Carried where
  | plain (value : Value)
  | json (text : Bytes)
  | binary (blob : Bytes)
  | null

/-- The value that `ApplyNetVars` takes from it; `Ext.Json.Parse` is a parameter. A parsed
`false` is `nil` after `ok and parsed or nil`. -/
def Carried.value (parse : Bytes → Bool → Option Value) : Carried → Value
  | .plain value => value
  | .null => .nil
  | .json text => (parse text false).elim .nil fun v => if v.truthy then v else .nil
  | .binary blob => (parse blob true).elim .nil fun v => if v.truthy then v else .nil

/-- One variable of `ApplyNetVars`. -/
def applyNetVar (parse : Bytes → Bool → Option Value) (c : Context) (e : Var × Carried) : Context :=
  let v := e.1
  if c.defs v = none then c
  else if option (c.defs v) (if c.server then .syncToServer else .syncToClient) = false then c
  else
    let c := c.setValue v (e.2.value parse)
    if c.server && option (c.defs v) .syncToClient then c.mark v else c

/-- `ApplyNetVars`. -/
def applyNetVars (parse : Bytes → Bool → Option Value) (vars : List (Var × Carried))
    (c : Context) : Context :=
  vars.foldl (applyNetVar parse) c

/-! ### The calls of one context -/

/-- What mods and the tick do with the variables of a context. -/
inductive Action where
  | registerMod (module name : Bytes) (options : Options)
  | registerUser (name : Bytes) (options : Options)
  | write (v : Var) (value : Value)
  | dirtyUser (guid key : Option Bytes)
  | dirtyMod (uuid key : Option Bytes)
  | tick
  | syncMod
  | syncUser

def act (r : Remote) (c : Context) : Action → Flushed
  | .registerMod module name options => { context := registerModVariable module name options c }
  | .registerUser name options => { context := registerUserVariable name options c }
  | .write v value => write r v value c
  | .dirtyUser guid key => dirtyUserVariables r guid key c
  | .dirtyMod uuid key => { context := dirtyModVariables uuid key c }
  | .tick => flushVars r c
  | .syncMod => syncModVariables r c
  | .syncUser => syncUserVariables r c

/-- The variables a call marks dirty. -/
def marks (c : Context) : Action → List Var
  | .write v _ => if c.defs v = none ∨ option (c.defs v) c.writeable = false then [] else [v]
  | .dirtyUser guid none => c.userDefs.map fun e => ⟨false, guid.getD kEverywhere, e.1⟩
  | .dirtyUser guid (some key) => [⟨false, guid.getD kEverywhere, key⟩]
  | .dirtyMod none _ => c.modDefs.map fun e => ⟨true, e.1.1, e.1.2⟩
  | .dirtyMod (some owner) none =>
    (c.modDefs.filter fun e => e.1.1 = owner).map fun e => ⟨true, owner, e.1.2⟩
  | .dirtyMod (some owner) (some key) => [⟨true, owner, key⟩]
  | _ => []

/-- The context once a call has registered, stored and marked. -/
def prepared (c : Context) (a : Action) : Context :=
  let c' := match a with
    | .registerMod module name options => registerModVariable module name options c
    | .registerUser name options => registerUserVariable name options c
    | .write v value => if marks c a = [] then c else c.setValue v value
    | _ => c
  (marks c a).foldl Context.mark c'

/-- The flush a call makes, by its filters. -/
def trigger (c : Context) (a : Action) : Option (Bool × Bool × Bool) :=
  match a with
  | .write v _ =>
    if marks c a ≠ [] ∧ option (c.defs v) .syncOnWrite = true then some (true, true, false) else none
  | .dirtyUser guid (some key) =>
    if option (c.defs ⟨false, guid.getD kEverywhere, key⟩) .syncOnWrite = true then
      some (true, true, false)
    else none
  | .tick => some (true, true, true)
  | .syncMod => some (true, false, false)
  | .syncUser => some (false, true, false)
  | _ => none

end Vars
end Bg3le
