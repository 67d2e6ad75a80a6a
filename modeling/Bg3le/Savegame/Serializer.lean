import Bg3le.Savegame.Visitor

/-!
# The savegame serializer: `src/savegame.cpp`

Each visit function of the source serves a reading and a writing visitor; here its two halves are
two definitions. `Caches` is what the last read left behind, which a later write falls back to.
-/

namespace Bg3le
namespace Savegame

variable {longest : ℕ}

/-- `SavedVariable`. -/
structure SavedVariable where
  owner : Bytes := []
  name : Bytes := []
  type : UInt8 := 0
  bool : Bool := false
  int : Int64 := 0
  num : UInt64 := 0
  str : Bytes := []
deriving DecidableEq

/-- `SavedTimer`. -/
structure SavedTimer where
  frozen : UInt32 := 0
  repeats : UInt32 := 0
  paused : Bool := false
  handler : Bytes := []
  args : Bytes := []
deriving DecidableEq

/-- `SaveExtras`. -/
structure SaveExtras where
  user : List SavedVariable := []
  mod : List SavedVariable := []
  timers : List SavedTimer := []
deriving DecidableEq

/-- `kSavegameVersion`. -/
def kSavegameVersion : UInt32 := 12

/-- `g_saved` and `g_extras`, each with whether it has yet to reach the mods. -/
structure Caches where
  saved : List (Bytes × Bytes) := []
  restorePending : Bool := false
  extras : SaveExtras := {}
  extrasPending : Bool := false

/-- What the Lua state answers to a write; none where it cannot answer. -/
structure LuaState where
  persistentVars : Option (List (Bytes × Bytes)) := none
  extras : Option SaveExtras := none

/-! ## PersistentVars -/

/-- What `read_persistent_variables` collects from the `LuaVariables` node. -/
def readPersistentVariables (node : Node longest) : List (Bytes × Bytes) :=
  (node.named .mod).map fun mod =>
    (fixedStringText (mod.visitFixedString .modId (intern longest [])),
      readRaw (mod.visitSTDString .luaVariables .null))

/-- `write_persistent_variables`, into the `LuaVariables` node. -/
def writePersistentVariables (caches : Caches) (lua : LuaState) : Node longest where
  name := .luaVariables
  children := (lua.persistentVars.getD caches.saved).map fun (modId, json) =>
    { name := .mod, key := .modId
      attributes := [(.modId, .fixedString (intern longest modId)),
        (.luaVariables, .stdString (makeRaw json))] }

/-! ## Variables -/

/-- `visit_value` when reading. -/
def readValue (node : Node longest) (var : SavedVariable) : SavedVariable :=
  let var := { var with type := node.visitUInt8 .type 0 }
  match var.type.toNat with
  | 5 => { var with bool := node.visitBool .value false }
  | 1 => { var with int := node.visitInt64 .value 0 }
  | 2 => { var with num := node.visitDouble .value 0 }
  | 3 => { var with str := fixedStringText (node.visitFixedString .value (intern longest [])) }
  | 4 => { var with str := readRaw (node.visitSTDString .value .null) }
  | 6 =>
    match node.readBuffer .value with
    | some str => { var with str }
    | none => { var with type := 0 }
  | _ => var

/-- `visit_value` when writing: the attributes it visits. -/
def writeValue (var : SavedVariable) : List (Name × Value longest) :=
  (.type, .uint8 var.type) ::
    match var.type.toNat with
    | 5 => [(.value, .bool var.bool)]
    | 1 => [(.value, .int64 var.int)]
    | 2 => [(.value, .double var.num)]
    | 3 => [(.value, .fixedString (intern longest var.str))]
    | 4 => [(.value, .stdString (makeRaw var.str))]
    -- type 6 has nothing to visit when writing
    | _ => []

/-- The variable of one `Variable` node. -/
def readVariable (owner : Bytes) (node : Node longest) : SavedVariable :=
  readValue node
    { owner, name := fixedStringText (node.visitFixedString .name (intern longest [])) }

/-- `read_variables`: a variable whose type is 0 is dropped. -/
def readVariables (node : Node longest) (owner : Bytes) : List SavedVariable :=
  ((node.named .variable).map (readVariable owner)).filter (·.type ≠ 0)

def writeVariable (var : SavedVariable) : Node longest where
  name := .variable
  key := .name
  attributes := (.name, .fixedString (intern longest var.name)) :: writeValue var

/-- `write_variables`. -/
def writeVariables (vars : List SavedVariable) : List (Node longest) := vars.map writeVariable

/-- `guid_text`. -/
def guidText (guid : Guid) : Bytes := guid.toString

/-- `guid_bytes`. -/
def guidBytes (text : Bytes) : Option Guid := Guid.parseGuidString (cStr text)

/-- The reading half of `visit_owned`. -/
def readOwned (region : Node longest) (outer inner key : Name) : List SavedVariable :=
  match region.enter outer with
  | some node =>
    (node.named inner).flatMap fun owner => readVariables owner (guidText (owner.visitGuid key))
  | none => []

/-- `find_if` over the groups and `push_back` into the one found, or into a new one. -/
def addToGroup (var : SavedVariable) :
    List (Bytes × List SavedVariable) → List (Bytes × List SavedVariable)
  | [] => [(var.owner, [var])]
  | (owner, list) :: groups =>
    if owner = var.owner then (owner, list ++ [var]) :: groups
    else (owner, list) :: addToGroup var groups

/-- `grouped`, by owner in order of their first variable. -/
def grouped (vars : List SavedVariable) : List (Bytes × List SavedVariable) :=
  vars.foldl (fun groups var => addToGroup var groups) []

/-- The node of one owner; an owner whose GUID does not parse has none. -/
def writeOwner (inner key : Name) (group : Bytes × List SavedVariable) : Option (Node longest) :=
  (guidBytes group.1).map fun guid =>
    { name := inner, key, attributes := [(key, .guid guid)], children := writeVariables group.2 }

/-- The writing half of `visit_owned`. -/
def writeOwned (outer inner key : Name) (vars : List SavedVariable) : Node longest where
  name := outer
  children := (grouped vars).filterMap (writeOwner inner key)

/-! ## Timers -/

/-- `visit_timer` when reading. -/
def readTimer (node : Node longest) : SavedTimer where
  frozen := node.visitFloat .frozenTime 0
  repeats := node.visitFloat .repeats 0
  paused := node.visitBool .paused false
  handler := fixedStringText (node.visitFixedString .handler (intern longest []))
  args := readRaw (node.visitSTDString .args .null)

/-- `visit_timer` when writing. -/
def writeTimer (t : SavedTimer) : Node longest where
  name := .timer
  attributes := [(.time, .double 0), (.frozenTime, .float t.frozen), (.repeats, .float t.repeats),
    (.paused, .bool t.paused), (.handler, .fixedString (intern longest t.handler)),
    (.args, .stdString (makeRaw t.args))]

/-- The reading half of `visit_timers`. -/
def readTimers (region : Node longest) : List SavedTimer :=
  match region.enter .persistentTimers >>= (·.enter .gameTimers) with
  | some node => (node.named .timer).map readTimer
  | none => []

/-- The writing half of `visit_timers`. -/
def writeTimers (timers : List SavedTimer) : Node longest where
  name := .persistentTimers
  children := [{ name := .gameTimers, children := timers.map writeTimer },
    { name := .realtimeTimers }]

/-! ## The visit -/

/-- What `visit_extras` reads from the region. -/
def readExtras (region : Node longest) : SaveExtras where
  user := readOwned region .userVariables .entityVariables .entity
  mod := readOwned region .modVariables .modVariables .module
  timers := readTimers region

/-- `visit_extras` when writing: from Lua, or what the last read held. -/
def writeExtras (caches : Caches) (lua : LuaState) : List (Node longest) :=
  let extras := lua.extras.getD caches.extras
  [writeOwned .userVariables .entityVariables .entity extras.user,
    writeOwned .modVariables .modVariables .module extras.mod, writeTimers extras.timers]

/-- `savegame_visit` of a save being read. -/
def readSave (caches : Caches) (save : Save longest) : Caches :=
  match enterRegion save .scriptExtenderSave with
  | none => caches
  | some region =>
    let version := region.visitUInt32 .extenderVersion 0
    if version > kSavegameVersion then caches
    else
      let caches :=
        match region.enter .luaVariables with
        | some node =>
          { caches with saved := readPersistentVariables node, restorePending := true }
        | none => caches
      if version ≥ 9 then { caches with extras := readExtras region, extrasPending := true }
      else caches

/-- The region that `savegame_visit` leaves in a save being written. -/
def writeRegion (caches : Caches) (lua : LuaState) : Node longest where
  name := .scriptExtenderSave
  attributes := [(.extenderVersion, .uint32 kSavegameVersion)]
  children := writePersistentVariables caches lua :: writeExtras caches lua

/-- `savegame_visit` of a save being written. -/
def writeSave (caches : Caches) (lua : LuaState) : Save longest := [writeRegion caches lua]

/-- `take_saved_persistent_vars`, by its result and the caches after it. -/
def takeSavedPersistentVars (caches : Caches) : Option (List (Bytes × Bytes)) × Caches :=
  if caches.restorePending then (some caches.saved, { caches with restorePending := false })
  else (none, caches)

/-- `take_saved_extras`. -/
def takeSavedExtras (caches : Caches) : Option SaveExtras × Caches :=
  if caches.extrasPending then (some caches.extras, { caches with extrasPending := false })
  else (none, caches)

end Savegame
end Bg3le
