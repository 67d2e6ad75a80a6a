import Bg3le.Engine.SafeRead
import Bg3le.Library.Binary64
import Mathlib.Logic.Function.Basic

/-!
# Handing a tuple to a story function: `osi.cpp`

`insertTuple` puts its arguments, each encoded for the type that its column has, into a list the
way the engine does, and calls the node's function for it. `tupleValues` reads such a list back
for the listeners.
-/

namespace Bg3le
namespace OsirisTuple

open Engine

/-! ## Types -/

def kNone : UInt16 := 0
def kInteger : UInt16 := 1
def kInteger64 : UInt16 := 2
def kReal : UInt16 := 3
def kString : UInt16 := 4
def kGuidString : UInt16 := 5
def kTypeUndefined : UInt16 := 0x7f

def kTypeCount : UInt16 := 128

/-- `kMaxParams` -/
def kMaxParams : ℕ := 16

/-- `Value`, its double by its word. -/
structure Value where
  type : UInt16 := kNone
  integer : Int64 := 0
  real : UInt64 := 0
  text : Bytes := []
deriving DecidableEq

/-- `g_alias_ready` and `g_alias` -/
structure Aliases where
  ready : Bool
  base : ℕ → UInt16

/-- The loop of `resolve_alias`, of so many steps. -/
def resolveFrom (base : ℕ → UInt16) : ℕ → UInt16 → UInt16
  | 0, type => type
  | steps + 1, type =>
    if type ≤ kGuidString ∨ type = kTypeUndefined then type
    else if kTypeCount ≤ type then type
    else
      let next := base type.toNat
      if next = type ∨ next = 0 then type else resolveFrom base steps next

def resolveAlias (aliases : Aliases) (type : UInt16) : UInt16 :=
  if aliases.ready then resolveFrom aliases.base 16 type else type

def typeKnown (aliases : Aliases) (type : UInt16) : Bool :=
  type ≤ kGuidString || (type < kTypeCount && aliases.base type.toNat != 0)

/-! ## Strings -/

/-- What the story's functions see of the process and of Osiris. -/
structure Env where
  mapping : Mapping
  aliases : Aliases
  /-- `table_now`, 0 without a table. -/
  tableNow : ℕ
  /-- `AddStr`, where Osiris exports it. -/
  addStr : Option (Bytes → Bool → UInt64)
  /-- Whether Osiris exports `RemoveStr`. -/
  removeStr : Bool
  /-- `bind_defs` -/
  bindDefs : Bool
  /-- `find_string_table` -/
  findStringTable : Bool
  /-- `database().find`: the function object, and the declared types. -/
  database : Bytes → Option (ℕ × List UInt8)
  /-- `node_for` -/
  nodeFor : ℕ → ℕ
  /-- `class_of` -/
  classOf : ℕ → Bytes
  /-- `tuple_slots_ok` -/
  tupleSlotsOk : Bool
  /-- `plausible_method` -/
  plausibleMethod : ℕ → Bool
  /-- `tuple_vtable` -/
  tupleVtable : ℕ

/-- The bytes before the first NUL, which is what `c_str` shows. -/
def cStr (text : Bytes) : Bytes := text.takeWhile (· ≠ 0)

/-- `pool_now`: the records, and how many. -/
def poolNow (env : Env) : Option (ℕ × ℕ) :=
  if env.tableNow = 0 then none
  else do
    let object ← peek env.mapping env.tableNow
    if object < 0x1000 then none
    else
      let first ← peek env.mapping (object + 0x28)
      let last ← peek env.mapping (object + 0x30)
      if first < 0x1000 ∨ last ≤ first then none else some (first, (last - first) / 32)

/-- One chunk of a text: what is before the NUL, or all of it where there is none. -/
def chunkText (empty : Bool) : Bytes → Option (Bytes × Bool)
  | [] => some ([], false)
  | c :: rest =>
    if c = 0 then (if empty then none else some ([], true))
    else if c < 0x20 ∨ 0x7e < c then none
    else (chunkText false rest).map fun (text, ends) => (c :: text, ends)

/-- The loop of `record_text`, which reads up to the ends of pages. -/
def recordTextFrom (mapping : Mapping) (at' : ℕ) : ℕ → Bytes → Option Bytes
  | 0, _ => none
  | turns + 1, text =>
    if text.length < 1024 then
      let cursor := at' + text.length
      let room := 4096 - cursor % 4096
      match safeRead mapping cursor (min room 64) with
      | none => none
      | some chunk =>
        match chunkText text.isEmpty chunk with
        | none => none
        | some (more, true) => some (text ++ more)
        | some (more, false) => recordTextFrom mapping at' turns (text ++ more)
    else none

def recordText (mapping : Mapping) (at' : ℕ) : Option Bytes :=
  if at' < 0x1000 then none else recordTextFrom mapping at' 1025 []

def stringIndex (handle : UInt64) : ℕ := (handle &&& 0x1fffff).toNat

/-- `string_of`, which is `GetStr` by reading. -/
def stringOf (env : Env) (handle : UInt64) : Option Bytes := do
  let (records, count) ← poolNow env
  if stringIndex handle = 0 then return []
  if count ≤ stringIndex handle then none
  recordText env.mapping (← peek env.mapping (records + stringIndex handle * 32))

/-- `guid_looking` -/
def guidLooking (text : Bytes) : Bool :=
  let isXDigit (c : UInt8) : Bool :=
    (0x30 ≤ c && c ≤ 0x39) || (0x41 ≤ c && c ≤ 0x46) || (0x61 ≤ c && c ≤ 0x66)
  let last := text.drop (text.length - 36)
  36 ≤ text.length && (List.range 36).all fun i =>
    if i = 8 ∨ i = 13 ∨ i = 18 ∨ i = 23 then last[i]? == some 0x2d
    else (last[i]?.map isXDigit).getD false

/-- A call into Osiris. -/
inductive Call (M : Type) where
  | addStr (text : Bytes) (guid : Bool) (handle : UInt64)
  | removeStr (handle : UInt64)
  /-- The node's function, for a list. -/
  | tuple (target node list : ℕ) (memory : M)

variable {M : Type}

/-- `intern_string`: the handle, and the call that is made for it. -/
def internString (env : Env) (text : Bytes) (guid : Bool) : UInt64 × List (Call M) :=
  match poolNow env, env.addStr with
  | some _, some addStr =>
    let handle := addStr (cStr text) guid
    (handle, [.addStr (cStr text) guid handle])
  | _, _ => (0, [])

/-- `release_string` -/
def releaseString (env : Env) (handle : UInt64) : List (Call M) :=
  if env.tableNow = 0 ∨ stringIndex handle = 0 then []
  else if env.removeStr then [.removeStr handle] else []

/-! ## Values -/

/-- `TypedValueRec` -/
structure TypedValueRec where
  value : UInt64 := 0
  type : UInt16 := 0
  index : Int8 := -1
  flags : UInt8 := 0x02
deriving DecidableEq

def isString (base : UInt16) : Bool := base == kString || base == kGuidString

/-- The type that an argument is encoded as. -/
def baseFor (env : Env) (declared : UInt16) (arg : Value) : UInt16 :=
  if !typeKnown env.aliases declared then
    if arg.type = kString then (if guidLooking arg.text then kGuidString else kString)
    else arg.type
  else resolveAlias env.aliases declared

def decimal (n : ℕ) : Bytes := bytes (toString n)

/-- `encode_arg`: the value or what is wrong, the handles to release, and the calls. -/
def encodeArg (env : Env) (key : Bytes) (i : ℕ) (declared : UInt16) (arg : Value) :
    Except Bytes TypedValueRec × List UInt64 × List (Call M) :=
  if arg.type = kNone then (.ok { type := kNone, flags := 0x02 }, [], [])
  else
    let base := baseFor env declared arg
    if typeKnown env.aliases declared ∧ isString base ≠ (arg.type == kString) then
      (.error (bytes "argument " ++ decimal (i + 1) ++ bytes " of " ++ key ++
        bytes " is declared type " ++ decimal declared.toNat ++ bytes ", which wants a " ++
        if isString base then bytes "string" else bytes "number"), [], [])
    else if isString base then
      let (handle, calls) := internString env arg.text (base == kGuidString)
      if handle = 0 ∧ arg.text ≠ [] then
        (.error (bytes "argument " ++ decimal (i + 1) ++ bytes " of " ++ key ++
          bytes " could not be interned"), [], calls)
      else
        (.ok { value := handle, type := declared, flags := 0x02 ||| 0x08 },
          if handle = 0 then [] else [handle], calls)
    else
      let value :=
        if base = kReal then (Binary64.toBinary32 arg.real).toUInt64
        else if base = kInteger64 then arg.integer.toUInt64
        else arg.integer.toInt32.toUInt32.toUInt64
      (.ok { value, type := declared, flags := 0x02 ||| 0x08 }, [], [])

/-- `handle_looking` -/
def handleLooking (env : Env) (raw : UInt64) : Option Bytes :=
  if raw >>> 21 = 0 then none else (stringOf env raw).filter (· ≠ [])

/-- The low half of a word as a number. -/
def lowInteger (raw : UInt64) : Int64 := raw.toUInt32.toInt32.toInt64

/-- `value_by_shape` -/
def valueByShape (env : Env) (raw : UInt64) : Value :=
  match handleLooking env raw with
  | some text => { type := kString, text }
  | none => { type := kInteger, integer := lowInteger raw }

/-- A value of a list as `tuple_values` reads it. -/
def readValue (env : Env) (record : TypedValueRec) : Value :=
  if !typeKnown env.aliases record.type then valueByShape env record.value
  else
    let base := resolveAlias env.aliases record.type
    if isString base then { type := kString, text := (stringOf env record.value).getD [] }
    else if base = kReal then
      { type := kReal, real := Binary64.ofBinary32 record.value.toUInt32 }
    else if base = kInteger64 then { type := kInteger64, integer := record.value.toInt64 }
    else { type := kInteger, integer := lowInteger record.value }

/-! ## The list -/

/-- The memory that a tuple is in: words by their addresses, and the values by theirs. -/
structure Frame where
  word : ℕ → ℕ
  record : ℕ → Option TypedValueRec

def Frame.store (frame : Frame) (addr value : ℕ) : Frame :=
  { frame with word := Function.update frame.word addr value }

/-- Where the locals of a call are: the list, and the first of the nodes and of the values. -/
structure Locals where
  list : ℕ
  nodes : ℕ
  values : ℕ

def Locals.node (locals : Locals) (i : ℕ) : ℕ := locals.nodes + 24 * i

def Locals.value (locals : Locals) (i : ℕ) : ℕ := locals.values + 16 * i

/-- `sentinel`: the node that the list's fields from `Last` on are taken for, so that the
sentinel's `Next` is the list's `First`. -/
def sentinel (list : ℕ) : ℕ := list + 8

/-- `init` -/
def Frame.init (frame : Frame) (list vtable : ℕ) : Frame :=
  (((frame.store list vtable).store (list + 8) (sentinel list)).store (list + 16)
    (sentinel list)).store (list + 24) 0

/-- `append`, store by store. -/
def Frame.append (frame : Frame) (list node value : ℕ) : Frame :=
  let frame := ((frame.store node 0).store (node + 16) value).store (node + 8) (sentinel list)
  let prev := frame.word (list + 8)
  let frame := ((frame.store node prev).store (prev + 8) node).store (list + 8) node
  frame.store (list + 24) (frame.word (list + 24) + 1)

/-- What `insert_tuple` has done with its arguments. -/
structure Filled where
  result : Except Bytes Frame
  interned : List UInt64
  calls : List (Call Frame)

/-- The loop of `insert_tuple` from its `i`th argument on. -/
def fillFrom (env : Env) (key : Bytes) (locals : Locals) :
    ℕ → List (UInt16 × Value) → Frame → Filled
  | _, [], frame => ⟨.ok frame, [], []⟩
  | i, (declared, arg) :: rest, frame =>
    let (encoded, interned, calls) := encodeArg env key i declared arg
    match encoded with
    | .error why => ⟨.error why, interned, calls⟩
    | .ok record =>
      let frame := { frame with
        record := Function.update frame.record (locals.value i) (some record) }
      let filled := fillFrom env key locals (i + 1) rest
        (frame.append locals.list (locals.node i) (locals.value i))
      ⟨filled.result, interned ++ filled.interned, calls ++ filled.calls⟩

/-- Where a tuple goes. -/
structure Target where
  types : List UInt16
  node : ℕ
  proc : ℕ
deriving DecidableEq

/-- `insert_tuple` up to its loop: where the tuple goes, or why it goes nowhere. -/
def tupleTarget (env : Env) (key : Bytes) (args : List Value) (slot : ℕ) : Except Bytes Target :=
  if !env.bindDefs then .error (bytes "Osiris' function database is unreadable")
  else if !env.findStringTable then .error (bytes "Osiris' string pool was not found")
  else
    match env.database key with
    | none => .error (bytes "no such story function")
    | some (0, _) => .error (bytes "no such story function")
    | some (function, types) =>
      if types.length ≠ args.length then
        .error (bytes "expected " ++ decimal types.length ++ bytes " arguments, got " ++
          decimal args.length)
      else
        let node := env.nodeFor function
        if node = 0 then .error (bytes "the function has no node")
        else
          match (peek env.mapping node).filter (0x1000 ≤ ·) with
          | none => .error (bytes "node has no vtable")
          | some vtable =>
            let cls := env.classOf vtable
            if cls ≠ bytes "10CReteEvent" ∧ cls ≠ bytes "9CReteFact" then
              .error (bytes "node is a " ++ cls ++ bytes ", which holds no tuple")
            else
              match (peek env.mapping (vtable + slot)).filter fun proc =>
                  env.tupleSlotsOk && env.plausibleMethod proc with
              | none => .error (bytes "the node's tuple slot does not hold a function")
              | some proc =>
                if env.tupleVtable = 0 then .error (bytes "the tuple class was not found")
                else .ok ⟨types.map UInt8.toUInt16, node, proc⟩

/-- `insert_tuple`: what is wrong, or nothing, and the calls that it makes. -/
def insertTuple (env : Env) (locals : Locals) (frame : Frame) (key : Bytes) (args : List Value)
    (slot : ℕ) : Except Bytes Unit × List (Call Frame) :=
  match tupleTarget env key args slot with
  | .error why => (.error why, [])
  | .ok target =>
    let filled := fillFrom env key locals 0 (target.types.zip args)
      (frame.init locals.list env.tupleVtable)
    let released := filled.interned.flatMap (releaseString env)
    match filled.result with
    | .error why => (.error why, filled.calls ++ released)
    | .ok frame =>
      (.ok (), filled.calls ++ [.tuple target.proc target.node locals.list frame] ++ released)

/-- The loop of `tuple_values`, over so many nodes at most. -/
def tupleValuesFrom (env : Env) (frame : Frame) (list : ℕ) : ℕ → ℕ → List Value
  | 0, _ => []
  | turns + 1, node =>
    if node = 0 ∨ node = sentinel list then []
    else
      let item := frame.word (node + 16)
      match (frame.record item).filter fun _ => 0x1000 ≤ item with
      | none => []
      | some record =>
        readValue env record :: tupleValuesFrom env frame list turns (frame.word (node + 8))

/-- `tuple_values` -/
def tupleValues (env : Env) (frame : Frame) (list : ℕ) : List Value :=
  if list = 0 then [] else tupleValuesFrom env frame list kMaxParams (frame.word (list + 16))

end OsirisTuple
end Bg3le
