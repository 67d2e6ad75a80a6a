import Bg3le.Guid
import Bg3le.Library.Binary64
import Bg3le.Library.LittleEndian
import Bg3le.Library.NumberText
import Bg3le.Lua.Value

/-!
# Writing a field (`SetField` of `lua_host.cpp`)

A value from Lua is written to a field of a component, by the kind of the field: as a whole, or
element by element into a fixed array, a dynamic array or what an optional holds. The path is
resolved.
-/

namespace Bg3le
namespace WriteField

open Lua

/-- `FieldKind`. -/
inductive FieldKind where
  | unsupported | bool | float | double
  | int8 | uint8 | int16 | uint16 | int32 | uint32 | int64 | uint64
  | guid | entity | fixedString | lsString
  | scalarArray | struct | dynArray | map | optional | variant | inherit
  | componentHandle | conditionId | pointer | text | version | entityOrVec3 | bitArray
  | genomeVariant
  deriving DecidableEq

/-- `bg3le_meta_kind_name`. -/
def FieldKind.name : FieldKind → Bytes
  | .bool => bytes "boolean"
  | .float => bytes "float"
  | .double => bytes "double"
  | .int8 => bytes "int8"
  | .uint8 => bytes "uint8"
  | .int16 => bytes "int16"
  | .uint16 => bytes "uint16"
  | .int32 => bytes "int32"
  | .uint32 => bytes "uint32"
  | .int64 => bytes "int64"
  | .uint64 => bytes "uint64"
  | .guid => bytes "guid"
  | .entity => bytes "entity"
  | .fixedString | .lsString | .text => bytes "string"
  | .scalarArray | .dynArray => bytes "array"
  | .struct => bytes "struct"
  | .map => bytes "map"
  | .optional => bytes "optional"
  | .variant => bytes "variant"
  | .inherit => bytes "inherit"
  | .componentHandle => bytes "handle"
  | .conditionId => bytes "condition"
  | .pointer => bytes "pointer"
  | .version => bytes "version"
  | .entityOrVec3 => bytes "entityorvec3"
  | .bitArray => bytes "bitarray"
  | .genomeVariant => bytes "genomevariant"
  | .unsupported => bytes "unsupported"

/-- `field_kind_size`. -/
def FieldKind.size : FieldKind → ℕ
  | .bool | .int8 | .uint8 => 1
  | .int16 | .uint16 => 2
  | .float | .int32 | .uint32 | .fixedString | .conditionId => 4
  | .double | .int64 | .uint64 | .entity | .componentHandle | .pointer => 8
  | .guid | .genomeVariant => 16
  | _ => 0

/-- The kinds from `Int8` to `Uint64`. -/
def FieldKind.isInteger : FieldKind → Bool
  | .int8 | .uint8 | .int16 | .uint16 | .int32 | .uint32 | .int64 | .uint64 => true
  | _ => false

/-- `element_assignable`. -/
def FieldKind.assignable : FieldKind → Bool
  | .bool | .int8 | .uint8 | .int16 | .uint16 | .int32 | .uint32 | .int64 | .uint64
  | .float | .double | .guid | .entity | .fixedString | .lsString | .componentHandle => true
  | _ => false

/-! ## Values -/

/-- What a userdata stands for. -/
inductive Userdata where
  | entity (handle : UInt64)
  /-- An `EnumValue`. -/
  | enumValue (label : Bytes) (value : Int64)
  /-- A `BitfieldValue`. -/
  | bitfieldValue (value : Int64)
  | other
  deriving DecidableEq

/-- A place before which a table has an item and at which it has none, as `#` gives one. -/
def IsBorder (entries : Entries) (n : ℕ) : Prop :=
  n < 2 ^ 63 ∧ (0 < n → entries.get (.integer (Int64.ofNat n)) ≠ .nil) ∧
    (n + 1 < 2 ^ 63 → entries.get (.integer (Int64.ofNat (n + 1))) = .nil)

/-- What `resolve` finds of an entry of the string table: its text, and the engine's hash of it. -/
structure StringEntry where
  text : Bytes
  hash : UInt32

/-- What conversions ask of Lua and of the engine. -/
structure Host where
  /-- The number that a string is, or nil. -/
  numeral : Bytes → Value
  /-- A float as text. -/
  floatText : UInt64 → Bytes
  userdata : ℕ → Userdata
  /-- `bg3le_fixed_string_intern`. -/
  intern : Bytes → Option UInt32
  /-- `bg3le_stats_condition_intern`. -/
  conditionIntern : Bytes → Int32
  /-- `bg3le_game_allocator_ready`. -/
  allocatorReady : Bool
  /-- `STDString::InlineCapacity`. -/
  inlineCapacity : ℕ
  /-- `lua_rawlen` of a table. -/
  rawlen : (entries : Entries) → { n // IsBorder entries n }
  /-- `bg3le_string_table`, with the entries that are interned on the way. -/
  strings : Option (UInt32 → Option StringEntry)
  /-- `resolved_strings`: the texts that were resolved before. -/
  known : UInt32 → Option Bytes
  readable : UInt32 → Bool
  /-- `Ext.Types.Unserialize` of a table into a `TimelineData`: whether it returns, and what the
  object then is. -/
  unserialize : Value → List Bytes → Bool × List Bytes

/-- `FixedString::NullIndex`. -/
def nullIndex : UInt32 := 0xffffffff

/-- `resolve`. -/
def Host.resolve (host : Host) (id : UInt32) : Option StringEntry :=
  if id = nullIndex then none else host.strings.bind fun table => table id

/-- `bg3le_fixed_string`. -/
def Host.fixedString (host : Host) (id : UInt32) : Option Bytes :=
  if host.strings.isSome then (host.known id).or ((host.resolve id).map StringEntry.text) else none

/-- A C string, up to its NUL. -/
def cString (s : Bytes) : Bytes := s.takeWhile (· ≠ 0)

section

variable (host : Host)

/-- The number that a value is, as Lua's API converts it. -/
def number (v : Value) : Value :=
  match v with
  | .integer _ | .number _ => v
  | .string s => host.numeral s
  | _ => .nil

/-- The integer that a float is, if it is one. -/
def exactInteger (d : UInt64) : Option Int64 :=
  let i := Binary64.toInt64 d
  if Binary64.ofInt64 i = d ∨ d = 0x8000000000000000 then some i else none

/-- `luaL_checkinteger`, and `lua_tointeger`; `none` where there is no integer. -/
def toInteger (v : Value) : Option Int64 :=
  match number host v with
  | .integer i => some i
  | .number d => exactInteger d
  | _ => none

/-- `luaL_checknumber`: the bits of a float. -/
def toFloat (v : Value) : Option UInt64 :=
  match number host v with
  | .integer i => some (Binary64.ofInt64 i)
  | .number d => some d
  | _ => none

/-- `lua_tolstring`. -/
def toText (v : Value) : Option Bytes :=
  match v with
  | .string s => some s
  | .integer i => some (NumberText.formatD i.toInt)
  | .number d => some (host.floatText d)
  | _ => none

/-- `entity_proxy_handle`. -/
def entityHandle (v : Value) : Option UInt64 :=
  match v with
  | .other id =>
    match host.userdata id with
    | .entity handle => some handle
    | _ => none
  | _ => none

/-- What `write_field` takes an enum or bitfield userdata for in an integer. -/
def enumNumber (v : Value) : Value :=
  match v with
  | .other id =>
    match host.userdata id with
    | .enumValue _ value | .bitfieldValue value => .integer value
    | _ => v
  | _ => v

end

/-- `t[i]` of a value that is a table. -/
def item (v : Value) (i : Int64) : Value :=
  match v with
  | .table entries => entries.get (.integer i)
  | _ => .nil

/-! ## Values that are written as a whole -/

/-- What becomes of a conversion: bytes to store, `false`, or a Lua error. -/
inductive Outcome where
  | stored (bytes : Bytes)
  | refused
  | raised
  deriving DecidableEq

def Outcome.ofOption : Option Bytes → Outcome
  | some b => .stored b
  | none => .raised

/-- The null handle of an entity or a component. -/
def nullHandle : UInt64 := 0xffc0000000000000

/-- `write_version`. -/
def versionBytes (host : Host) (v : Value) : Option Bytes := do
  if !v.isTable then none
  let part (i : Int64) : Option UInt64 := (toInteger host (item v i)).map Int64.toUInt64
  let major ← part 1
  let minor ← part 2
  let revision ← part 3
  let build ← part 4
  let version := ((major &&& 0x1ff) <<< 55) ||| ((minor &&& 0x1ff) <<< 47) |||
    ((revision &&& 0xffff) <<< 31) ||| (build &&& 0x7fffffff)
  return LittleEndian.encode 8 version.toNat

/-- The bytes of a `float`. -/
def floatBytes (d : UInt64) : Bytes := LittleEndian.encode 4 (Binary64.toBinary32 d).toNat

/-- The twelve bytes of a position. -/
def positionBytes (host : Host) (v : Value) : Option Bytes := do
  let x ← toFloat host (item v 1)
  let y ← toFloat host (item v 2)
  let z ← toFloat host (item v 3)
  return floatBytes x ++ floatBytes y ++ floatBytes z

/-- `write_field` of a kind that is stored at once; of any other kind it returns false. The bytes
of an `LSString` are its text. -/
def writeScalar (host : Host) (kind : FieldKind) (v : Value) : Outcome :=
  let v := if kind.isInteger then enumNumber host v else v
  if kind.isInteger then
    .ofOption ((toInteger host v).map fun i => LittleEndian.encode kind.size i.toUInt64.toNat)
  else match kind with
  | .version => .ofOption (versionBytes host v)
  | .entityOrVec3 =>
    if v.isTable then .ofOption ((positionBytes host v).map (· ++ [1]))
    else if v.isNil then .stored (LittleEndian.encode 8 nullHandle.toNat ++ [0])
    else .ofOption ((entityHandle host v).map fun h => LittleEndian.encode 8 h.toNat ++ [0])
  | .guid =>
    .ofOption ((toText host v).bind fun t =>
      (Guid.parseGuidString (cString t)).map fun g => (List.finRange 16).map g.bytes)
  | .entity =>
    if v.isNil then .stored (LittleEndian.encode 8 nullHandle.toNat)
    else .ofOption ((entityHandle host v).map fun h => LittleEndian.encode 8 h.toNat)
  | .componentHandle =>
    if v.isNil then .stored (LittleEndian.encode 8 nullHandle.toNat)
    else .stored (LittleEndian.encode 8 ((toInteger host v).getD 0).toUInt64.toNat)
  | .conditionId =>
    if v.isNil then .stored (LittleEndian.encode 4 0xffffffff)
    else .ofOption ((toText host v).map fun t =>
      LittleEndian.encode 4 (host.conditionIntern (cString t)).toUInt32.toNat)
  | .bool => .stored [if v.truthy then 1 else 0]
  | .float => .ofOption ((toFloat host v).map floatBytes)
  | .double => .ofOption ((toFloat host v).map fun d => LittleEndian.encode 8 d.toNat)
  | .fixedString =>
    if v.isNil then .stored (LittleEndian.encode 4 0xffffffff)
    else match toText host v with
      | none => .raised
      | some t =>
        match host.intern (cString t) with
        | some id => .stored (LittleEndian.encode 4 id.toNat)
        | none => .refused
  | .lsString =>
    match toText host v with
    | none => .refused
    | some t =>
      if host.inlineCapacity < t.length ∧ !host.allocatorReady then .refused else .stored t
  | _ => .refused

/-! ## Element by element -/

/-- What a loop does with an element. -/
inductive Each where
  | store (bytes : Bytes)
  | keep
  | stop (outcome : Outcome)
  deriving DecidableEq

/-- Writes values into elements in order, up to where the loop stops. -/
def writeEach (act : Value → Each) : List Value → List Bytes → Option Outcome × List Bytes
  | v :: vs, e :: es =>
    match act v with
    | .store b => ((writeEach act vs es).1, b :: (writeEach act vs es).2)
    | .keep => ((writeEach act vs es).1, e :: (writeEach act vs es).2)
    | .stop outcome => (some outcome, e :: es)
  | _, es => (none, es)

/-- The first so many items of a table. -/
def items (v : Value) (count : ℕ) : List Value :=
  (List.range count).map fun i => item v (Int64.ofNat (i + 1))

/-- An element, where the loop stops at one that is not written. -/
def eachElement (host : Host) (kind : FieldKind) (v : Value) : Each :=
  match writeScalar host kind v with
  | .stored b => .store b
  | outcome => .stop outcome

/-- An element of a `ScalarArray`; a hole leaves it alone. No component has one of
`GenomeVariant`s. -/
def fixedElement (host : Host) (kind : FieldKind) (v : Value) : Each :=
  if v.isNil then .keep else eachElement host kind v

inductive Result where
  | done
  | refused
  | raised
  deriving DecidableEq

def Outcome.result : Outcome → Result
  | .stored _ => .done
  | .refused => .refused
  | .raised => .raised

/-! ## Reading -/

/-- The text of a fixed string in Lua: no more than 512 bytes of it. -/
def fixedStringText (host : Host) (id : UInt32) : Bytes :=
  if id = nullIndex then []
  else match host.fixedString id with
  | none =>
    if host.strings.isSome then
      bytes "<unresolved string " ++ NumberText.formatD id.toInt32.toInt ++ bytes ">"
    else bytes "<string table not found>"
  | some text => if host.readable id then text.take 512 else bytes "<unreadable string>"

/-- The signed number of so many bytes. -/
def signed (size raw : ℕ) : Int64 := Int64.ofInt (Int.bmod raw (256 ^ size))

/-- Whether two floats are equal. -/
def floatsEqual (a b : UInt64) : Bool :=
  if Binary64.exponent a = 2047 ∧ Binary64.fraction a ≠ 0 then false
  -- a zero of either sign
  else a = b ∨ a.toNat % 2 ^ 63 = 0 ∧ b.toNat % 2 ^ 63 = 0

/-- `lua_rawequal`, where not both are tables. -/
def rawEqual (a b : Value) : Bool :=
  match a, b with
  | .nil, .nil => true
  | .boolean a, .boolean b => a == b
  | .integer a, .integer b => a == b
  | .string a, .string b => a == b
  | .number a, .number b => floatsEqual a b
  | .integer a, .number b | .number b, .integer a => exactInteger b == some a
  | .other a, .other b => a == b
  | _, _ => false

/-! ## A `GenomeVariant` -/

namespace Genome

/-- What a `GenomeVariant` holds: a value that is stored at once, its floats, or the elements of a
set. -/
@[ext] structure Variant where
  /-- The id of its type's name; none where it cannot be read. -/
  typeName : Option UInt32
  parts : List Bytes
  deriving DecidableEq

/-- A `GenomeVariant` of no type. -/
def untyped : Variant := ⟨some nullIndex, []⟩

/-- `shape_of`: how the value of a type is stored, and how many floats it has. -/
def shapeOf (type : Bytes) : Option (FieldKind × ℕ) :=
  if type = bytes "Bool" then some (.bool, 0)
  else if type = bytes "Float" then some (.float, 0)
  else if type = bytes "Int" ∨ type = bytes "Enum" then some (.int32, 0)
  else if type = bytes "Guid" then some (.guid, 0)
  else if type = bytes "FixedString" ∨ type = bytes "AnimationSimpleName" ∨
      type = bytes "AnimationSetID" ∨ type = bytes "AnimationComplexName" then
    some (.fixedString, 0)
  else if type = bytes "String" ∨ type = bytes "Path" then some (.lsString, 0)
  else if type = bytes "Vector3" then some (.scalarArray, 3)
  else if type = bytes "Rotator3" then some (.scalarArray, 4)
  else if type = bytes "Float3x3" then some (.scalarArray, 9)
  else if type = bytes "Float4x4" then some (.scalarArray, 16)
  else none

/-- `set_of`: the kind of a set's elements. -/
def setOf (type : Bytes) : Option FieldKind :=
  if type = bytes "FloatSet" then some .float
  else if type = bytes "IntSet" then some .int32
  else if type = bytes "ShortNameSet" ∨ type = bytes "FixedStringSet" then some .fixedString
  else if type = bytes "StringSet" then some .lsString
  else none

/-- The type whose value is a struct. -/
def timelineData : Bytes := bytes "TimelineData"

@[simp] theorem shapeOf_timelineData : shapeOf timelineData = none := by decide

@[simp] theorem setOf_timelineData : setOf timelineData = none := by decide

section

variable (host : Host)

/-- `type_name`. -/
def Variant.type (g : Variant) : Option Bytes :=
  g.typeName.bind fun id => if id = nullIndex then some [] else host.fixedString id

/-- `push_field` of a kind that a variant holds; none where it is not read. -/
def pushField (kind : FieldKind) (b : Bytes) : Option Value :=
  let raw := LittleEndian.decode b
  match kind with
  | .bool => some (.boolean (raw ≠ 0))
  | .int32 => some (.integer (signed 4 raw))
  | .float => some (.number (Binary64.ofBinary32 (UInt32.ofNat raw)))
  | .guid => some (.string (Guid.toString ⟨fun i => b.getD i 0⟩))
  | .fixedString => some (.string (fixedStringText host (UInt32.ofNat raw)))
  | .lsString => if b.length ≤ 2 ^ 20 then some (.string b) else none
  | _ => none

/-- What is pushed for a variant: nil, a plain value, or a table of plain values. -/
inductive Pushed where
  | value (v : Value)
  | list (vs : List Value)
  /-- A new object. -/
  | object

/-- `push_genome_variant`; none where it is not read. -/
def push (type : Bytes) (parts : List Bytes) : Option Pushed :=
  match shapeOf type, setOf type with
  | some (.scalarArray, _), _ => (parts.mapM (pushField host .float)).map .list
  | some (kind, _), _ => (parts.head?.bind (pushField host kind)).map .value
  | none, some kind =>
    if 2 ^ 16 < parts.length then none else (parts.mapM (pushField host kind)).map .list
  | none, none => some (if type = timelineData then .object else .value .nil)

/-- `same_value`, of a value that is given and what is pushed. -/
def sameValue (v : Value) : Pushed → Bool
  | .value held => rawEqual v held
  | .list held =>
    match v with
    | .table entries =>
      (host.rawlen entries).val = held.length &&
        ((items v held.length).zip held).all fun (a, b) => rawEqual a b
    | _ => false
  | .object => false

/-- The type that a value is to be written as, empty where it has none, and the value; none where
it raises. -/
def wanted (v : Value) : Option (Bytes × Value) :=
  match v with
  | .nil => some ([], v)
  | .boolean _ => some (bytes "Bool", v)
  | .integer _ => some (bytes "Int", v)
  | .number _ => some (bytes "Float", v)
  | .string _ => some (bytes "FixedString", v)
  | .table entries =>
    let type := entries.get (.string (bytes "Type"))
    let value := entries.get (.string (bytes "Value"))
    if type.isNil then some ([], value)
    else (toText host type).map fun type => (cString type, value)
  | .other _ => none

/-- Whether a value converts to a type, which is looked at before the types are compared. -/
def converts (type : Bytes) (v : Value) : Bool :=
  match shapeOf type with
  | some (.scalarArray, count) =>
    v.isTable && (items v count).all fun x => (toFloat host x).isSome
  | some (.bool, _) =>
    match v with
    | .boolean _ => true
    | _ => false
  | some (.float, _) => (toFloat host v).isSome
  | some (.int32, _) => (toInteger host v).isSome
  | some _ => (toText host v).isSome
  | none => ((setOf type).isSome || type = timelineData) && v.isTable

/-- Writes a value of a variant's own type. -/
def store (type : Bytes) (v : Value) (parts : List Bytes) : Result × List Bytes :=
  match shapeOf type, setOf type with
  | some (.scalarArray, count), _ =>
    (.done, (items v count).map fun x => ((toFloat host x).map floatBytes).getD [])
  | some (kind, _), _ =>
    match writeScalar host kind v with
    | .stored b => (.done, [b])
    | outcome => (outcome.result, parts)
  | none, some kind =>
    match v with
    | .table entries =>
      if (host.rawlen entries).val % 2 ^ 32 ≠ parts.length then (.raised, parts)
      else
        let (stopped, parts) := writeEach (eachElement host kind) (items v parts.length) parts
        (stopped.elim .done Outcome.result, parts)
    | _ => (.raised, parts)
  | none, none =>
    let (returns, parts) := host.unserialize v parts
    (if returns then .done else .raised, parts)

/-- `write_genome_variant`. -/
def write (v : Value) (g : Variant) : Result × Variant :=
  match g.type host with
  | none => (.refused, g)
  | some current =>
    if current ≠ [] ∧ (push host current g.parts).any (sameValue host v) then (.done, g)
    else match wanted host v with
    | none => (.raised, g)
    | some (type, value) =>
      if type = [] then (.done, g)
      else if !converts host type value ∨ current = [] then (.raised, g)
      else if current ≠ type then (.done, g)
      else
        let (result, parts) := store host type value g.parts
        (result, { g with parts })

end

end Genome

/-- What `write_field` writes to: bytes, the elements of a `ScalarArray`, the bits of a `BitArray`,
or a `GenomeVariant`. -/
inductive Payload where
  | bytes (bytes : Bytes)
  | elements (elements : List Bytes)
  | genome (variant : Genome.Variant)
  deriving DecidableEq

/-- `write_field`. -/
def writeField (host : Host) (kind elemKind : FieldKind) (v : Value) (p : Payload) :
    Result × Payload :=
  match kind, p with
  | .scalarArray, .elements es =>
    if elemKind.size = 0 ∨ !v.isTable then (.refused, p)
    else
      let (stopped, es) := writeEach (fixedElement host elemKind) (items v es.length) es
      (stopped.elim .done Outcome.result, .elements es)
  | .bitArray, .elements es =>
    if !v.isTable then (.refused, p)
    else (.done, .elements ((items v es.length).map fun v => [if v.truthy then 1 else 0]))
  | .genomeVariant, .genome g =>
    let (result, g) := Genome.write host v g
    (result, .genome g)
  | kind, p =>
    match writeScalar host kind v with
    | .stored b => (.done, .bytes b)
    | outcome => (outcome.result, p)

/-! ## Labels -/

/-- The labels of an enum. -/
structure EnumInfo where
  labels : List (Bytes × UInt64)
  isBitmask : Bool

/-- The value of a label. -/
def EnumInfo.lookup (e : EnumInfo) (label : Bytes) : Option UInt64 := e.labels.lookup (cString label)

/-- `enum_arg_in_place`; `none` where it raises. -/
def enumArg (host : Host) (e : Option EnumInfo) (v : Value) : Option Value :=
  let labelled (v : Value) : Option Value :=
    match e with
    | none => some v
    | some e =>
      if e.labels = [] then some v
      else match v with
        | .string s => (e.lookup s).map fun n => .integer n.toInt64
        | .table entries =>
          if e.isBitmask then do
            let bits ← (items v (host.rawlen entries).val).mapM fun i => (toText host i).bind e.lookup
            return .integer (bits.foldl (· ||| ·) 0).toInt64
          else some v
        | v => some v
  match v with
  | .other id =>
    match host.userdata id with
    | .enumValue label _ => labelled (.string label)
    | .bitfieldValue value => some (.integer value)
    | _ => some v
  | v => labelled v

/-- A table with these items from a place on. -/
def tableFrom : ℕ → List Value → Entries
  | _, [] => .nil
  | n, v :: vs => .cons (.integer (Int64.ofNat n)) v (tableFrom (n + 1) vs)

/-- `enum_elements_in_place`; `none` where it raises. -/
def enumElements (host : Host) (e : Option EnumInfo) (v : Value) (count : ℕ) : Option Value :=
  match e with
  | none => some v
  | some e =>
    if !v.isTable ∨ e.labels = [] then some v
    else ((items v count).mapM (enumArg host (some e))).map fun vs => .table (tableFrom 1 vs)

/-! ## Dynamic arrays -/

/-- `push_packed`: the values of a table, by their integer keys first. -/
def packed (entries : Entries) : List Value :=
  let present := entries.toList.filter fun entry => !entry.2.isNil
  let indexed := present.filterMap fun entry =>
    match entry.1 with
    | .integer i => some (i, entry.2)
    | _ => none
  let others := present.filter fun entry =>
    match entry.1 with
    | .integer _ => false
    | _ => true
  (indexed.mergeSort fun a b => a.1 ≤ b.1).map Prod.snd ++ others.map Prod.snd

/-- What becomes of an element of an array that has just been resized, where a `GenomeVariant` is
untyped and takes no value. -/
def elementOutcome (host : Host) (kind : FieldKind) (v : Value) : Outcome :=
  if kind = .genomeVariant then
    if (Genome.write host v Genome.untyped).1 = .raised then .raised else .refused
  else writeScalar host kind v

/-- An element of a dynamic array, where the loop does not look at what `write_field` returns. -/
def arrayElement (host : Host) (kind : FieldKind) (v : Value) : Each :=
  match elementOutcome host kind v with
  | .stored b => .store b
  | .refused => .keep
  | .raised => .stop .raised

/-! ## Fields -/

/-- What the descriptions say of a field. -/
structure Field where
  kind : FieldKind
  elemKind : FieldKind
  readOnly : Bool
  /-- `holds_pointers`. -/
  holdsPointers : Bool
  /-- The enum of the field, and that of its elements. -/
  labels : Option EnumInfo
  elemLabels : Option EnumInfo
  /-- `Data`, and `Engage` of an optional. -/
  hasData : Bool
  hasEngage : Bool
  /-- What an optional holds, and what it is when it is engaged. -/
  innerKind : FieldKind
  innerElemKind : FieldKind
  emplaced : Payload
  /-- `Resize` of a dynamic array, the class of its elements, and what a new one is. -/
  hasResize : Bool
  hasElemType : Bool
  fresh : Bytes
  /-- The largest `TSize`, of a compact set. -/
  maxSize : Option ℕ

/-- What a field holds. -/
inductive Contents where
  | plain (payload : Payload)
  | array (elements : List Bytes)
  | optional (payload : Option Payload)
  deriving DecidableEq

/-- `bg3le_meta_array_resize`: the elements that are then written. -/
def resized (host : Host) (f : Field) (count : ℕ) (es : List Bytes) : Option (List Bytes) :=
  if f.readOnly ∨ !f.hasData ∨ (count ≠ 0 ∧ !f.elemKind.assignable ∧ !f.hasElemType) then none
  else if !f.hasResize then if es.length = count then some es else none
  else if host.allocatorReady ∧ count ≤ 2 ^ 20 ∧ f.maxSize.all (count ≤ ·) then
    some (List.replicate count f.fresh)
  else none

/-- What `SetField` finds at a path. -/
inductive Place where
  | unavailable
  | unresolved
  /-- A bit of a bitmask, and the word that it is in. -/
  | flag (mask word : UInt64)
  | field (f : Field) (contents : Contents)

inductive Answer where
  | done
  | failed (why : Bytes)
  | raised
  deriving DecidableEq

/-- What the answer is when `write_field` returns. -/
def Result.answer (why : Bytes) : Result → Answer
  | .done => .done
  | .refused => .failed why
  | .raised => .raised

/-- `write_optional`, with the answer that `l_set_field` gives. -/
def writeOptional (host : Host) (f : Field) (why : Bytes) (v : Value) (held : Option Payload) :
    Answer × Option Payload :=
  if !f.hasEngage ∨ !f.hasData then (.failed why, held)
  else if v.isNil then (.done, none)
  else
    let p := held.getD f.emplaced
    match enumArg host f.labels v with
    | none => (.raised, some p)
    | some v =>
      let (result, p) := writeField host f.innerKind f.innerElemKind v p
      (result.answer why, some p)

/-- `assign_array` of a dynamic array, `none` where it returns false. -/
def assignArray (host : Host) (f : Field) (v : Value) (es : List Bytes) :
    Option (Answer × List Bytes) :=
  match v with
  | .table entries =>
    (resized host f (packed entries).length es).map fun es =>
      let (stopped, es) := writeEach (arrayElement host f.elemKind) (packed entries) es
      (if stopped.isSome then .raised else .done, es)
  | _ => none

/-- The rest of `l_set_field`, for a field written in place. -/
def writePlain (host : Host) (f : Field) (why : Bytes) (v : Value) (p : Payload) :
    Answer × Payload :=
  let count := match p with
    | .elements es => es.length
    | .bytes _ | .genome _ => 0
  let converted := do
    let v ← enumArg host f.labels v
    if f.kind = .scalarArray then enumElements host f.elemLabels v count else some v
  match converted with
  | none => (.raised, p)
  | some v =>
    let (result, p) := writeField host f.kind f.elemKind v p
    (result.answer why, p)

/-- `l_set_field` on a field; `what` is the component and the path in its messages. -/
def setOnField (host : Host) (what : Bytes) (f : Field) (v : Value) (c : Contents) :
    Answer × Contents :=
  if f.readOnly then
    (.failed (what ++ bytes (" is read-only (a hash set's keys, a queue, or a value " ++
      "upstream only reads)")), c)
  else if f.holdsPointers then
    (.failed (what ++ bytes " holds pointers (UnsupportedType)"), c)
  else
    let why := what ++ bytes " is not writable (" ++ f.kind.name ++ bytes ")"
    match f.kind, c with
    | .optional, .optional held =>
      let (answer, held) :=
        writeOptional host f (what ++ bytes " is an optional bg3le cannot write") v held
      (answer, .optional held)
    | .dynArray, .array es =>
      match assignArray host f v es with
      | some (answer, es) => (answer, .array es)
      | none => ((writePlain host f why v (.bytes [])).1, c)
    | _, .plain p =>
      let (answer, p) := writePlain host f why v p
      (answer, .plain p)
    | _, _ => (.failed why, c)

/-- `l_set_field`, for a component of this name and this path. -/
def setField (host : Host) (name path : Bytes) (place : Place) (v : Value) : Answer × Place :=
  match place with
  | .unavailable => (.failed (name ++ bytes " is not available on this entity"), place)
  | .unresolved => (.failed (name ++ bytes "." ++ path ++ bytes " does not resolve"), place)
  | .flag mask word =>
    (.done, .flag mask (if v.truthy then word ||| mask else word &&& ~~~mask))
  | .field f c =>
    let (answer, c) := setOnField host (name ++ bytes "." ++ path) f v c
    (answer, .field f c)

end WriteField
end Bg3le
