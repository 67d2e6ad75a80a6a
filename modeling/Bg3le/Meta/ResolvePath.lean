import Bg3le.Engine.SafeRead

/-!
# Where a path leads in a component: `component_meta.cpp`

`resolvePath` walks a text such as `Resources[2].Amount` along the descriptions of the engine's
classes and, where it is given a component, along the component's memory. What it gives is what
`SetField` of `lua_host.cpp` writes to.
-/

namespace Bg3le
namespace ComponentMeta

open Engine

/-! ## Descriptions -/

inductive FieldKind where
  | unsupported | bool | float | double
  | int8 | uint8 | int16 | uint16 | int32 | uint32 | int64 | uint64
  | guid | entity | fixedString | lsString
  | scalarArray | struct | dynArray | map | optional | variant
  | inherit | componentHandle | conditionId | pointer | text | version
  | entityOrVec3 | bitArray | genomeVariant
deriving DecidableEq

/-- `FieldDesc`. The accessors are functions of the memory; what they give is 0 for null. Other
descriptors are known by number, as the source knows them by pointer. -/
structure FieldDesc where
  name : Bytes
  offset : ℕ := 0
  size : ℕ := 0
  kind : FieldKind
  elemKind : FieldKind := .unsupported
  elemCount : ℕ := 0
  elemSize : ℕ := 0
  typeName : Option Bytes := none
  elemTypeName : Option Bytes := none
  count : Option (Mapping → ℕ → ℕ) := none
  data : Option (Mapping → ℕ → ℕ) := none
  readOnly : Bool := false
  elemDesc : Option ℕ := none
  alternatives : Option (List ℕ) := none
  activeIndex : Option (Mapping → ℕ → ℕ) := none
  elemAt : Option (Mapping → ℕ → ℕ → ℕ) := none

/-- `ClassFields` -/
structure ClassFields where
  name : Bytes
  typeName : Bytes
  fields : List FieldDesc

/-- The family of descriptions: `kAllClasses`, and the descriptors of elements. -/
structure Tables where
  classes : List ClassFields
  desc : ℕ → FieldDesc

/-- `by_class_name`, in which the first of a name stays. -/
def byClassName (tables : Tables) (name : Bytes) : Option ClassFields :=
  tables.classes.find? (·.name = name)

/-- `by_type_name` -/
def byTypeName (tables : Tables) (name : Bytes) : Option ClassFields :=
  tables.classes.find? (·.typeName = name)

/-- `find_field`, through so many levels of bases. -/
def findFieldFrom (tables : Tables) (name : Bytes) : ℕ → ClassFields → Option FieldDesc
  | 0, _ => none
  | levels + 1, cls =>
    match cls.fields.find? fun f => f.kind ≠ .inherit && f.name = name with
    | some f => some f
    | none =>
      cls.fields.findSome? fun f =>
        if f.kind ≠ .inherit then none
        else (byClassName tables f.name).bind (findFieldFrom tables name levels)

/-- `find_field`: a class, and bases nested at most 8 deep. -/
def findField (tables : Tables) (cls : ClassFields) (name : Bytes) : Option FieldDesc :=
  findFieldFrom tables name 9 cls

/-- `struct_type_of` -/
def structTypeOf (tables : Tables) (field : FieldDesc) : Option ClassFields :=
  if field.kind ≠ .struct ∧ field.kind ≠ .pointer then none
  else field.typeName.bind (byTypeName tables)

/-- `elem_type_of` -/
def elemTypeOf (tables : Tables) (field : FieldDesc) : Option ClassFields :=
  field.elemTypeName.bind (byTypeName tables)

/-! ## Containers -/

def isContainerKind (kind : FieldKind) : Bool :=
  kind = .dynArray || kind = .map || kind = .optional || kind = .variant

/-- `header_readable` -/
def headerReadable (mapping : Mapping) (addr size : ℕ) : Bool :=
  addr ≠ 0 && (safeRead mapping addr (if size = 0 then 8 else min size 64)).isSome

/-- `kMaxContainerCount` -/
def kMaxContainerCount : ℕ := 2 ^ 24

/-- What a pointer points at, where an object could be and one can be read. -/
def pointee (mapping : Mapping) (addr : ℕ) : Option ℕ := do
  let target ← peek mapping addr
  if target = 0 then none
  else if target < 0x10000 ∨ 0x800000000000 ≤ target ∨ target % 8 ≠ 0 then none
  else if (peek mapping target).isNone then none
  else some target

/-- An address that is not null. -/
def nonNull (addr : ℕ) : Option ℕ := if addr = 0 then none else some addr

/-- Where a container that counts its elements has one. -/
def containerAddress (mapping : Mapping) (current : FieldDesc) (addr index : ℕ) : Option ℕ :=
  match current.count with
  | none => none
  | some count =>
    if current.data.isNone ∧ current.elemAt.isNone then none
    else if addr = 0 then some 0
    else if count mapping addr ≤ index ∨ kMaxContainerCount < count mapping addr then none
    else
      match current.elemAt with
      | some elemAt => nonNull (elemAt mapping addr index)
      | none => do
        let data ← nonNull ((← current.data) mapping addr)
        some (data + index * current.elemSize)

/-- The switch of `resolve_path`: where the element is. Null stays null. -/
def elementAddress (mapping : Mapping) (current : FieldDesc) (addr index : ℕ) : Option ℕ :=
  match current.kind with
  | .pointer =>
    if index ≠ 0 then none
    else if addr = 0 then some 0
    else pointee mapping addr
  | .scalarArray =>
    if current.elemCount ≤ index then none
    else if addr = 0 then some 0
    else some (addr + index * current.elemSize)
  | .dynArray | .map | .optional => containerAddress mapping current addr index
  | _ => none

/-- What a subscript makes of a descriptor and an address. -/
def element (tables : Tables) (mapping : Mapping) (current : FieldDesc) (addr index : ℕ) :
    Option (FieldDesc × ℕ) :=
  if current.kind = .variant then do
    let alternatives ← current.alternatives
    let activeIndex ← current.activeIndex
    let data ← current.data
    let alternative ← alternatives[index]?
    let next := tables.desc alternative
    let addr' ←
      if addr = 0 then some 0
      else if activeIndex mapping addr ≠ index then none
      else nonNull (data mapping addr)
    some ({ next with
      name := current.name, readOnly := next.readOnly || current.readOnly }, addr')
  else if current.elemSize = 0 then none
  else do
    let next := tables.desc (← current.elemDesc)
    let addr' ← elementAddress mapping current addr index
    some ({ next with
      name := current.name, readOnly := next.readOnly || current.readOnly }, addr')

/-! ## The text -/

/-- The digits of a subscript, as long as the number is not absurd. -/
def readIndex : ℕ → Bytes → Option ℕ
  | index, [] => some index
  | index, c :: digits =>
    if c < 0x30 ∨ 0x39 < c then none
    else if 0xffffff < index * 10 + (c.toNat - 0x30) then none
    else readIndex (index * 10 + (c.toNat - 0x30)) digits

/-- The first subscript of a text: what is between the brackets, and what follows them. -/
def bracketed : Bytes → Option (Bytes × Bytes)
  | [] => none
  | c :: text =>
    if c ≠ 0x5b ∨ !text.contains 0x5d then none
    else some (text.takeWhile (· ≠ 0x5d), (text.dropWhile (· ≠ 0x5d)).drop 1)

/-- Each subscript in turn, at most so many. -/
def subscripts (tables : Tables) (mapping : Mapping) :
    ℕ → Bytes → FieldDesc → ℕ → Option (FieldDesc × ℕ)
  | _, [], current, addr => some (current, addr)
  | 0, _ :: _, _, _ => none
  | turns + 1, c :: text, current, addr => do
    let (digits, rest) ← bracketed (c :: text)
    if addr ≠ 0 ∧ isContainerKind current.kind ∧ !headerReadable mapping addr current.size then none
    else if digits.isEmpty then none
    else do
      let index ← readIndex 0 digits
      let (current, addr) ← element tables mapping current addr index
      subscripts tables mapping turns rest current addr

/-- Where a dot leads to, through a pointer. -/
def descend (mapping : Mapping) (current : FieldDesc) (addr : ℕ) : Option ℕ :=
  if current.kind = .pointer ∧ addr ≠ 0 then pointee mapping addr else some addr

/-- The loop of `resolve_path`, of so many segments. A null address resolves types only. -/
def resolveFrom (tables : Tables) (mapping : Mapping) :
    ℕ → Bytes → ClassFields → ℕ → Option (FieldDesc × ℕ)
  | 0, _, _, _ => none
  | steps + 1, rest, cls, addr =>
    let segment := rest.takeWhile (· ≠ 0x2e)
    let name := segment.takeWhile (· ≠ 0x5b)
    let subs := segment.dropWhile (· ≠ 0x5b)
    if segment.isEmpty then none
    else if !subs.isEmpty ∧ segment.getLast? ≠ some 0x5d then none
    else if name.isEmpty then none
    else do
      let field ← findField tables cls name
      let (current, addr) ← subscripts tables mapping subs.length subs field
        (if addr = 0 then 0 else addr + field.offset)
      if !rest.contains 0x2e then
        if addr ≠ 0 ∧ isContainerKind current.kind ∧
            (!headerReadable mapping addr current.size ∨
              (current.count.any fun count => kMaxContainerCount < count mapping addr)) then none
        else some (current, addr)
      else do
        let cls ← structTypeOf tables current
        let addr ← descend mapping current addr
        resolveFrom tables mapping steps ((rest.dropWhile (· ≠ 0x2e)).drop 1) cls addr

/-- `resolve_path` -/
def resolvePath (tables : Tables) (mapping : Mapping) (cls : ClassFields) (path : Bytes)
    (base : ℕ) : Option (FieldDesc × ℕ) :=
  resolveFrom tables mapping 16 path cls base

/-! ## What Lua gets -/

/-- `reportable_kind`, through so many levels of elements. -/
def reportableKindFrom (tables : Tables) : ℕ → FieldDesc → FieldKind
  | 0, _ => .unsupported
  | levels + 1, field =>
    let usable (desc : ℕ) : Bool :=
      reportableKindFrom tables levels (tables.desc desc) ≠ .unsupported
    match field.kind with
    | .struct => if (structTypeOf tables field).isNone then .unsupported else .struct
    | .pointer =>
      if (structTypeOf tables field).isSome ∨ field.elemDesc.any usable then .pointer
      else .unsupported
    | .variant => if field.alternatives.any (·.any usable) then .variant else .unsupported
    | .scalarArray | .dynArray | .map | .optional =>
      if (field.elemKind ≠ .unsupported ∧ field.elemKind ≠ .pointer) ∨
          (elemTypeOf tables field).isSome ∨ field.elemDesc.any usable then field.kind
      else .unsupported
    | kind => kind

def reportableKind (tables : Tables) (field : FieldDesc) : FieldKind :=
  reportableKindFrom tables 5 field

/-- What `bg3le_meta_resolve` hands back. -/
structure Target where
  addr : ℕ
  kind : FieldKind
  size : ℕ
  readOnly : Bool
deriving DecidableEq

/-- `bg3le_meta_resolve` -/
def metaResolve (tables : Tables) (mapping : Mapping) (cls : ClassFields) (path : Bytes)
    (component : ℕ) : Option Target :=
  if component = 0 then none
  else do
    let (field, addr) ← resolvePath tables mapping cls path component
    if addr = 0 then none
    else some ⟨addr, reportableKind tables field, field.size, field.readOnly⟩

/-- What `l_set_field` comes to, up to the writing. -/
inductive SetField where
  /-- The path does not resolve, and may name a flag. -/
  | unresolved
  /-- "is read-only (a hash set's keys, a queue, or a value upstream only reads)" -/
  | readOnly
  /-- The value is written there, if it is of the kind. -/
  | writes (target : Target)
deriving DecidableEq

/-- The beginning of `l_set_field`. -/
def setField (tables : Tables) (mapping : Mapping) (cls : ClassFields) (path : Bytes)
    (component : ℕ) : SetField :=
  match metaResolve tables mapping cls path component with
  | none => .unresolved
  | some target => if target.readOnly then .readOnly else .writes target

end ComponentMeta
end Bg3le
