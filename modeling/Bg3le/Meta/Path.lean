import Bg3le.Meta.ResolvePath

/-!
# What a path says

A path is a list of segments, a name with indices each. Against the descriptions it has a
trail, the descriptors that it goes through; along the trail it leads from a component to an
address.
-/

namespace Bg3le
namespace ComponentMeta

open Engine

/-! ## Syntax -/

/-- The number that digits denote. -/
def digitsValue (digits : Bytes) : ℕ := digits.foldl (fun n c => n * 10 + (c.toNat - 0x30)) 0

/-- An index as it is written. -/
@[ext] structure Index where
  digits : Bytes
  nonempty : digits ≠ []
  digit : ∀ c ∈ digits, 0x30 ≤ c ∧ c ≤ 0x39
  small : digitsValue digits ≤ 0xffffff

namespace Index

def value (index : Index) : ℕ := digitsValue index.digits

def text (index : Index) : Bytes := 0x5b :: (index.digits ++ [0x5d])

end Index

/-- A name, and indices after it. -/
@[ext] structure Segment where
  name : Bytes
  indices : List Index
  named : name ≠ []
  plain : ∀ c ∈ name, c ≠ 0x2e ∧ c ≠ 0x5b

namespace Segment

def text (segment : Segment) : Bytes := segment.name ++ segment.indices.flatMap Index.text

end Segment

/-- The segments with dots between them. -/
def pathText : List Segment → Bytes
  | [] => []
  | [segment] => segment.text
  | segment :: next :: rest => segment.text ++ 0x2e :: pathText (next :: rest)

/-! ## Types -/

/-- A field that a class has, through so many bases. -/
inductive HasField (tables : Tables) : ℕ → ClassFields → FieldDesc → Prop
  | own {cls : ClassFields} {f : FieldDesc} : f ∈ cls.fields → f.kind ≠ .inherit →
      HasField tables 0 cls f
  | base {depth : ℕ} {cls base : ClassFields} {f b : FieldDesc} : b ∈ cls.fields →
      b.kind = .inherit → byClassName tables b.name = some base → HasField tables depth base f →
      HasField tables (depth + 1) cls f

/-- What an index may be, by the description alone. -/
def fits (current : FieldDesc) (index : ℕ) : Bool :=
  match current.kind with
  | .pointer => index = 0
  | .scalarArray => index < current.elemCount
  | .dynArray | .map | .optional =>
    current.count.isSome && (current.data.isSome || current.elemAt.isSome)
  | _ => false

/-- The number of the descriptor that an index leads to: of an alternative, or of the element. -/
def elementNumber (current : FieldDesc) (index : ℕ) : Option ℕ :=
  if current.kind = .variant then
    if current.activeIndex.isNone ∨ current.data.isNone then none
    else current.alternatives.bind (·[index]?)
  else if current.elemSize = 0 ∨ !fits current index then none
  else current.elemDesc

/-- The descriptor of what an index leads to. It is read-only where its container is. -/
def elementDesc (tables : Tables) (current : FieldDesc) (index : ℕ) : Option FieldDesc :=
  (elementNumber current index).map fun number =>
    { tables.desc number with
      name := current.name, readOnly := (tables.desc number).readOnly || current.readOnly }

/-! ## Addresses -/

/-- A pointer's value, at which an object can be read. -/
structure PointsTo (mapping : Mapping) (addr target : ℕ) : Prop where
  value : peek mapping addr = some target
  object : 0x10000 ≤ target ∧ target < 0x800000000000 ∧ target % 8 = 0
  readable : (peek mapping target).isSome

/-- A container that is counted as it is now. -/
structure Counts (mapping : Mapping) (current : FieldDesc) (addr index : ℕ) : Prop where
  kind : current.kind = .dynArray ∨ current.kind = .map ∨ current.kind = .optional
  live : ∃ count, current.count = some count ∧ index < count mapping addr ∧
    count mapping addr ≤ kMaxContainerCount

/-- Where in a container an element is. -/
inductive Located (mapping : Mapping) (current : FieldDesc) (addr index : ℕ) : ℕ → Prop
  /-- The alternative that a variant holds. -/
  | variant {activeIndex data : Mapping → ℕ → ℕ} : current.kind = .variant →
      current.activeIndex = some activeIndex → current.data = some data →
      activeIndex mapping addr = index → data mapping addr ≠ 0 →
      Located mapping current addr index (data mapping addr)
  | pointer {target : ℕ} : current.kind = .pointer → PointsTo mapping addr target →
      Located mapping current addr index target
  | scalarArray : current.kind = .scalarArray → index < current.elemCount →
      Located mapping current addr index (addr + index * current.elemSize)
  /-- An element of a run. -/
  | run {data : Mapping → ℕ → ℕ} : Counts mapping current addr index → current.elemAt = none →
      current.data = some data → data mapping addr ≠ 0 →
      Located mapping current addr index (data mapping addr + index * current.elemSize)
  /-- An element of a container of nodes, which is asked for it. -/
  | node {elemAt : Mapping → ℕ → ℕ → ℕ} : Counts mapping current addr index →
      current.elemAt = some elemAt → elemAt mapping addr index ≠ 0 →
      Located mapping current addr index (elemAt mapping addr index)

/-- The run that an element is of: where it begins, and how many there are. -/
inductive ElementRun (mapping : Mapping) (current : FieldDesc) (addr : ℕ) : ℕ → ℕ → Prop
  | scalarArray : current.kind = .scalarArray →
      ElementRun mapping current addr addr current.elemCount
  | container {count data : Mapping → ℕ → ℕ} :
      current.kind = .dynArray ∨ current.kind = .map ∨ current.kind = .optional →
      current.elemAt = none → current.count = some count → current.data = some data →
      ElementRun mapping current addr (data mapping addr) (count mapping addr)

/-- An index moves the address to the element. Null stays null. -/
def Moves (mapping : Mapping) (current : FieldDesc) (index addr addr₁ : ℕ) : Prop :=
  if addr = 0 then addr₁ = 0
  else (isContainerKind current.kind → headerReadable mapping addr current.size) ∧
    Located mapping current addr index addr₁

/-- A dot leads through a pointer, and otherwise stays. -/
def Descends (mapping : Mapping) (current : FieldDesc) (addr addr₁ : ℕ) : Prop :=
  if current.kind = .pointer ∧ addr ≠ 0 then PointsTo mapping addr addr₁ else addr₁ = addr

/-- A container that a path ends at can be read, and is counted as a real one is. -/
def Ends (mapping : Mapping) (current : FieldDesc) (addr : ℕ) : Prop :=
  addr ≠ 0 → isContainerKind current.kind → headerReadable mapping addr current.size ∧
    ∀ count, current.count = some count → count mapping addr ≤ kMaxContainerCount

/-! ## Paths -/

/-- Indices lead from a descriptor and an address to others, through these descriptors. -/
inductive Indexed (tables : Tables) (mapping : Mapping) :
    FieldDesc → ℕ → List Index → FieldDesc → ℕ → List FieldDesc → Prop
  | nil (current : FieldDesc) (addr : ℕ) : Indexed tables mapping current addr [] current addr
      [current]
  | cons {current next last : FieldDesc} {addr addr₁ addr₂ : ℕ} {index : Index}
      {indices : List Index} {through : List FieldDesc} :
      elementDesc tables current index.value = some next →
      Moves mapping current index.value addr addr₁ →
      Indexed tables mapping next addr₁ indices last addr₂ through →
      Indexed tables mapping current addr (index :: indices) last addr₂ (current :: through)

/-- The address of a field. Null stays null. -/
def fieldAddress (addr : ℕ) (field : FieldDesc) : ℕ := if addr = 0 then 0 else addr + field.offset

/-- Segments lead from a class and an address to a descriptor and an address, through the
descriptors of each segment. From null they say what is well typed. -/
inductive Leads (tables : Tables) (mapping : Mapping) :
    ClassFields → ℕ → List Segment → FieldDesc → ℕ → List (List FieldDesc) → Prop
  | last {cls : ClassFields} {addr addr₁ : ℕ} {segment : Segment} {field current : FieldDesc}
      {through : List FieldDesc} :
      findField tables cls segment.name = some field →
      Indexed tables mapping field (fieldAddress addr field) segment.indices current addr₁
        through →
      Ends mapping current addr₁ →
      Leads tables mapping cls addr [segment] current addr₁ [through]
  | dot {cls cls' : ClassFields} {addr addr₁ addr₂ addr₃ : ℕ} {segment : Segment}
      {rest : List Segment} {field current last : FieldDesc} {through : List FieldDesc}
      {trail : List (List FieldDesc)} :
      findField tables cls segment.name = some field →
      Indexed tables mapping field (fieldAddress addr field) segment.indices current addr₁
        through →
      structTypeOf tables current = some cls' →
      Descends mapping current addr₁ addr₂ →
      Leads tables mapping cls' addr₂ rest last addr₃ trail →
      Leads tables mapping cls addr (segment :: rest) last addr₃ (through :: trail)

/-! ## Read-only marks -/

/-- Whether a segment goes through a read-only field or an element of a read-only container. -/
def Marked (through : List FieldDesc) : Prop := ∃ d ∈ through, d.readOnly = true

/-- The path goes through something read-only before a dot, and its last segment does not. -/
def LosesMark (tables : Tables) (mapping : Mapping) (cls : ClassFields) (path : Bytes)
    (base : ℕ) : Prop :=
  ∃ segments d addr before last, path = pathText segments ∧ segments.length ≤ 16 ∧
    Leads tables mapping cls base segments d addr (before ++ [last]) ∧
    (∃ through ∈ before, Marked through) ∧ ¬ Marked last

/-- What is to hold of a path that resolves to a descriptor and an address. -/
structure Resolves (tables : Tables) (mapping : Mapping) (cls : ClassFields) (path : Bytes)
    (base : ℕ) (d : FieldDesc) (addr : ℕ) (segments : List Segment)
    (trail : List (List FieldDesc)) : Prop where
  accepted : path = pathText segments ∧ segments.length ≤ 16
  /-- It is well typed, and resolves so without a component. -/
  typed : Leads tables mapping cls 0 segments d 0 trail
  static : resolvePath tables mapping cls path 0 = some (d, 0)
  address : Leads tables mapping cls base segments d addr trail
  readOnly : (∃ through ∈ trail, Marked through) → d.readOnly = true

/-- Path resolution is right about a path and a component. -/
def ResolvesRight (tables : Tables) (mapping : Mapping) (cls : ClassFields) (path : Bytes)
    (base : ℕ) : Prop :=
  ∀ d addr, resolvePath tables mapping cls path base = some (d, addr) →
    ∃ segments trail, Resolves tables mapping cls path base d addr segments trail

end ComponentMeta
end Bg3le
