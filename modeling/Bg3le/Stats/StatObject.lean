import Bg3le.Library.Coherent
import Bg3le.Library.Run
import Bg3le.Lua.Value
import Mathlib.Data.List.DropRight
import Mathlib.Data.List.Sort

/-!
# Stat objects (`lua_host.cpp`)

The object that `Ext.Stats.Get` gives: what is read of it is cached, and it is written by assigning,
by `SetRawAttribute` and by `CopyFrom`. A table that is read is the cached one, and can be edited
in place. The engine's object is what its accessors read and write; a slot of a pool is taken to
read as it always did.
-/

namespace Bg3le
namespace StatObject

open Lua

variable {φ : Type}

/-! ## The engine's object -/

/-- An attribute of a modifier list. -/
structure Modifier where
  name : Bytes
  typeName : Bytes
  kind : ℕ
  /-- A short identifier. -/
  length_name : 0 < name.length ∧ name.length < 128
  /-- It is read as a C string. -/
  zero_notMem_name : 0 ∉ name

structure Requirement where
  id : UInt32
  intParam : Int32
  tag : Bytes
  negated : Bool

/-- An object of the engine; `φ` is a compiled list of functor groups. -/
structure Object (φ : Type) where
  modId : Option Bytes
  originalModId : Option Bytes
  modifierList : Option Bytes
  modifierListIndex : ℤ
  usingName : Option Bytes
  /-- `IndexedProperties`. -/
  props : List ℤ
  aiFlags : Bytes
  requirements : List Requirement
  functors : AList fun _ : Bytes => φ
  rollConditions : AList fun _ : Bytes => List (Bytes × Bytes)
  comboProperties : List Bytes
  comboCategories : List Bytes

/-- What a stat object reads and writes the engine's object with. -/
structure Engine (φ : Type) where
  /-- `BG3LE_STAT_WRITES` is not 0. -/
  statWrites : Bool
  /-- The attributes of the object's modifier list. -/
  modifiers : List Modifier
  tostring : Value → Bytes
  tonumber : Bytes → Option Value
  /-- `math.floor`, where it is an integer. -/
  floor : UInt64 → Option Int64
  attrFloat : ℤ → Value
  attrGuid : ℤ → Value
  attrString : ℤ → Option Bytes
  attrFlags : ℕ → ℤ → Option Bytes
  attrLabel : ℕ → ℤ → Option Bytes
  attrCondition : ℤ → Option Bytes
  attrTranslated : ℤ → Value
  showRequirements : List Requirement → Value
  showFunctors : φ → Value
  showRolls : List (Bytes × Bytes) → Value
  /-- `StatsEnumIndex`. -/
  enumIndex : Bytes → Bytes → Option Int64
  splitGroups : Bytes → Option Entries
  /-- A requirement, of its type, `Not` and `Param`. -/
  requirement : Value → Value → Value → Option Requirement
  /-- The functor groups that a text compiles to. -/
  compile : Bytes → Bytes → φ

/-- What a call meets: whether the engine's allocator is found, whether what is written lands, the
slot of the pool that a value gets, and how far the maps of a copy come. -/
structure Meets where
  ready : Bool := true
  lands : Bool := true
  slot : Option ℤ := none
  functorsTaken : Option ℕ := none
  rollsTaken : Option ℕ := none

/-! ## Lua -/

def emptyString : Value := .string []

/-- `value or ""`. -/
def orEmpty (v : Value) : Value := if v.truthy then v else emptyString

/-- `text or ""`. -/
def textOr (s : Option Bytes) : Value := .string (s.getD [])

def isNumber : Value → Bool
  | .integer _ | .number _ => true
  | _ => false

/-- `luaL_checkstring`; what follows a zero is not seen. -/
def checkString (e : Engine φ) : Value → Option Bytes
  | .string s => some (s.takeWhile (· ≠ 0))
  | v => if isNumber v then some (e.tostring v) else none

def Key.toValue : Key → Value
  | .string s => .string s
  | .integer i => .integer i
  | .number bits => .number bits
  | .boolean b => .boolean b
  | .object id => .other id

/-- A list as a table. -/
def sequence (first : ℕ) : List Value → Entries
  | [] => .nil
  | v :: vs => .cons (.integer (Int64.ofNat first)) v (sequence (first + 1) vs)

def table (vs : List Value) : Value := .table (sequence 1 vs)

/-- What `ipairs` of a table goes through. -/
def elements (entries : Entries) : List Value :=
  ((List.range entries.toList.length).map fun i =>
    entries.get (.integer (Int64.ofNat (i + 1)))).takeWhile fun v => !v.isNil

/-- `ipairs`; a string has no elements, and anything but a table or a string raises. -/
def ipairs : Value → Option (List Value)
  | .table entries => some (elements entries)
  | .string _ => some []
  | _ => none

def integerKey : Key × Value → Option (Int64 × Value)
  | (.integer i, v) => some (i, v)
  | _ => none

/-- `push_packed`. -/
def packed (entries : Entries) : List Value :=
  let integers := entries.toList.filterMap integerKey
  (integers.insertionSort fun a b => a.1 ≤ b.1).map (·.2) ++
    (entries.toList.filter fun entry => (integerKey entry).isNone).map (·.2)

/-- `%s`. -/
def isSpace (c : UInt8) : Bool := c == 32 || (9 ≤ c && c ≤ 13)

def isWord (c : UInt8) : Bool :=
  (48 ≤ c && c ≤ 57) || (65 ≤ c && c ≤ 90) || (97 ≤ c && c ≤ 122) || c == 95

/-- `gmatch("[^;]+")`. -/
def parts (s : Bytes) : List Bytes := (s.splitOn 59).filter fun part => !part.isEmpty

/-- `match("^%s*(.-)%s*$")`. -/
def trimmed (s : Bytes) : Bytes := (s.dropWhile isSpace).rdropWhile isSpace

/-- The parts that are not blank. -/
def labels (s : Bytes) : List Bytes := ((parts s).map trimmed).filter fun label => !label.isEmpty

/-! ## Reading -/

/-- `StatsAttrFind`, for the index. -/
def attrFind (e : Engine φ) (key : Key) : Option ℕ :=
  (checkString e (Key.toValue key)).bind fun wanted =>
    e.modifiers.findIdx? fun modifier => modifier.name == wanted

/-- The raw value of an attribute; a missing one reads as unset. -/
def attrAt (o : Object φ) (i : ℕ) : ℤ := o.props.getD i (-1)

/-- The value that `read_attribute` gives. -/
def readAttribute (e : Engine φ) (o : Object φ) (i : ℕ) (modifier : Modifier) : Value :=
  let raw := attrAt o i
  if modifier.typeName = bytes "AIFlags" then .string o.aiFlags
  else match modifier.kind with
    | 2 => e.attrFloat raw
    | 6 => e.attrGuid raw
    | 3 => textOr (e.attrString raw)
    | 5 => table ((parts ((e.attrFlags i raw).getD [])).map .string)
    | 4 => textOr (e.attrLabel i raw)
    | 10 => e.showRequirements o.requirements
    | 7 => ((o.functors.lookup modifier.name).map e.showFunctors).getD .nil
    | 8 => textOr (e.attrCondition raw)
    | 9 => ((o.rollConditions.lookup modifier.name).map e.showRolls).getD .nil
    | 11 => .nil
    | 12 => e.attrTranslated raw
    | _ => .integer (Int64.ofInt raw)

/-- `STAT_METHODS`. -/
def methods : List Key := [.string (bytes "CopyFrom"), .string (bytes "SetPersistence"),
  .string (bytes "SetRawAttribute"), .string (bytes "Sync")]

/-- A computed field. -/
inductive Extra where
  | name | modId | originalModId | modifierList | modifierListIndex | usingName
  | comboProperties | comboCategories | attributesUnavailable
deriving DecidableEq

/-- `STAT_EXTRAS`. -/
def extras : List (Key × Extra) :=
  [(.string (bytes "Name"), .name), (.string (bytes "ModId"), .modId),
    (.string (bytes "OriginalModId"), .originalModId),
    (.string (bytes "ModifierList"), .modifierList),
    (.string (bytes "ModifierListIndex"), .modifierListIndex), (.string (bytes "Using"), .usingName),
    (.string (bytes "ComboProperties"), .comboProperties),
    (.string (bytes "ComboCategories"), .comboCategories),
    (.string (bytes "AttributesUnavailable"), .attributesUnavailable)]

def showNames (names : List Bytes) : Value := table (names.map .string)

def Extra.value (e : Engine φ) (name : Bytes) (o : Object φ) : Extra → Value
  | .name => .string name
  | .modId => textOr o.modId
  | .originalModId => textOr o.originalModId
  | .modifierList => (o.modifierList.map Value.string).getD .nil
  | .modifierListIndex => .integer (Int64.ofInt o.modifierListIndex)
  | .usingName => textOr o.usingName
  | .comboProperties => showNames o.comboProperties
  | .comboCategories => showNames o.comboCategories
  | .attributesUnavailable =>
    if e.modifiers.length > 0 then .nil
    else .string (bytes "no attributes readable; see the stats lines in the extender log")

/-- The stat object, with the engine's object it is of. A value of `nil` in the cache is
`STAT_NIL`. -/
structure Stat (φ : Type) where
  name : Bytes
  cache : AList fun _ : Key => Value := ∅
  object : Object φ
  /-- The keys whose cached table was edited in place. -/
  edited : List Key := []

/-- What reading a key gives. -/
inductive Answer where
  | method
  | value (v : Value)
  | raised

/-- The attribute of a key, with its index. -/
def attributeOf (e : Engine φ) (key : Key) : Option (ℕ × Modifier) :=
  (attrFind e key).bind fun i => (e.modifiers[i]?).map fun modifier => (i, modifier)

/-- What the engine's object holds for a key that is not a method. -/
def held (e : Engine φ) (name : Bytes) (o : Object φ) (key : Key) : Option Value :=
  match extras.lookup key with
  | some extra => some (extra.value e name o)
  | none => (attributeOf e key).map fun (i, modifier) => readAttribute e o i modifier

/-- `stat_proxy.__index`. -/
def index (e : Engine φ) (s : Stat φ) (key : Key) : Answer × Stat φ :=
  if methods.contains key then (.method, s)
  else match s.cache.lookup key with
    | some hit => (.value hit, s)
    | none =>
      match held e s.name s.object key with
      | some value => (.value value, { s with cache := s.cache.insert key value })
      | none => (.raised, s)

/-- A value is cached, unless there is one. -/
def Stat.keep (s : Stat φ) (key : Key) (value : Value) : Stat φ :=
  if key ∈ s.cache then s else { s with cache := s.cache.insert key value }

/-- The attributes from an index on are cached, except those that were listed. -/
def pairsAttributes (e : Engine φ) (s : Stat φ) (listed : List Key) (i : ℕ) :
    List Modifier → Stat φ
  | [] => s
  | modifier :: rest =>
    let key := Key.string modifier.name
    if listed.contains key then pairsAttributes e s listed (i + 1) rest
    else
      let s := s.keep key (readAttribute e s.object i modifier)
      pairsAttributes e s (key :: listed) (i + 1) rest

/-- What `__pairs` caches before the first step of the iteration. -/
def pairs (e : Engine φ) (s : Stat φ) : Stat φ :=
  let s := extras.foldl (fun s entry => s.keep entry.1 (entry.2.value e s.name s.object)) s
  pairsAttributes e s (extras.map (·.1) ++ methods) 0 e.modifiers

/-- What a step of the iteration gives with a key. -/
def pairsNext (s : Stat φ) (key : Key) : Answer :=
  if methods.contains key then .method else .value ((s.cache.lookup key).getD .nil)

/-! ## Writing -/

/-- `STAT_WRITABLE_KINDS`. -/
inductive Writable where
  | int | float | string | enum | flags | guid | condition | roll | requirements | translated
deriving DecidableEq

def writableKinds (e : Engine φ) (kind : ℕ) : Option Writable :=
  if !e.statWrites then none
  else match kind with
    | 0 | 1 => some .int
    | 2 => some .float
    | 3 => some .string
    | 4 => some .enum
    | 5 => some .flags
    | 6 => some .guid
    | 8 => some .condition
    | 9 => some .roll
    | 10 => some .requirements
    | 12 => some .translated
    | _ => none

/-- `[!]Name[ Param]`. -/
def requirementText (e : Engine φ) (part : Bytes) : Option Value :=
  let text := trimmed part
  let negate := text.head? = some 33
  let text := if negate then text.tail.dropWhile isSpace else text
  let name := text.takeWhile isWord
  let param := (text.dropWhile isWord).dropWhile isSpace
  if name.isEmpty || param.any isSpace then none
  else
    let param : Value :=
      if param.isEmpty then .integer (-1) else (e.tonumber param).getD (.string param)
    some (.table (.cons (.string (bytes "Requirement")) (.string name)
      (.cons (.string (bytes "Not")) (.boolean negate)
      (.cons (.string (bytes "Param")) param .nil))))

/-- The value that a text of a stats file stands for; none where it raises. -/
def rawValue (e : Engine φ) (writable : Writable) (value : Value) : Option Value :=
  match value with
  | .string s =>
    match writable with
    | .int => some (if s.isEmpty then .integer 0 else (e.tonumber s).getD value)
    | .enum => some (if s.isEmpty then .integer 0 else value)
    | .float => some (if s.isEmpty then .nil else (e.tonumber s).getD value)
    | .guid => some (if s.isEmpty then .nil else value)
    | .roll => some (((e.splitGroups s).map Value.table).getD value)
    | .requirements => ((parts s).mapM (requirementText e)).map table
    | .flags => some (table ((labels s).map .string))
    | _ => some value
  | _ => some value

/-- `math.floor` of a number, as what is stored. -/
def floored (e : Engine φ) : Value → Option ℤ
  | .integer i => some i.toInt
  | .number bits => (e.floor bits).map Int64.toInt
  | _ => none

/-- Whether each label is one of the enumeration; the mask decides the slot alone. -/
def knownLabels (e : Engine φ) (typeName : Bytes) (labels : List Value) : Bool :=
  labels.all fun label => (e.enumIndex typeName (e.tostring label)).isSome

/-- The entries that `StatsRequirementsSet` is given. -/
def requirementsOf (e : Engine φ) (value : Value) : Option (List Requirement) :=
  (ipairs (if value.truthy then value else .table .nil)).bind fun rs => rs.mapM fun r => do
    e.requirement (← r.index (bytes "Requirement")) (← r.index (bytes "Not"))
      (← r.index (bytes "Param"))

def rollPair (e : Engine φ) : Key × Value → Option (Bytes × Bytes)
  | (.string name, v) => (checkString e v).map fun text => (name.takeWhile (· ≠ 0), text)
  | _ => none

/-- The entries that `StatsRollSet` is given. -/
def rollsOf (e : Engine φ) : Value → List (Bytes × Bytes)
  | .table entries => entries.toList.filterMap (rollPair e)
  | value =>
    let text := (e.tostring (orEmpty value)).takeWhile (· ≠ 0)
    if text.isEmpty then [] else [(bytes "Default", text)]

/-- What is written of a value. -/
inductive Stored where
  | raw (raw : ℤ)
  | requirements (entries : List Requirement)
  | rolls (entries : List (Bytes × Bytes))

/-- The value as it is stored, `slot` being what it gets in its pool; none where it raises. -/
def toStored (e : Engine φ) (typeName : Bytes) (slot : Option ℤ) (value : Value) :
    Writable → Option Stored
  | .int => (floored e value).map .raw
  | .enum =>
    if isNumber value then (floored e value).map .raw
    else (e.enumIndex typeName (e.tostring value)).map fun i => .raw i.toInt
  | .float =>
    if value.isNil then some (.raw (-1)) else if isNumber value then slot.map .raw else none
  | .guid | .translated => if value.isNil then some (.raw (-1)) else slot.map .raw
  | .requirements => (requirementsOf e value).map .requirements
  | .roll => some (.rolls (rollsOf e value))
  | .flags =>
    match value with
    | .string _ => if knownLabels e typeName [value] then slot.map .raw else none
    | .table entries => if knownLabels e typeName (elements entries) then slot.map .raw else none
    | _ => none
  | .string =>
    match value with
    | .string _ => slot.map .raw
    | _ => none
  | .condition =>
    match value with
    | .string s => if s.isEmpty then some (.raw (-1)) else slot.map .raw
    | _ => none

/-- What a write comes to. -/
inductive Outcome (φ : Type) where
  | raised
  /-- It returned false. -/
  | refused
  /-- It returned true; a key was dropped from the cache. -/
  | wrote (o : Object φ) (dropped : Option Key)

/-- The two sets of a stat. -/
inductive Combo where
  | properties
  | categories
deriving DecidableEq

def Combo.get (o : Object φ) : Combo → List Bytes
  | .properties => o.comboProperties
  | .categories => o.comboCategories

def Combo.set (o : Object φ) (names : List Bytes) : Combo → Object φ
  | .properties => { o with comboProperties := names }
  | .categories => { o with comboCategories := names }

/-- The set that a key is of. -/
def comboOf (key : Key) (raw : Bool) : Option Combo :=
  if raw && key = .string (bytes "ComboCategory") then some .categories
  else if key = .string (bytes "ComboProperties") then some .properties
  else if key = .string (bytes "ComboCategories") then some .categories
  else none

/-- The names that the set is given; none where it raises. A line of the loader appends. -/
def comboNames (e : Engine φ) (o : Object φ) (key : Key) (value : Value) (raw : Bool) :
    Option (List Bytes) :=
  if raw && key = .string (bytes "ComboCategory") then
    some ((o.comboCategories ++ labels (e.tostring (orEmpty value))).map (·.takeWhile (· ≠ 0)))
  else match value with
    | .table entries => (packed entries).mapM (checkString e)
    | _ => none

/-- `StatsComboSet`, whose result is returned. -/
def comboWrite (e : Engine φ) (o : Object φ) (combo : Combo) (key : Key) (value : Value)
    (raw : Bool) (meets : Meets) : Outcome φ :=
  match comboNames e o key value raw with
  | none => .raised
  | some names => if meets.ready then .wrote (combo.set o names) none else .refused

/-- `StatsRollSet`; no entry is made for no conditions. -/
def setRolls (o : Object φ) (attr : Bytes) (entries : List (Bytes × Bytes)) : Object φ :=
  let entries := entries.filter fun entry => !entry.2.isEmpty
  if entries.isEmpty && attr ∉ o.rollConditions then o
  else { o with rollConditions := o.rollConditions.insert attr entries }

/-- The attribute is written as its kind is, and its key dropped. -/
def store (o : Object φ) (i : ℕ) (attr : Bytes) (key : Key) (meets : Meets) :
    Option Stored → Outcome φ
  | none => .raised
  | some (.raw raw) =>
    if meets.lands && i < o.props.length then
      .wrote { o with props := o.props.set i (Int32.ofInt raw).toInt } (some key)
    else .raised
  | some (.requirements entries) =>
    if meets.lands then .wrote { o with requirements := entries } (some key) else .raised
  | some (.rolls entries) =>
    if meets.lands then .wrote (setRolls o attr entries) (some key) else .raised

/-- `stat_write`, of an attribute. -/
def attributeWrite (e : Engine φ) (o : Object φ) (i : ℕ) (modifier : Modifier) (key : Key)
    (value : Value) (raw : Bool) (meets : Meets) : Outcome φ :=
  if modifier.typeName = bytes "AIFlags" then
    if meets.lands then
      let text := (e.tostring (orEmpty value)).takeWhile (· ≠ 0)
      .wrote { o with aiFlags := text } (some key)
    else .raised
  else if modifier.kind = 7 then
    if raw then
      if meets.lands then
        let text := (e.tostring (orEmpty value)).takeWhile (· ≠ 0)
        let groups := e.compile modifier.name text
        .wrote { o with functors := o.functors.insert modifier.name groups } (some key)
      else .raised
    else .refused
  else if modifier.kind = 11 && !raw then .refused
  else match writableKinds e modifier.kind with
    | none => .raised
    | some writable =>
      match if raw then rawValue e writable value else some value with
      | none => .raised
      | some value =>
        store o i modifier.name key meets (toStored e modifier.typeName meets.slot value writable)

/-- `stat_write`. -/
def statWrite (e : Engine φ) (o : Object φ) (key : Key) (value : Value) (raw : Bool)
    (meets : Meets) : Outcome φ :=
  match comboOf key raw with
  | some combo => comboWrite e o combo key value raw meets
  | none =>
    match attributeOf e key with
    | none => .raised
    | some (i, modifier) => attributeWrite e o i modifier key value raw meets

/-- The members that assigning refuses. -/
def readOnly : List Key := [.string (bytes "Name"), .string (bytes "ModifierListIndex"),
  .string (bytes "ModifierList"), .string (bytes "ModId"), .string (bytes "OriginalModId"),
  .string (bytes "Using"), .string (bytes "Sync"), .string (bytes "SetPersistence"),
  .string (bytes "SetRawAttribute"), .string (bytes "CopyFrom")]

/-- The stat after a write. -/
def Stat.after (s : Stat φ) : Outcome φ → Stat φ
  | .wrote o (some key) => { s with
      object := o
      cache := s.cache.erase key
      edited := s.edited.filter fun k => k ≠ key }
  | .wrote o none => { s with object := o }
  | _ => s

/-! ## Copying -/

/-- `copy_map`: entry by entry, until the map takes no more; whether it took all. -/
def copyMap {ν : Type} (dest source : AList fun _ : Bytes => ν) (taken : Option ℕ) :
    (AList fun _ : Bytes => ν) × Bool :=
  let entries := match taken with
    | none => source.entries
    | some n => source.entries.take n
  (entries.foldl (fun dest entry => dest.insert entry.1 entry.2) dest,
    entries.length == source.entries.length)

/-- `bg3le_stats_copy_from`, within a modifier list. -/
def copyProperties (dest source : Object φ) : Object φ :=
  { dest with
    props := source.props.take dest.props.length ++ dest.props.drop source.props.length
    aiFlags := source.aiFlags }

/-- `bg3le_stats_copy_rest`, with whether it reports that it copied the maps. -/
def copyRest (dest source : Object φ) (meets : Meets) : Object φ × Bool :=
  if !meets.ready then (dest, false)
  else
    let functors := copyMap dest.functors source.functors meets.functorsTaken
    let rolls :=
      if functors.2 then copyMap dest.rollConditions source.rollConditions meets.rollsTaken
      else (dest.rollConditions, false)
    ({ dest with
      functors := functors.1
      rollConditions := rolls.1
      requirements := source.requirements
      comboProperties := source.comboProperties
      comboCategories := source.comboCategories }, functors.2 && rolls.2)

/-- `StatsCopyFrom`, with whether it succeeds; the object as far as it was copied. -/
def statsCopyFrom (dest : Object φ) (source : Option (Object φ)) (meets : Meets) : Object φ × Bool :=
  match source with
  | none => (dest, false)
  | some source =>
    if dest.modifierListIndex < 0 || source.modifierListIndex < 0 ||
        dest.modifierListIndex != source.modifierListIndex then (dest, false)
    else copyRest (copyProperties dest source) source meets

/-- `stat:CopyFrom`. A failed copy reads the modifier list for its message. -/
def Stat.copyFrom (e : Engine φ) (s : Stat φ) (source : Option (Object φ)) (meets : Meets) :
    Value → Stat φ
  | .string name =>
    if name = s.name then s
    else
      let copied := statsCopyFrom s.object source meets
      let s := { s with object := copied.1 }
      if copied.2 then { s with cache := ∅, edited := [] }
      else if source.isSome then (index e s (.string (bytes "ModifierList"))).2
      else s
  | _ => s

/-! ## The machine -/

/-- The table that is cached under a key is given other entries. -/
def Stat.edit (s : Stat φ) (key : Key) (entries : Entries) : Stat φ :=
  match s.cache.lookup key with
  | some (.table _) => { s with
      cache := s.cache.insert key (.table entries)
      edited := key :: s.edited }
  | _ => s

/-- What is done with the stat object; `source` is the object that a name finds. -/
inductive Op (φ : Type) where
  | read (key : Key)
  | pairs
  | next (key : Key)
  /-- The table that a read gave, or a table in it, is edited. -/
  | edit (key : Key) (entries : Entries)
  | assign (key : Key) (value : Value) (meets : Meets)
  | setRawAttribute (key : Key) (value : Value) (meets : Meets)
  | copyFrom (name : Value) (source : Option (Object φ)) (meets : Meets)

def step (e : Engine φ) (s : Stat φ) : Op φ → Option (Stat φ)
  | .read key => some (index e s key).2
  | .pairs => some (pairs e s)
  | .next _ => some s
  | .edit key entries => some (s.edit key entries)
  | .assign key value meets =>
    some (if readOnly.contains key then s
      else s.after (statWrite e s.object key value false meets))
  | .setRawAttribute key value meets =>
    some (s.after (statWrite e s.object key value true meets))
  | .copyFrom name source meets => some (s.copyFrom e source meets name)

/-- `Ext.Stats.Get`. -/
def get (name : Bytes) (object : Object φ) : Stat φ := { name, object }

/-- What an operation reads: a key, and the answer. -/
def answer (e : Engine φ) (s : Stat φ) : Op φ → Option (Key × Answer)
  | .read key => some (key, (index e s key).1)
  | .next key => some (key, pairsNext s key)
  | _ => none

/-- What the engine's object holds for a key. -/
def now (e : Engine φ) (s : Stat φ) (key : Key) : Answer :=
  if methods.contains key then .method
  else match held e s.name s.object key with
    | some value => .value value
    | none => .raised

/-- A read returns what the engine's object holds at that moment. -/
def Right (e : Engine φ) (s : Stat φ) (op : Op φ) : Prop :=
  ∀ key got, answer e s op = some (key, got) → got = now e s key

/-! ## The members that keys show -/

/-- A part of the engine's object. -/
inductive Member where
  | own
  | prop (i : ℕ)
  | aiFlags
  | requirements
  | functors (attr : Bytes)
  | rolls (attr : Bytes)
  | combo (combo : Combo)
deriving DecidableEq

def Modifier.member (modifier : Modifier) (i : ℕ) : Member :=
  if modifier.typeName = bytes "AIFlags" then .aiFlags
  else match modifier.kind with
    | 7 => .functors modifier.name
    | 9 => .rolls modifier.name
    | 10 => .requirements
    | _ => .prop i

/-- What a kind of value is written to. -/
def Writable.member (modifier : Modifier) (i : ℕ) : Writable → Member
  | .roll => .rolls modifier.name
  | .requirements => .requirements
  | _ => .prop i

def Extra.member : Extra → Member
  | .comboProperties => .combo .properties
  | .comboCategories => .combo .categories
  | _ => .own

/-- What a key is read from. -/
def memberOf (e : Engine φ) (key : Key) : Option Member :=
  match extras.lookup key with
  | some extra => some extra.member
  | none => (attributeOf e key).map fun (i, modifier) => modifier.member i

/-- The key that a set is read under. -/
def Combo.key : Combo → Key
  | .properties => .string (bytes "ComboProperties")
  | .categories => .string (bytes "ComboCategories")

/-- A set is not replaced while it is cached, and an attribute is not written under one key while
it is cached under another that is taken for the same member. -/
def WriteClear (e : Engine φ) (s : Stat φ) (key : Key) (value : Value) (raw : Bool)
    (meets : Meets) : Prop :=
  match comboOf key raw with
  | some combo => (comboNames e s.object key value raw).isSome → meets.ready → combo.key ∉ s.cache
  | none => ∀ i modifier, attributeOf e key = some (i, modifier) →
      ∀ other ∈ s.cache, other ≠ key → memberOf e other ≠ some (modifier.member i)

/-- A copy that stops halfway changed nothing that is cached. -/
def CopyClear (e : Engine φ) (s : Stat φ) (source : Option (Object φ)) (meets : Meets) : Prop :=
  let copied := statsCopyFrom s.object source meets
  copied.2 = false → ∀ key ∈ s.cache, held e s.name copied.1 key = held e s.name s.object key

/-- No operation leaves in the cache what it changed, no iteration goes on to a key that was
dropped, and no table is read that was edited in place. -/
def Clear (e : Engine φ) (s : Stat φ) : Op φ → Prop
  | .pairs | .edit _ _ => True
  | .read key => methods.contains key ∨ key ∉ s.edited
  | .next key => methods.contains key ∨ key ∈ s.cache ∧ key ∉ s.edited
  | .assign key value meets => key ∉ readOnly → WriteClear e s key value false meets
  | .setRawAttribute key value meets => WriteClear e s key value true meets
  | .copyFrom name source meets => name ≠ .string s.name → CopyClear e s source meets

end StatObject
end Bg3le
