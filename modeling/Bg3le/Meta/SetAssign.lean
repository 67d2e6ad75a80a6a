import Bg3le.Engine.Containers
import Bg3le.Meta.WriteField

/-!
# Writing a hash set

A set is only ever replaced whole: a list is converted to keys, and these are filed in fresh
buffers (`set_assign_thunk` of `component_meta.cpp`, `assign_set` of `lua_host.cpp`). The view of
a set in Lua reads every key, edits the list, and assigns it.
-/

namespace Bg3le
namespace HashSets

open Chains (walk)
open Engine Lua WriteField

/-- `HashSet`. -/
structure RawSet (K : Type) where
  hashKeys : Buffer ℤ
  buckets : ℕ
  nextIds : Buffer ℤ
  nextCapacity : ℕ
  nextSize : ℕ
  keys : Buffer K
  keysCapacity : ℕ
  keysSize : ℕ

section

variable {K : Type}

/-- The keys, in their order. -/
def RawSet.toList (m : RawSet K) : List K := (List.range m.keysSize).map m.keys.get

/-! ## `set_assign_thunk` -/

/-- The sizes with which an assignment refuses the set. -/
def assignRefuses (m : RawSet K) (count : ℕ) : Bool :=
  2 ^ 24 < m.keysSize || 2 ^ 24 < m.nextSize || 2 ^ 24 < m.buckets || m.nextSize ≠ m.keysSize ||
    m.buckets < m.keysSize || 2 ^ 24 < count

variable (hashOf : K → Option ℕ)

/-- `table_reproduces`. -/
def tableReproduces (m : RawSet K) : Bool :=
  if m.buckets = 0 then m.keysSize = 0
  else (List.range m.keysSize).all fun k => (hashOf (m.keys.get k)).any fun hash =>
    (walk m.nextSize m.nextIds.get (· = k) (m.keysSize + 1)
      (m.hashKeys.get (hash % m.buckets))).isSome

/-- Whether an assignment of these keys goes through. -/
def assignTakes (heap : Heap) (m : RawSet K) (items : List K) : Bool :=
  heap.allocatorReady && !assignRefuses m items.length && tableReproduces hashOf m &&
    items.all (fun key => (hashOf key).isSome) && heap.keysBuf && heap.nextBuf && heap.hashBuf

/-- The set of the keys in fresh buffers. What is behind the keys is not written. -/
def refilled [Inhabited K] (items : List K) : RawSet K :=
  let total := items.length
  let slots := if 0 < total then total else 1
  let buckets := nearestSmallMultiHashMapPrime (total + 2)
  let hashes := fun i => ((items[i]?).bind hashOf).getD 0
  let (hashBuf, nextBuf) := RawMap.refile (fun i => hashes i % buckets) total
  { hashKeys := ⟨buckets, hashBuf⟩
    buckets
    nextIds := ⟨slots, nextBuf⟩
    nextCapacity := slots
    nextSize := total
    keys := ⟨slots, fun i => (items[i]?).getD default⟩
    keysCapacity := slots
    keysSize := total }

/-- `set_assign_thunk`. -/
def setAssign [Inhabited K] (heap : Heap) (m : RawSet K) (items : List K) : Bool × RawSet K :=
  if assignTakes hashOf heap m items then (true, refilled hashOf items) else (false, m)

end

/-! ## `assign_set` -/

/-- What a set's keys ask of Lua and of the engine, beyond what a field does. -/
structure Host extends WriteField.Host where
  /-- The ids that the text index has for the hash of a text, built again where it may be. -/
  textIndex : Bytes → List UInt32
  /-- `HashMapHash`, by the bytes of a key. -/
  hashMapHash : Bytes → ℕ
  heap : Heap
  /-- `push_enum_value`, and what a bitmask is pushed as. -/
  enumValue : Bytes → UInt64 → Value
  bitfieldValue : UInt64 → Value
  /-- `Ext._Internal.EntityOf`. -/
  entityOf : UInt64 → Value
  /-- What a key of any other kind is read as, or nothing where reading raises. -/
  readOther : Bytes → Option Value
  /-- `tostring` of a table or an object. -/
  objectText : Value → Bytes
  /-- `==` where an operand is a table or an object. -/
  objectsEqual : Value → Value → Bool
  /-- `#` of a table with these items: a place before which there is an item and at which there
  is none. -/
  border : (vs : List Value) → { n // n ≤ vs.length ∧ (vs[n]?).getD .nil = .nil ∧
    (0 < n → (vs[n - 1]?).getD .nil ≠ .nil) }

/-- `bg3le_fixed_string_hash`. -/
def Host.fixedStringHash (host : Host) (id : UInt32) : Option ℕ :=
  if id = nullIndex then some 0 else (host.resolve id).map fun entry => entry.hash.toNat

/-- `bg3le_fixed_string_index_of`. -/
def Host.indexOf (host : Host) (wanted : Bytes) : Option UInt32 :=
  if host.strings.isSome then
    (host.textIndex wanted).find? fun id => host.fixedString id = some wanted
  else none

/-- `hash_of`, by the bytes of a key. -/
def Host.hashOf (host : Host) (kind : FieldKind) (key : Bytes) : Option ℕ :=
  if kind = .fixedString then host.fixedStringHash (UInt32.ofNat (LittleEndian.decode key))
  else some (host.hashMapHash key)

/-- What the descriptions say of a set. -/
structure SetField where
  elemKind : FieldKind
  /-- The enum of the keys. -/
  labels : Option EnumInfo
  hasAssign : Bool
  elemSize : ℕ

section

variable (host : Host) (what : Bytes) (f : SetField)

/-- The key that an entry of a list is, or the answer where it is none. -/
def entryKey (i : ℕ) (v : Value) : Except Answer Bytes :=
  if f.elemKind = .fixedString then
    match toText host.toHost v with
    | none =>
      .error (.failed (what ++ bytes ": entry " ++ NumberText.formatD i ++ bytes " is not a string"))
    | some name =>
      match (host.indexOf (cString name)).or (host.intern (cString name)) with
      | some id => .ok (LittleEndian.encode 4 id.toNat)
      | none =>
        .error (.failed (what ++ bytes ": no string-table entry for " ++ cString name ++
          bytes " and one could not be made"))
  else
    match enumArg host.toHost f.labels v with
    | none => .error .raised
    | some v =>
      match writeScalar host.toHost f.elemKind v with
      | .stored b => .ok b
      | .refused =>
        .error (.failed (what ++ bytes ": entry " ++ NumberText.formatD i ++ bytes " is not a " ++
          f.elemKind.name))
      | .raised => .error .raised

/-- The keys that the entries are, each once. -/
def keysFrom : ℕ → List Value → List Bytes → Except Answer (List Bytes)
  | _, [], kept => .ok kept
  | i, v :: vs, kept =>
    match entryKey host what f i v with
    | .error answer => .error answer
    | .ok key => keysFrom (i + 1) vs (if kept.contains key then kept else kept ++ [key])

/-- Whether bg3le writes keys of a kind. -/
def keyWritable (kind : FieldKind) : Bool :=
  kind.size ≠ 0 && kind ≠ .pointer && kind ≠ .conditionId

/-- `assign_set` of a list's entries, in the order that they are visited. -/
def assignKeys (vs : List Value) (m : RawSet Bytes) : Answer × RawSet Bytes :=
  if !keyWritable f.elemKind then
    (.failed (what ++ bytes " is a set of " ++ f.elemKind.name ++
      bytes ", which bg3le cannot write"), m)
  else
    match keysFrom host what f 1 vs [] with
    | .error answer => (answer, m)
    | .ok keys =>
      let refusal := what ++ if f.elemKind = .fixedString then
        bytes " is not a set of FixedStrings that bg3le can replace"
        else bytes " is not a set bg3le can replace"
      if !f.hasAssign ∨ f.elemKind.size ≠ f.elemSize then (.failed refusal, m)
      else match setAssign (host.hashOf f.elemKind) host.heap m keys with
      | (true, m) => (.done, m)
      | (false, m) => (.failed refusal, m)

/-- `assign_set`. -/
def assignSet (given : Value) (m : RawSet Bytes) : Answer × RawSet Bytes :=
  match given with
  | .table entries => assignKeys host what f (packed entries) m
  | _ => (.raised, m)

/-! ## Reading a key -/

/-- `push_enum`. -/
def pushEnum (e : EnumInfo) (raw : ℕ) : Value :=
  if e.isBitmask then host.bitfieldValue (UInt64.ofNat raw)
  else match e.labels.find? fun label => label.2.toNat = raw with
  | some (label, value) => host.enumValue label value
  | none => .integer (Int64.ofNat raw)

/-- `read_path` of an element, or nothing where it raises. -/
def readKey (key : Bytes) : Option Value :=
  let raw := LittleEndian.decode key
  let size := f.elemKind.size
  match f.labels with
  | some e =>
    if e.labels ≠ [] ∧ size ≠ 0 ∧ size ≤ 8 then some (pushEnum host e raw) else plain raw
  | none => plain raw
where
  plain (raw : ℕ) : Option Value :=
    match f.elemKind with
    | .bool => some (.boolean (raw ≠ 0))
    | .int8 | .int16 | .int32 | .int64 => some (.integer (signed f.elemKind.size raw))
    | .uint8 | .uint16 | .uint32 | .uint64 => some (.integer (Int64.ofNat raw))
    | .entity =>
      let handle := UInt64.ofNat raw
      some (if handle = nullHandle then .nil else host.entityOf handle)
    | .componentHandle =>
      let handle := UInt64.ofNat raw
      some (if handle = nullHandle then .nil else .integer handle.toInt64)
    | .float => some (.number (Binary64.ofBinary32 (UInt32.ofNat raw)))
    | .double => some (.number (UInt64.ofNat raw))
    | .guid => some (.string (Guid.toString ⟨fun i => key.getD i 0⟩))
    | .fixedString => some (.string (fixedStringText host.toHost (UInt32.ofNat raw)))
    | _ => host.readOther key

/-! ## `HashSetView` -/

/-- `tostring`. -/
def tostring (v : Value) : Bytes :=
  match v with
  | .nil => bytes "nil"
  | .boolean b => if b then bytes "true" else bytes "false"
  | .integer i => NumberText.formatD i.toInt
  | .number d => host.floatText d
  | .string s => s
  | v => host.objectText v

/-- `Ext._Internal.EnumKey`. -/
def enumKey (v : Value) : Value :=
  match v with
  | .string s => ((f.labels.bind (·.lookup s)).map fun n => .integer n.toInt64).getD v
  | v => v

/-- `string.lower`. -/
def lower (s : Bytes) : Bytes := s.map fun c => if 0x41 ≤ c ∧ c ≤ 0x5a then c + 0x20 else c

/-- `key_of`. -/
def keyOf (v : Value) : Value :=
  if v.isNil then .nil
  else match f.elemKind with
  | .entity => ((entityHandle host.toHost v).map fun handle => .integer handle.toInt64).getD .nil
  | .guid =>
    match v with
    | .string s => .string (lower s)
    | _ => .nil
  | .fixedString | .lsString | .text => .string (tostring host v)
  | _ =>
    let v := enumKey f v
    ((toInteger host.toHost v).map .integer).getD v

/-- `==`. -/
def equal (a b : Value) : Bool :=
  match a, b with
  | .table _, _ | .other _, _ | _, .table _ | _, .other _ => host.objectsEqual a b
  | a, b => rawEqual a b

/-- `find`: the place of the first key that is equal. -/
def find (vs : List Value) (v : Value) : Option ℕ :=
  let want := keyOf host f v
  if want.isNil then none
  else (List.range (host.border vs).val).find? fun i =>
    equal host (keyOf host f ((vs[i]?).getD .nil)) want

/-- `write_keys`, which raises where the set is not written. -/
def writeKeys (vs : List Value) (m : RawSet Bytes) : Answer × RawSet Bytes :=
  match assignKeys host what f (vs.filter fun v => !v.isNil) m with
  | (.done, m) => (.done, m)
  | (_, m) => (.raised, m)

/-- `keys[#keys + 1] = v`. -/
def appended (vs : List Value) (v : Value) : List Value :=
  let n := (host.border vs).val
  vs.take n ++ v :: vs.drop (n + 1)

/-- `__newindex`. -/
def newIndex (v : Value) (present : Bool) (m : RawSet Bytes) : Answer × RawSet Bytes :=
  match m.toList.mapM (readKey host f) with
  | none => (.raised, m)
  | some keys =>
    match find host f keys v, present with
    | some _, true | none, false => (.done, m)
    | none, true => writeKeys host what f (appended host keys v) m
    | some i, false => writeKeys host what f (keys.eraseIdx i) m

end

end HashSets
end Bg3le
