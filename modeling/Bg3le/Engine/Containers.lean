import Mathlib.Algebra.Group.Nat.Defs
import Bg3le.Library.Chains

/-!
# The engine's hash maps

A map of the engine keeps its entries in parallel arrays of keys and values, files each under the
bucket of its key's hash and links the entries of a bucket through a third array. An insertion
stores in place while the arrays have room and otherwise rebuilds the map in fresh buffers.
-/

namespace Bg3le
namespace Engine

open Chains (walk)

/-- Memory on the engine's heap: how many elements there is room for, and what they are. -/
structure Buffer (α : Type) where
  room : ℕ
  get : ℕ → α

/-- A store; one outside the memory has no defined outcome. -/
def Buffer.store {α : Type} (buffer : Buffer α) (i : ℕ) (a : α) : Option (Buffer α) :=
  if i < buffer.room then some { buffer with get := Function.update buffer.get i a } else none

structure RawMap (K V : Type) where
  hashKeys : Buffer ℤ
  buckets : ℕ
  hashKeysSize : ℕ
  nextIds : Buffer ℤ
  nextCapacity : ℕ
  nextSize : ℕ
  keys : Buffer K
  keysCapacity : ℕ
  keysSize : ℕ
  values : Buffer V
  valuesCapacity : ℕ
  valuesSize : ℕ

/-- What the allocator does during one call: whether it is ready, and which of the four buffers
of a rebuild it gives. -/
structure Heap where
  allocatorReady : Bool
  keysBuf : Bool
  nextBuf : Bool
  hashBuf : Bool
  valueBuf : Bool

def Heap.gives (heap : Heap) : Bool :=
  heap.keysBuf && heap.nextBuf && heap.hashBuf && heap.valueBuf

/-- The low 32 bits, as a signed number. -/
def int32 (z : ℤ) : ℤ := Int.bmod z (2 ^ 32)

/-- What a new entry of a bucket is linked to. -/
def linkTo (prev : ℤ) (bucket : ℕ) : ℤ :=
  if prev < 0 then int32 (-2 - int32 bucket) else prev

/-- `SmallMultiHashMapPrimes`. -/
def smallMultiHashMapPrimes : List ℕ :=
  [5, 7, 11, 13, 17, 19, 23, 29, 31, 37, 41, 43, 47,
    0x35, 0x61, 0xC1, 0x185, 0x301, 0x607,
    0xC07, 0x1807, 0x3001, 0x6011, 0xC005,
    0x1800D, 0x30005, 0x60019, 0xC0001, 0x180005,
    0x30000B, 0x60000D, 0xC00005, 0x1800013,
    0x3000005, 0x6000017, 0x0C000013, 0x18000005,
    0x30000059, 0x60000005, 0x400CCCCD]

/-- `GetNearestSmallMultiHashMapPrime`: the first that is large enough, or the last. -/
def nearestSmallMultiHashMapPrime (num : ℕ) : ℕ :=
  (smallMultiHashMapPrimes.find? (num ≤ ·)).getD 0x400CCCCD

variable {K V : Type}

namespace RawMap

/-- The sizes with which an insertion refuses the map. The values may be counted by the keys. -/
def refused (m : RawMap K V) : Bool :=
  2 ^ 22 < m.keysSize || m.nextSize ≠ m.keysSize ||
    (m.valuesSize ≠ m.keysSize && m.valuesSize ≠ 0) || (0 < m.keysSize && m.buckets = 0)

/-- How many heads `m.Buckets * 4` bytes are, a product of 32 bits. -/
def headsRead (m : RawMap K V) : ℕ := m.buckets * 4 % 2 ^ 32 / 4

/-- The vector `heads`, zero past what was read into it. -/
def heads (m : RawMap K V) (bucket : ℕ) : ℤ :=
  if bucket < m.headsRead then m.hashKeys.get bucket else 0

/-- Whether every array has room for one more entry. -/
def hasRoom (m : RawMap K V) : Bool :=
  0 < m.keysSize && m.keysSize < m.keysCapacity && m.keysSize < m.nextCapacity &&
    m.keysSize < m.valuesCapacity

/-- The entries whose filing is checked before an insertion. -/
def sample (m : RawMap K V) : List ℕ :=
  let stride := if 64 < m.keysSize then m.keysSize / 64 else 1
  (List.range m.keysSize).filter (· % stride = 0)

/-- Stores a new entry in place. -/
def appendInPlace (m : RawMap K V) (bucket : ℕ) (key : K) (value : V) : Option (RawMap K V) := do
  let n := m.keysSize
  let values ← m.values.store n value
  let keys ← m.keys.store n key
  let nextIds ← m.nextIds.store n (linkTo (m.heads bucket) bucket)
  let hashKeys ← m.hashKeys.store bucket n
  let total := n + 1
  return { m with
    hashKeys, nextIds, keys, values
    nextSize := total
    valuesSize := if m.valuesSize ≠ 0 then total else m.valuesSize
    keysSize := total }

/-- The fresh heads and links once the first so many entries are filed. -/
def refile (bucketOf : ℕ → ℕ) : ℕ → (ℕ → ℤ) × (ℕ → ℤ)
  | 0 => (fun _ => -1, fun _ => 0)
  | i + 1 =>
    let (hashBuf, nextBuf) := refile bucketOf i
    let bucket := bucketOf i
    (Function.update hashBuf bucket i,
      Function.update nextBuf i (linkTo (hashBuf bucket) bucket))

/-- Files the entries and a new one in fresh buffers, `hashes` of which are by entry. The heads
are allocated by `4 * buckets`, a product of 32 bits. -/
def rebuild (m : RawMap K V) (buckets : ℕ) (hashes : ℕ → ℕ) (key : K) (value : V) :
    Option (RawMap K V) :=
  let total := m.keysSize + 1
  let hashRoom := 4 * buckets % 2 ^ 32 / 4
  let (hashBuf, nextBuf) := refile (fun i => hashes i % buckets) total
  if buckets = 0 ∨ hashRoom < buckets then none
  else some {
    hashKeys := ⟨hashRoom, hashBuf⟩
    buckets
    hashKeysSize := m.hashKeysSize
    nextIds := ⟨total, nextBuf⟩
    nextCapacity := total
    nextSize := total
    keys := ⟨total, Function.update m.keys.get m.keysSize key⟩
    keysCapacity := total
    keysSize := total
    values := ⟨total, Function.update m.values.get m.keysSize value⟩
    valuesCapacity := total
    valuesSize := if m.valuesSize = 0 then 0 else total }

end RawMap

/-! ## Maps of fixed strings -/

section FixedStrings

variable (fixedStringHash : UInt32 → Option ℕ)

/-- Whether the chain of a hash comes to the entry, with the heads that were read. An index past
the vector `next` has no defined outcome; it ends the chain here. -/
def RawMap.chainReaches (m : RawMap UInt32 V) (hash index : ℕ) : Bool :=
  (walk m.keysSize m.nextIds.get (· = index) (m.keysSize + 1) (m.heads (hash % m.buckets))).isSome

/-- Whether the sampled keys have a hash, and are filed under it. -/
def RawMap.sampleFiled (m : RawMap UInt32 V) : Bool :=
  m.sample.all fun i => (fixedStringHash (m.keys.get i)).any fun hash => m.chainReaches hash i

/-- The hashes of the first `n` keys, or nothing where one has none. -/
def RawMap.hashes (m : RawMap UInt32 V) : Option (ℕ → ℕ) :=
  if (List.range m.keysSize).all fun i => (fixedStringHash (m.keys.get i)).isSome then
    some fun i => (fixedStringHash (m.keys.get i)).getD 0
  else none

/-- Inserts a key, or overwrites its value. It returns false, or true with the index of the
value; where a store falls outside its buffer it has no defined outcome. -/
def fsMapInsert (nearestPrime : ℕ → ℕ) (heap : Heap) (m : RawMap UInt32 V) (key : UInt32)
    (value : V) : Option (Option ℕ × RawMap UInt32 V) :=
  let n := m.keysSize
  if !heap.allocatorReady || m.refused then some (none, m)
  else if 0 < n ∧ (m.keys.room < n ∨ m.nextIds.room < n) ∨
      0 < m.buckets ∧ m.hashKeys.room < m.headsRead then some (none, m)
  else if !m.sampleFiled fixedStringHash then some (none, m)
  else match (List.range n).find? (m.keys.get · = key) with
  | some i => do
    let values ← m.values.store i value
    return (some i, { m with values })
  | none =>
    match fixedStringHash key with
    | none => some (none, m)
    | some hash =>
      if m.hasRoom then do
        let m' ← m.appendInPlace (hash % m.buckets) key value
        return (some n, m')
      else if 0 < n ∧ m.values.room < n then some (none, m)
      else match m.hashes fixedStringHash with
      | none => some (none, m)
      | some hashes =>
        if !heap.gives then some (none, m)
        else do
          let m' ← m.rebuild (nearestPrime (n + 1 + 2)) (Function.update hashes n hash) key value
          return (some n, m')

end FixedStrings

/-! ## Maps of numbers -/

section Numbers

variable [DecidableEq K] (number : K → ℕ)

/-- The loop of `intMapFind`, with the steps that are left. -/
def RawMap.findFrom (m : RawMap K V) (key : K) : ℕ → ℤ → Option ℕ
  | 0, _ => none
  | steps + 1, cur =>
    if 0 ≤ cur ∧ cur.toNat < m.keysSize then
      if m.keys.room ≤ cur.toNat then none
      else if m.keys.get cur.toNat = key then some cur.toNat
      else if m.nextIds.room ≤ cur.toNat then none
      else m.findFrom key steps (m.nextIds.get cur.toNat)
    else none

/-- The index of the key's value. -/
def intMapFind (m : RawMap K V) (key : K) : Option ℕ :=
  if 2 ^ 22 < m.keysSize ∨ m.buckets = 0 then none
  else if m.hashKeys.room ≤ number key % m.buckets then none
  else m.findFrom key (m.keysSize + 1) (m.hashKeys.get (number key % m.buckets))

/-- Inserts a key, or overwrites its value, and says whether it did. -/
def intMapInsert (nearestPrime : ℕ → ℕ) (heap : Heap) (m : RawMap K V) (key : K) (value : V) :
    Option (Bool × RawMap K V) :=
  let n := m.keysSize
  if !heap.allocatorReady || m.refused then some (false, m)
  else match intMapFind number m key with
  | some i => do
    let values ← m.values.store i value
    return (true, { m with values })
  | none =>
    if 0 < n ∧ m.keys.room < n ∨ 0 < m.buckets ∧ m.hashKeys.room < m.headsRead then some (false, m)
    else if !(m.sample.all fun i => (intMapFind number m (m.keys.get i)).isSome) then some (false, m)
    else if m.hasRoom then do
      let m' ← m.appendInPlace (number key % m.buckets) key value
      return (true, m')
    else if 0 < n ∧ m.values.room < n then some (false, m)
    else if !heap.gives then some (false, m)
    else do
      let keysBuf := Function.update m.keys.get n key
      let m' ← m.rebuild (nearestPrime (n + 1 + 2)) (fun i => number (keysBuf i)) key value
      return (true, m')

end Numbers

end Engine
end Bg3le
