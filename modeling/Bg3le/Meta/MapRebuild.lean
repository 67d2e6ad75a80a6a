import Bg3le.Engine.Containers

/-!
# Adding a key to a map of a component, and taking one out: `component_meta.cpp`

The map's entries are copied into fresh buffers and filed there anew.
-/

namespace Bg3le
namespace ComponentMeta

open Chains (walk)
open Engine

variable {K V : Type}

/-- The sizes with which a rebuild refuses a map. The values may be counted by the keys. -/
def rebuildRefuses (m : RawMap K V) : Bool :=
  2 ^ 24 < m.keysSize || m.nextSize ≠ m.keysSize || (m.valuesSize ≠ 0 && m.valuesSize ≠ m.keysSize) ||
    (0 < m.keysSize && m.buckets = 0)

/-- Whether the chain of a hash's bucket comes to the entry. -/
def reached (m : RawMap K V) (hash i : ℕ) : Bool :=
  (walk m.keysSize m.nextIds.get (· = i) (m.keysSize + 1) (m.hashKeys.get (hash % m.buckets))).isSome

/-- Memory for so many entries: the old ones in this order, and behind them the new one. -/
def copied {α : Type} (kept : ℕ) (order : ℕ → ℕ) (old : ℕ → α) (new : α) (j : ℕ) : α :=
  if j < kept then old (order j) else new

section

variable [DecidableEq K] (hash : K → Option ℕ)

/-- The loop over the keys: the last one that is the key, or nothing where a key has no hash or is
not reached. -/
def findKey (m : RawMap K V) (key : K) : List ℕ → Option ℕ → Option (Option ℕ)
  | [], found => some found
  | i :: is, found =>
    match hash (m.keys.get i) with
    | none => none
    | some h => if reached m h i then findKey m key is (if m.keys.get i = key then some i else found) else none

/-- The fresh buffers, once they were given. What is behind the entries is not written. -/
def rebuildWith (nearestPrime : ℕ → ℕ) (m : RawMap K V) (kept total : ℕ) (order : ℕ → ℕ) (key : K)
    (keyHash : ℕ) (new : V) : RawMap K V :=
  let slots := if 0 < total then total else 1
  let buckets := nearestPrime (total + 2)
  let hashes := fun i => (hash (m.keys.get i)).getD 0
  let newHashes := copied kept order hashes keyHash
  let (hashBuf, nextBuf) := RawMap.refile (fun i => newHashes i % buckets) total
  { hashKeys := ⟨buckets, hashBuf⟩
    buckets
    hashKeysSize := m.hashKeysSize
    nextIds := ⟨slots, nextBuf⟩
    nextCapacity := slots
    nextSize := total
    keys := ⟨slots, copied kept order m.keys.get key⟩
    keysCapacity := slots
    keysSize := total
    values := ⟨slots, copied kept order m.values.get new⟩
    valuesCapacity := slots
    valuesSize := if m.valuesSize = 0 then 0 else total }

/-- `map_rebuild`, for a map that can be read, with the default of its values. -/
def mapRebuild (nearestPrime : ℕ → ℕ) (heap : Heap) (new : V) (m : RawMap K V) (key : K)
    (insert : Bool) : Bool × RawMap K V :=
  let n := m.keysSize
  if !heap.allocatorReady then (false, m)
  else if rebuildRefuses m then (false, m)
  else
    match hash key with
    | none => (false, m)
    | some keyHash =>
      match findKey hash m key (List.range n) none with
      | none => (false, m)
      | some none =>
        if !insert then (insert, m)
        else if !heap.gives then (false, m)
        else (true, rebuildWith hash nearestPrime m n (n + 1) id key keyHash new)
      | some (some found) =>
        if insert then (insert, m)
        -- the last entry moves into the hole
        else if !heap.gives then (false, m)
        else (true, rebuildWith hash nearestPrime m (n - 1) (n - 1) (Function.update id found (n - 1))
          key keyHash new)

end

end ComponentMeta
end Bg3le
