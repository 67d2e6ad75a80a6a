import Mathlib.Algebra.Group.Nat.Defs
import Mathlib.Data.List.Basic
import Mathlib.Logic.Function.Basic

/-!
# Legacy maps: `vendor/stats_sets.cpp`

A legacy map is a table of buckets, each a chain of nodes. What its keys are hashed by is not
known: `legacyHashRule` infers it from where the nodes are, and `legacyInsert` files a new node by
that.
-/

namespace Bg3le
namespace StatsSets

/-- `MapNode`, without its link. -/
structure Node (V : Type) where
  key : UInt32
  value : V
deriving DecidableEq

/-- The memory of a map, by the offsets that are read: the plain layout has its table's size at 0
and its count at 16, the other one its count at 0 and its table's size at 4. -/
structure LegacyMap (V : Type) where
  word0 : UInt32
  word4 : UInt32
  /-- The table, or none where it is null. -/
  word8 : Option (ℕ → List (Node V))
  word16 : UInt32

structure LegacyHeader (V : Type) where
  hashSize : UInt32
  hashTable : ℕ → List (Node V)
  itemCount : UInt32

variable {V : Type}

/-- `legacy_header`: nothing where it says false. -/
def legacyHeader (ref : Bool) (map : LegacyMap V) : Option (LegacyHeader V) :=
  let itemCount := if ref then map.word0 else map.word16
  let hashSize := if ref then map.word4 else map.word0
  map.word8.bind fun hashTable =>
    if 0 < hashSize ∧ hashSize < 0x100000 then some ⟨hashSize, hashTable, itemCount⟩ else none

/-- The nodes of a bucket that are gone through. -/
def guarded (nodes : List (Node V)) : List (Node V) := nodes.take (2 ^ 20)

/-- The nodes that `each_node` comes to, with their buckets. -/
def eachNode (ref : Bool) (map : LegacyMap V) : List (ℕ × Node V) :=
  match legacyHeader ref map with
  | none => []
  | some h =>
    (List.range h.hashSize.toNat).flatMap fun b => (guarded (h.hashTable b)).map (b, ·)

/-- What a map hashes its keys by: the string table's hash, or the key itself. -/
inductive Rule where
  | stringTable
  | index
deriving DecidableEq

variable (hash : UInt32 → Option UInt32)

/-- The bucket of a key. -/
def Rule.bucket (rule : Rule) (hashSize key : UInt32) : Option ℕ :=
  match rule with
  | .stringTable => (hash key).map fun h => (h % hashSize).toNat
  | .index => some (key % hashSize).toNat

/-- Goes through the nodes while they agree with either rule. -/
def agreeing (hashSize : UInt32) : Bool × Bool → List (ℕ × Node V) → Bool × Bool
  | agrees, [] => agrees
  | (byHash, byIndex), (bucket, node) :: rest =>
    let byHash := byHash && Rule.stringTable.bucket hash hashSize node.key = some bucket
    let byIndex := byIndex && Rule.index.bucket hash hashSize node.key = some bucket
    if byHash || byIndex then agreeing hashSize (byHash, byIndex) rest else (byHash, byIndex)

/-- `legacy_hash_rule`: nothing for -1. -/
def legacyHashRule (ref : Bool) (map : LegacyMap V) : Option Rule :=
  match legacyHeader ref map with
  | none => none
  | some h =>
    let nodes := eachNode ref map
    let (byHash, byIndex) := agreeing hash h.hashSize (true, true) nodes
    if nodes.isEmpty then some .stringTable
    else if byHash then some .stringTable
    else if byIndex then some .index
    else none

/-- Overwrites the first node of the key, of so many. -/
def replaceFirst (key : UInt32) (value : V) : ℕ → List (Node V) → Option (List (Node V))
  | 0, _ => none
  | _, [] => none
  | n + 1, node :: rest =>
    if node.key = key then some ({ node with value } :: rest)
    else (replaceFirst key value n rest).map (node :: ·)

/-- Overwrites the key's node in the first bucket that has one. -/
def replaceIn (hashSize : UInt32) (table : ℕ → List (Node V)) (key : UInt32) (value : V) :
    Option (ℕ → List (Node V)) :=
  (List.range hashSize.toNat).findSome? fun b =>
    (replaceFirst key value (2 ^ 20) (table b)).map (Function.update table b)

/-- Why an insertion says false. -/
inductive Refusal where
  /-- "the map is not where this build has it" -/
  | notThere
  /-- "the map does not bucket its keys the way bg3le reads them" -/
  | noRule
  /-- "the name has no string-table hash" -/
  | noHash
  /-- "out of memory" -/
  | outOfMemory
deriving DecidableEq

/-- The map with another count. -/
def LegacyMap.putCount (ref : Bool) (map : LegacyMap V) (itemCount : UInt32) : LegacyMap V :=
  if ref then { map with word0 := itemCount } else { map with word16 := itemCount }

/-- `legacy_insert`, where `given` says whether the allocator gives a node. -/
def legacyInsert (ref given : Bool) (map : LegacyMap V) (key : UInt32) (value : V) :
    Except Refusal Unit × LegacyMap V :=
  match legacyHeader ref map with
  | none => (.error .notThere, map)
  | some h =>
    match replaceIn h.hashSize h.hashTable key value with
    | some table => (.ok (), { map with word8 := some table })
    | none =>
      match legacyHashRule hash ref map with
      | none => (.error .noRule, map)
      | some rule =>
        match rule.bucket hash h.hashSize key with
        | none => (.error .noHash, map)
        | some bucket =>
          if !given then (.error .outOfMemory, map)
          else
            let table := Function.update h.hashTable bucket (⟨key, value⟩ :: h.hashTable bucket)
            (.ok (), { map with word8 := some table }.putCount ref (h.itemCount + 1))

end StatsSets
end Bg3le
