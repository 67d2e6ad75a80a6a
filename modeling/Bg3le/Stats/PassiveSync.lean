import Mathlib.Data.UInt
import Mathlib.Logic.Function.Basic

/-!
# Rebuilding a passive: `vendor/stat_sync.cpp`

The passives are in a map that chains its nodes off a table of buckets. To rebuild one, its node
is taken out of the map, the engine's loader puts a fresh node in, and what that node holds moves
to the old one, which goes back into the map.
-/

namespace Bg3le
namespace StatSync

/-- `PassiveNode`. Addresses are numbers, and 0 is null. -/
structure PassiveNode (V : Type) where
  next : ℕ
  key : UInt32
  value : V

/-- `PassivePrototypeManager`: its map, as `RawRefMap` has it, and the memory of the nodes. -/
structure Passives (V : Type) where
  itemCount : UInt32
  hashSize : UInt32
  /-- The heads of the chains, or nothing where the pointer to them is null. -/
  hashTable : Option (ℕ → ℕ)
  initialized : Bool
  node : ℕ → PassiveNode V

/-- A `PassiveNode**`: to an entry of the table, or to the link of a node. -/
inductive Link where
  | bucket (b : ℕ)
  | next (node : ℕ)

variable {V : Type}

/-- `*link` -/
def Passives.get (m : Passives V) : Link → ℕ
  | .bucket b => m.hashTable.elim 0 (· b)
  | .next node => (m.node node).next

/-- `node->Next = target` -/
def Passives.setNext (m : Passives V) (node target : ℕ) : Passives V :=
  { m with node := Function.update m.node node { m.node node with next := target } }

/-- `*link = target` -/
def Passives.set (m : Passives V) (target : ℕ) : Link → Passives V
  | .bucket b => { m with hashTable := m.hashTable.map (Function.update · b target) }
  | .next node => m.setNext node target

def passiveBucket (m : Passives V) (key : UInt32) : Option Link :=
  if m.hashSize = 0 ∨ m.hashTable.isNone then none else some (.bucket (key % m.hashSize).toNat)

/-- The loop of `passive_unlink`, of so many rounds: nothing if it has not ended then. -/
def unlinkFrom (node : ℕ) : ℕ → Link → Passives V → Option (Bool × Passives V)
  | 0, _, _ => none
  | rounds + 1, link, m =>
    if m.get link = 0 then some (false, m)
    else if m.get link = node then
      let m := m.set (m.node node).next link
      some (true, { m with itemCount := m.itemCount - 1 })
    else unlinkFrom node rounds (.next (m.get link)) m

def passiveUnlink (rounds : ℕ) (m : Passives V) (node : ℕ) : Option (Bool × Passives V) :=
  match passiveBucket m (m.node node).key with
  | none => some (false, m)
  | some link => unlinkFrom node rounds link m

/-- The loop of `passive_node`. -/
def nodeFrom (m : Passives V) (key : UInt32) : ℕ → ℕ → Option ℕ
  | 0, _ => none
  | rounds + 1, node =>
    if node ≠ 0 ∧ (m.node node).key ≠ key then nodeFrom m key rounds (m.node node).next else some node

def passiveNode (rounds : ℕ) (m : Passives V) (key : UInt32) : Option ℕ :=
  nodeFrom m key rounds ((passiveBucket m key).elim 0 m.get)

/-- The node goes to the front of the key's chain. -/
def relink (m : Passives V) (key : UInt32) (old : ℕ) : Option (Passives V) :=
  (passiveBucket m key).map fun link =>
    let m := (m.setNext old (m.get link)).set old link
    { m with itemCount := m.itemCount + 1 }

/-- What a rebuilding says. -/
inductive Refusal where
  /-- "the engine's passive loader is not where this build has it" -/
  | noLoader
  /-- "the passive prototype manager is not located" -/
  | noManager
  /-- "the passive map does not chain the way bg3le reads it" -/
  | notChained
  /-- "the passive loader did not rebuild the passive" -/
  | notRebuilt
deriving DecidableEq

/-- `memcpy` of a node's value. -/
def Passives.copyValue (m : Passives V) (target node : ℕ) : Passives V :=
  { m with node := Function.update m.node target { m.node target with value := (m.node node).value } }

/-- What follows the loader, the map being as the loader left it. What is given is the node that
`bg3le_prototype_added` is told of, or 0. Nothing is given if a loop has not ended, or if there is
no table for a node to go back to. -/
def afterLoader (rounds : ℕ) (m : Passives V) (key : UInt32) (old : ℕ) :
    Option (Except Refusal ℕ × Passives V) := do
  let fresh ← passiveNode rounds m key
  if fresh = 0 then
    if old = 0 then return (.error .notRebuilt, m)
    else
      let m ← relink m key old
      return (.error .notRebuilt, m)
  else if old = 0 then return (.ok fresh, m)
  else
    let (_, m) ← passiveUnlink rounds m fresh
    let m ← relink (m.copyValue old fresh) key old
    return (.ok 0, m)

/-- The loader is called on the map without the old node. -/
def callLoader (loader : Passives V → Passives V) (rounds : ℕ) (m : Passives V) (key : UInt32)
    (old : ℕ) : Option (Except Refusal ℕ × Passives V) :=
  afterLoader rounds (loader { m with initialized := false }) key old

/-- `sync_passive`, of the object whose name is the key. -/
def syncPassive (loader : Option (Passives V → Passives V)) (rounds : ℕ) (mgr : Option (Passives V))
    (key : UInt32) : Option (Except Refusal ℕ × Option (Passives V)) :=
  match loader, mgr with
  | none, mgr => some (.error .noLoader, mgr)
  | some _, none => some (.error .noManager, none)
  | some loader, some m => do
    let old ← passiveNode rounds m key
    if old = 0 then
      let (said, m) ← callLoader loader rounds m key old
      return (said, some m)
    else
      let (unlinked, m) ← passiveUnlink rounds m old
      if unlinked then
        let (said, m) ← callLoader loader rounds m key old
        return (said, some m)
      else return (.error .notChained, some m)

end StatSync
end Bg3le
