import Bg3le.Engine.SafeRead
import Mathlib.Algebra.Group.Nat.Defs

/-!
# The nodes of a legacy map by index: `component_meta.cpp`

A legacy map chains its nodes off a table of buckets. A thread remembers the nodes of the map that
it walked last, with the map's address and the count that the map had.
-/

namespace Bg3le
namespace ComponentMeta

open Engine

/-- Where a legacy map and a node of it have the fields that are read. -/
structure LegacyLayout where
  hashSize : ℕ
  itemCount : ℕ
  hashTable : ℕ
  next : ℕ

structure LegacyHeader where
  hashSize : ℕ
  itemCount : ℕ
  hashTable : ℕ
deriving DecidableEq

/-- `Walk` -/
structure Walk where
  map : ℕ := 0
  count : ℕ := 0
  nodes : List ℕ := []

/-- `safe_read` of a number of so many bytes. -/
def readNat (mapping : Mapping) (addr n : ℕ) : Option ℕ :=
  (safeRead mapping addr n).map LittleEndian.decode

variable (layout : LegacyLayout) (mapping : Mapping)

def readHeader (container : ℕ) : Option LegacyHeader := do
  let hashSize ← readNat mapping (container + layout.hashSize) 4
  let itemCount ← readNat mapping (container + layout.itemCount) 4
  let hashTable ← readNat mapping (container + layout.hashTable) 8
  return ⟨hashSize, itemCount, hashTable⟩

/-- The first nodes of the buckets, if the whole table can be read. -/
def readBuckets (h : LegacyHeader) : Option (List ℕ) :=
  (List.range h.hashSize).mapM fun b => peek mapping (h.hashTable + 8 * b)

def readNext (node : ℕ) : Option ℕ := peek mapping (node + layout.next)

/-- The loop over a chain, of so many rounds. -/
def walkChain (next : ℕ → Option ℕ) (count : ℕ) : ℕ → ℕ → List ℕ → List ℕ
  | 0, _, nodes => nodes
  | rounds + 1, node, nodes =>
    if node ≠ 0 ∧ nodes.length < count then
      match next node with
      | none => nodes ++ [node]
      | some after => walkChain next count rounds after (nodes ++ [node])
    else nodes

def walkChains (next : ℕ → Option ℕ) (count : ℕ) (buckets : List ℕ) : List ℕ :=
  buckets.foldl (fun nodes node => walkChain next count (count + 1) node nodes) []

/-- The walk is of another map, or of another count. -/
def Walk.Stale (walk : Walk) (container count : ℕ) : Prop :=
  walk.map ≠ container ∨ walk.count ≠ count

instance (walk : Walk) (container count : ℕ) : Decidable (walk.Stale container count) :=
  inferInstanceAs (Decidable (_ ∨ _))

/-- The counts and sizes from which on no node is given. -/
def LegacyHeader.TooLarge (h : LegacyHeader) : Prop := 2 ^ 22 < h.itemCount ∨ 2 ^ 22 < h.hashSize

instance (h : LegacyHeader) : Decidable h.TooLarge := inferInstanceAs (Decidable (_ ∨ _))

/-- `legacy_map_node`, with the walk that the thread remembers after it. -/
def legacyMapNode (walk : Walk) (container index : ℕ) : Option ℕ × Walk :=
  match readHeader layout mapping container with
  | none => (none, walk)
  | some h =>
    if h.itemCount ≤ index ∨ h.TooLarge then (none, walk)
    else if walk.Stale container h.itemCount then
      match readBuckets mapping h with
      | none => (none, ⟨container, h.itemCount, []⟩)
      | some buckets =>
        let nodes := walkChains (readNext layout mapping) h.itemCount buckets
        (nodes[index]?, ⟨container, h.itemCount, nodes⟩)
    else (walk.nodes[index]?, walk)

/-- `legacy_map_count_thunk` -/
def legacyMapCount (container : ℕ) : ℕ :=
  (readNat mapping (container + layout.itemCount) 4).getD 0

/-- The nodes that a thread reads by these indices, one after the other. -/
def readEach (container : ℕ) : Walk → List ℕ → List (Option ℕ)
  | _, [] => []
  | walk, index :: rest =>
    let (node, walk) := legacyMapNode layout mapping walk container index
    node :: readEach container walk rest

/-- The nodes from the first to the last. -/
def readAll (walk : Walk) (container : ℕ) : List (Option ℕ) :=
  readEach layout mapping container walk (List.range (legacyMapCount layout mapping container))

/-! ## Runs -/

/-- The memory, and the walk that the thread remembers. `made` is no part of the program: it is
the memory that the walk was made from. -/
structure LegacyState where
  mapping : Mapping
  walk : Walk := {}
  made : Option Mapping := none

inductive LegacyAction where
  /-- The engine writes to the memory, or maps or unmaps some of it. -/
  | engine (mapping : Mapping)
  | read (container index : ℕ)

/-- Whether a read makes the walk anew. -/
def remakes (walk : Walk) (container index : ℕ) : Bool :=
  (readHeader layout mapping container).any fun h =>
    ¬(h.itemCount ≤ index ∨ h.TooLarge) ∧ walk.Stale container h.itemCount

def LegacyState.step (s : LegacyState) : LegacyAction → LegacyState
  | .engine mapping => { s with mapping }
  | .read container index =>
    { s with
      walk := (legacyMapNode layout s.mapping s.walk container index).2
      made := if remakes layout s.mapping s.walk container index then some s.mapping else s.made }

end ComponentMeta
end Bg3le
