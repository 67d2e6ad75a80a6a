import Bg3le.Engine.SafeRead
import Bg3le.Library.WorkList
import Mathlib.Algebra.Group.Nat.Defs
import Mathlib.Logic.Function.Basic

/-!
# The functions in Osiris' own database: `osi.cpp`

A bucket of the database points at some node of a tree of functions. `visitTree` follows the links
of every node whose key reads as `Name/Arity`, and keeps what the signatures say.
-/

namespace Bg3le
namespace FunctionTree

open Engine

/-- `Block::at`, of a field that lies in the block. -/
def at' (block : Bytes) (off width : ℕ) : ℕ :=
  LittleEndian.decode ((block.drop off).take width)

/-! ## Keys -/

/-- `parse_osi_string` -/
def parseOsiString (mapping : Mapping) (bytes : Bytes) : Option Bytes :=
  let last := at' bytes 23 1
  if last < 0x80 then
    if 22 < last then none else some (bytes.take last)
  else
    let data := at' bytes 0 8
    let size := at' bytes 8 8
    if data < 0x1000 ∨ size = 0 ∨ 512 < size then none else safeRead mapping data size

def isdigit (c : UInt8) : Bool := 0x30 ≤ c && c ≤ 0x39

/-- `isalnum`, in the locale that a program starts in. -/
def isalnum (c : UInt8) : Bool :=
  isdigit c || (0x41 ≤ c && c ≤ 0x5a) || (0x61 ≤ c && c ≤ 0x7a)

/-- `rfind('/')`, as the text before the last slash and the text after it. -/
def rfindSlash (key : Bytes) : Option (Bytes × Bytes) :=
  if key.contains 0x2f then
    let arity := key.reverse.takeWhile (· ≠ 0x2f)
    some (key.take (key.length - arity.length - 1), arity.reverse)
  else none

/-- `node_key` -/
def nodeKey (mapping : Mapping) (entry : Bytes) : Option Bytes := do
  let key ← parseOsiString mapping ((entry.drop 0x20).take 24)
  let (name, arity) ← rfindSlash key
  if name.isEmpty ∨ arity.isEmpty then none
  else if !arity.all isdigit then none
  else if !(name.all fun c => isalnum c || c = 0x5f) then none
  else some key

/-! ## Signatures -/

/-- `DbEntry`, of a function whose parameters could be read. -/
structure DbEntry where
  outs : ℕ
  outMask : UInt64
  defn : ℕ
  types : List UInt8
deriving DecidableEq

/-- Whether a bit of the mask is set, most significant first within each byte. -/
def outBit (mask : Bytes) (i : ℕ) : Bool :=
  (mask.getD (i / 8) 0).toNat.testBit (7 - i % 8)

/-- `read_out_params`: how many, and which of the first 64; nothing where it gives -1. -/
def readOutParams (mapping : Mapping) (bits bytes : ℕ) : Option (ℕ × UInt64) :=
  if bits = 0 ∨ bytes = 0 ∨ 64 < bytes then some (0, 0)
  else do
    let mask ← safeRead mapping bits bytes
    let outs := (List.range (bytes * 8)).filter (outBit mask)
    let which := (outs.filter (· < 64)).foldl (fun w i => w ||| ((1 : UInt64) <<< i.toUInt64)) 0
    some (outs.length, which)

/-- The loop of `read_param_types`; nothing where a node cannot be read. -/
def paramTypesFrom (mapping : Mapping) : ℕ → ℕ → Option (List UInt8)
  | 0, _ => some []
  | count + 1, node =>
    if node < 0x1000 then some []
    else do
      let entry ← safeRead mapping node 0x18
      let types ← paramTypesFrom mapping count (at' entry 0x00 8)
      some (UInt8.ofNat (at' entry 0x10 2) :: types)

/-- `read_param_types` -/
def readParamTypes (mapping : Mapping) (list : ℕ) : List UInt8 :=
  match safeRead mapping list 0x20 with
  | none => []
  | some header =>
    let count := at' header 0x18 8
    if count = 0 ∨ 32 < count then []
    else
      match paramTypesFrom mapping count (at' header 0x08 8) with
      | none => []
      | some types => if types.length ≠ count then [] else types.reverse

/-- What `visit_tree` keeps of a function object, nothing where its signature cannot be read. -/
def dbEntry (mapping : Mapping) (defn : ℕ) : Option DbEntry := do
  let function ← safeRead mapping defn 0x28
  let sig ← safeRead mapping (at' function 0x18 8) 0x28
  let (outs, which) ← readOutParams mapping (at' sig 0x18 8) (at' sig 0x20 4)
  some ⟨outs, which, defn, readParamTypes mapping (at' sig 0x10 8)⟩

/-! ## The walk -/

/-- `g_visited`, and the database. -/
structure Found where
  visited : ℕ
  out : Bytes → Option DbEntry

/-- The body of the loop of `visit_tree`, of a node that was not seen: what it pushes, the last
first, and what is found. -/
def visit (mapping : Mapping) (node : ℕ) (found : Found) : List ℕ × Found :=
  let found := { found with visited := found.visited + 1 }
  match safeRead mapping node 0x40 with
  | none => ([], found)
  | some entry =>
    match nodeKey mapping entry with
    | none => ([], found)
    | some key =>
      let found := match dbEntry mapping (at' entry 0x38 8) with
        | none => found
        | some e => { found with out := Function.update found.out key (some e) }
      ([at' entry 0x10 8, at' entry 0x08 8, at' entry 0x00 8], found)

/-- `visit_tree`, of so many turns. -/
def visitTree (mapping : Mapping) (turns bucket : ℕ) (found : Found) (seen : Finset ℕ) :
    Option (Finset ℕ × Found) :=
  if bucket < 0x1000 then some (seen, found)
  else WorkList.search (· < 0x1000) (visit mapping) turns [bucket] seen found

/-! ## The tree of a bucket -/

/-- The key of a node, nothing where it does not read as `Name/Arity`. -/
def keyAt (mapping : Mapping) (node : ℕ) : Option Bytes :=
  (safeRead mapping node 0x40).bind (nodeKey mapping)

/-- A 64-bit field of a node. -/
def linkAt (mapping : Mapping) (node off : ℕ) : ℕ :=
  ((safeRead mapping node 0x40).map (at' · off 8)).getD 0

/-- What a node leads to: its links, where its key reads. -/
def links (mapping : Mapping) (node : ℕ) : List ℕ :=
  if (keyAt mapping node).isNone then []
  else [linkAt mapping node 0x10, linkAt mapping node 0x08, linkAt mapping node 0x00]

/-- The function that a node is for, with its key, where its signature can be read. -/
def functionAt (mapping : Mapping) (node : ℕ) : Option (Bytes × DbEntry) := do
  let key ← keyAt mapping node
  let e ← dbEntry mapping (linkAt mapping node 0x38)
  some (key, e)

/-- A binary tree of the addresses of map nodes. -/
inductive MapTree where
  | nil
  | node (addr : ℕ) (left right : MapTree)

namespace MapTree

/-- The addresses of the tree. -/
def nodes : MapTree → List ℕ
  | nil => []
  | node addr left right => addr :: (left.nodes ++ right.nodes)

/-- Whether memory holds the tree where a link points, below a parent. Where there is no subtree
a link is null or leads to what is no node, such as the sentinel of the map. -/
def Laid (mapping : Mapping) : MapTree → ℕ → ℕ → Prop
  | nil, link, _ => keyAt mapping link = none
  | node addr left right, link, parent =>
    link = addr ∧ keyAt mapping addr ≠ none ∧ linkAt mapping addr 0x08 = parent ∧
      left.Laid mapping (linkAt mapping addr 0x00) addr ∧
      right.Laid mapping (linkAt mapping addr 0x10) addr

/-- A tree of a map: its root has the parent of what is no node, and its keys differ. -/
structure Holds (mapping : Mapping) (tree : MapTree) : Prop where
  laid : ∃ root parent, keyAt mapping parent = none ∧ tree.Laid mapping root parent
  distinct : (tree.nodes.map (keyAt mapping)).Nodup

end MapTree

/-- The database has the functions of the tree whose signatures can be read, each under its key,
and is as it was otherwise. -/
structure RecordsTree (mapping : Mapping) (tree : MapTree) (out out' : Bytes → Option DbEntry) :
    Prop where
  function : ∀ n ∈ tree.nodes, ∀ key e, functionAt mapping n = some (key, e) → out' key = some e
  other : ∀ key, (∀ n ∈ tree.nodes, ∀ e, functionAt mapping n ≠ some (key, e)) →
    out' key = out key

/-- Turns that are enough, each node pushing three links of 64 bits. -/
def enoughTurns : ℕ := 3 * (2 ^ 64 + 1) + 1

end FunctionTree
end Bg3le
