import Bg3le.Bytes
import Bg3le.Library.Chains
import Mathlib.Algebra.Group.Nat.Defs

/-!
# The text pools of the engine's repository: `vendor/translated_strings.cpp`

A pool is a hash set of handles with a text for each. `findIndex` follows the chain of a bucket,
and `store` overwrites the text that it leads to or appends a handle while every array has room.
-/

namespace Bg3le
namespace TextPool

/-- `Handle`, by the fields that are used. -/
structure Handle where
  id : UInt32
  version : UInt16
deriving DecidableEq

/-- `View`: the text that `data` points at, and how much of it is shown. -/
structure View where
  data : Bytes
  size : UInt32
deriving DecidableEq

/-- The text that the engine reads. -/
def View.text (view : View) : Bytes := view.data.take view.size.toNat

structure Pool where
  /-- `HashKeys`: whether its buffer is null, its size and its elements. -/
  headsNull : Bool
  headsSize : UInt32
  heads : ℕ → Int32
  /-- `NextIds`. -/
  nextCapacity : UInt32
  nextSize : UInt32
  next : ℕ → Int32
  /-- `Keys`. -/
  keysCapacity : UInt32
  keysSize : UInt32
  keys : ℕ → Handle
  /-- `Values`. -/
  valuesSize : UInt32
  values : ℕ → View

/-! ## Finding a handle -/

inductive Walk where
  /-- Still in the loop. -/
  | running
  /-- It read past the end of `NextIds`. -/
  | outside
  /-- It returned -1. -/
  | missing
  | found (i : ℕ)
deriving DecidableEq

/-- The loop of `find_index`, with its counter. -/
def findFrom (pool : Pool) (id : UInt32) : ℕ → UInt32 → Int32 → Walk
  | 0, _, _ => .running
  | fuel + 1, steps, index =>
    if 0 ≤ index.toInt ∧ steps ≤ pool.keysSize then
      let i := index.toInt.toNat
      if pool.keysSize.toNat ≤ i then .missing
      else if (pool.keys i).id = id then .found i
      else if pool.nextSize.toNat ≤ i then .outside
      else findFrom pool id fuel (steps + 1) (pool.next i)
    else .missing

/-- The head of a hash's bucket. -/
def Pool.head (pool : Pool) (hash : UInt32) : Int32 := pool.heads (hash % pool.headsSize).toNat

def findIndex (fuel : ℕ) (pool : Pool) (id hash : UInt32) : Walk :=
  if pool.headsSize = 0 ∨ pool.headsNull then .missing
  else findFrom pool id fuel 0 (pool.head hash)

/-! ## The hash of a handle -/

def rotl (x : UInt32) (r : UInt32) : UInt32 := (x <<< r) ||| (x >>> (32 - r))

/-- The bytes of a number, the lowest first. -/
def littleEndian : Bytes → UInt32
  | [] => 0
  | b :: bs => b.toUInt32 ||| (littleEndian bs <<< 8)

/-- The blocks of four bytes, and what is left. -/
def hashBlocks (h : UInt32) : Bytes → UInt32
  | a :: b :: c :: d :: rest =>
    let k := littleEndian [a, b, c, d]
    let h := h ^^^ (rotl (k * 0xcc9e2d51) 15 * 0x1b873593)
    hashBlocks (rotl h 13 * 5 + 0xe6546b64) rest
  | [] => h
  | tail => h ^^^ (rotl (littleEndian tail * 0xcc9e2d51) 15 * 0x1b873593)

/-- `string_hash`. -/
def stringHash (text : Bytes) : UInt32 :=
  let h := hashBlocks 0xdead5eed text ^^^ UInt32.ofNat text.length
  let h := (h ^^^ (h >>> 16)) * 0x85ebca6b
  let h := (h ^^^ (h >>> 13)) * 0xc2b2ae35
  h ^^^ (h >>> 16)

/-- `handle_key`, where `create` is the engine's `CreateFromString`. -/
def handleKey (create : Bytes → Option UInt32) (handle : Bytes) : Option (UInt32 × UInt32) :=
  (create handle).map fun id => (id, stringHash handle)

/-! ## Storing a text -/

/-- The view of a new string. -/
def viewOf (text : Bytes) : View := ⟨text, UInt32.ofNat text.length⟩

/-- What a new key of a bucket is linked to. -/
def Pool.linkTo (pool : Pool) (bucket : UInt32) : Int32 :=
  let previous := pool.heads bucket.toNat
  if previous.toInt < 0 then -2 - bucket.toInt32 else previous

/-- Whether a key can be appended with no array growing. -/
def Pool.hasRoom (pool : Pool) : Bool :=
  let n := pool.keysSize
  let half : UInt32 := (n + 1) >>> 1
  let desired := (n + 1) + half
  n < pool.keysCapacity && pool.nextSize == n && n < pool.nextCapacity &&
    n < pool.valuesSize && desired ≤ pool.headsSize

def Pool.append (pool : Pool) (id hash : UInt32) (view : View) : Pool :=
  let n := pool.keysSize
  let bucket := hash % pool.headsSize
  { pool with
    keys := Function.update pool.keys n.toNat ⟨id, 0⟩
    next := Function.update pool.next n.toNat (pool.linkTo bucket)
    values := Function.update pool.values n.toNat view
    keysSize := n + 1
    nextSize := n + 1
    heads := Function.update pool.heads bucket.toNat n.toInt32 }

/-- The pool with the text of a key overwritten. -/
def Pool.overwrite (pool : Pool) (i : ℕ) (view : View) : Pool :=
  { pool with values := Function.update pool.values i view }

/-- What `store` does under the lock, with its result. It has no defined outcome where
`find_index` leaves its arrays or finds a key that has no value. -/
def storeKey (pool : Pool) (id hash : UInt32) (text : Bytes) : Option (Bool × Pool) :=
  match findIndex (pool.keysSize.toNat + 2) pool id hash with
  | .running | .outside => none
  | .found i =>
    if i < pool.valuesSize.toNat then some (true, pool.overwrite i (viewOf text)) else none
  | .missing =>
    if pool.hasRoom then some (true, pool.append id hash (viewOf text)) else some (false, pool)

/-- `store`; `locked` is whether `write_lock` gets the lock. -/
def store (create : Bytes → Option UInt32) (pool : Pool) (handle text : Bytes) (locked : Bool) :
    Option (Bool × Pool) :=
  match handleKey create handle with
  | none => some (false, pool)
  | some (id, hash) => if locked then storeKey pool id hash text else some (false, pool)

/-! ## The engine's invariant -/

/-- The index that is linked after another. -/
def Pool.nextInt (pool : Pool) (i : ℕ) : ℤ := (pool.next i).toInt

/-- The ids are distinct, every key is reached from the bucket of its hash, every chain ends in
something negative, buckets have a buffer, and there is a link for every key. -/
structure Table (hashOf : UInt32 → UInt32) (pool : Pool) : Prop where
  distinct : ∀ i < pool.keysSize.toNat, ∀ j < pool.keysSize.toNat,
    (pool.keys i).id = (pool.keys j).id → i = j
  reached : ∀ i < pool.keysSize.toNat,
    Chains.Reaches pool.keysSize.toNat pool.nextInt (pool.head (hashOf (pool.keys i).id)).toInt i
  ends : ∀ b < pool.headsSize.toNat,
    Chains.Ends pool.keysSize.toNat pool.nextInt (pool.heads b).toInt
  heads_pos : 0 < pool.keysSize → 0 < pool.headsSize
  heads_ne_null : pool.headsSize ≠ 0 → pool.headsNull = false
  next_size : pool.nextSize = pool.keysSize

/-- A handle leads to a text. -/
def LeadsTo (hashOf : UInt32 → UInt32) (pool : Pool) (id : UInt32) (text : Bytes) : Prop :=
  ∃ i, findIndex (pool.keysSize.toNat + 2) pool id (hashOf id) = .found i ∧
    (pool.values i).text = text

/-- `find_index` gives the same for a handle, with the same text. -/
def SameHandle (hashOf : UInt32 → UInt32) (pool pool' : Pool) (id : UInt32) : Prop :=
  findIndex (pool'.keysSize.toNat + 2) pool' id (hashOf id) =
      findIndex (pool.keysSize.toNat + 2) pool id (hashOf id) ∧
    ∀ i, findIndex (pool.keysSize.toNat + 2) pool id (hashOf id) = .found i →
      pool'.values i = pool.values i

/-- Either nothing changed and false is returned, or the text is stored. -/
def Keeps (hashOf : UInt32 → UInt32) (create : Bytes → Option UInt32) (pool : Pool)
    (handle text : Bytes) (locked : Bool) : Prop :=
  store create pool handle text locked = some (false, pool) ∨
    ∃ pool' id, store create pool handle text locked = some (true, pool') ∧
      create handle = some id ∧ Table hashOf pool' ∧ LeadsTo hashOf pool' id text ∧
      ∀ other, other ≠ id → SameHandle hashOf pool pool' other

/-- `find_index` returns, and reads within its arrays. -/
def Safe (pool : Pool) (id hash : UInt32) : Prop :=
  ∃ fuel, findIndex fuel pool id hash ≠ .running ∧ findIndex fuel pool id hash ≠ .outside

/-! ## When the code meets them -/

/-- A text of 32 bits of length is stored; a key that is overwritten has a value; and a new key's
index is a number of 31 bits, and what it is linked to is negative or a key before it. -/
def Fits (hashOf : UInt32 → UInt32) (create : Bytes → Option UInt32) (pool : Pool)
    (handle text : Bytes) : Prop :=
  ∀ id, create handle = some id →
    (∀ i < pool.keysSize.toNat, (pool.keys i).id = id →
      i < pool.valuesSize.toNat ∧ text.length < 2 ^ 32) ∧
    ((∀ i < pool.keysSize.toNat, (pool.keys i).id ≠ id) → pool.hasRoom →
      text.length < 2 ^ 32 ∧ pool.keysSize.toNat < 2 ^ 31 ∧
        (pool.linkTo (hashOf id % pool.headsSize)).toInt < pool.keysSize.toNat)

/-- The indices that the chain from a head comes to. -/
def chainAt (pool : Pool) (head : Int32) : ℕ → Int32
  | 0 => head
  | k + 1 => pool.next (chainAt pool head k).toInt.toNat

/-- The first keys of the chain are keys, and none is the one that is looked for. -/
def Passes (pool : Pool) (id : UInt32) (head : Int32) (k : ℕ) : Prop :=
  ∀ j ≤ k, 0 ≤ (chainAt pool head j).toInt ∧
    (chainAt pool head j).toInt.toNat < pool.keysSize.toNat ∧
    (pool.keys (chainAt pool head j).toInt.toNat).id ≠ id

/-- Each key that is passed has a link, and where the counter cannot end the loop the chain
does. -/
def Linked (pool : Pool) (id hash : UInt32) : Prop :=
  pool.headsSize ≠ 0 → pool.headsNull = false →
    (∀ k, (k ≤ pool.keysSize.toNat ∨ pool.keysSize.toNat = 2 ^ 32 - 1) → Passes pool id (pool.head hash) k →
      (chainAt pool (pool.head hash) k).toInt.toNat < pool.nextSize.toNat) ∧
    (pool.keysSize.toNat = 2 ^ 32 - 1 → ∃ k, ¬ Passes pool id (pool.head hash) k)

end TextPool
end Bg3le
