import Bg3le.Bytes
import Bg3le.Library.Run
import Bg3le.Library.Throughout
import Mathlib.Algebra.Group.Nat.Defs
import Mathlib.Logic.Function.Basic

/-!
# The value pools of the stats (`stats.cpp`)

The pools of conditions, strings, flag masks and floats that a stat's attributes index into. Each
is an array of the engine's, known by its header and by the buffer and size that were read when it
was found.
-/

namespace Bg3le
namespace StatsPools

variable {α κ : Type}

/-- `(int)` of a slot. -/
def toInt (slot : ℕ) : ℤ := if slot < 2 ^ 31 then slot else slot - 2 ^ 32

/-- The array header that the engine keeps. -/
structure Header where
  buffer : ℕ
  capacity : ℕ
  used : ℕ
deriving DecidableEq

/-- `ArrayRef`: what is kept of a header. -/
structure ArrayRef where
  buffer : ℕ
  size : ℕ
deriving DecidableEq

/-- A kind of cell: what zeroed memory reads as, and the value that a cell is read and found by,
where it has one. -/
structure Kind (α κ : Type) where
  zero : α
  key : α → Option κ

structure Pool (α κ : Type) where
  /-- The cells of each buffer. -/
  memory : ℕ → ℕ → α
  /-- The number of buffers that were allocated. -/
  buffers : ℕ
  header : Header
  ref : ArrayRef
  /-- `pooled` of the conditions, `slots` of the others. -/
  slots : κ → Option ℤ := fun _ => none
  /-- `indexed` of the conditions. -/
  indexed : ℕ := 1
  /-- `mapped` of the others. -/
  mapped : Bool := false
  /-- `known` of `attr_condition` and `attr_string`. -/
  known : ℕ → Option κ := fun _ => none

/-- A slot as the engine sees it. -/
def Pool.live (p : Pool α κ) (i : ℕ) : α := p.memory p.header.buffer i

/-- A slot as it is read and written through the kept buffer. -/
def Pool.kept (p : Pool α κ) (i : ℕ) : α := p.memory p.ref.buffer i

/-- What a call meets: whether the engine's allocator is found, and whether a fresh buffer, the
memory of a value and a new entry of the string table can be had. -/
structure Alloc where
  ready : Bool
  buffer : Bool
  value : Bool
  table : Bool
deriving DecidableEq

/-- `pool_slot`, on memory that can be read. -/
def Pool.poolSlot (k : Kind α κ) (p : Pool α κ) (alloc : Alloc) : Option (Pool α κ × ℕ) :=
  let used := p.header.used
  let capacity := p.header.capacity
  if used < capacity then some (p, used)
  else if !alloc.ready then none
  else
    let grown := (capacity + capacity / 2 + 16) % 2 ^ 32
    if !alloc.buffer then none
    else
      -- the old buffer is abandoned
      some ({ p with
        memory := Function.update p.memory p.buffers fun i => if i < used then p.live i else k.zero
        buffers := p.buffers + 1
        header := { p.header with buffer := p.buffers, capacity := grown }
        ref := { p.ref with buffer := p.buffers } }, used)

/-! ## Interning -/

variable [DecidableEq κ]

/-- `emplace`, which keeps the first slot of a value. -/
def emplace (slots : κ → Option ℤ) (v : κ) (slot : ℤ) : κ → Option ℤ :=
  if (slots v).isSome then slots else Function.update slots v (some slot)

/-- Enters the values of `n` cells from a slot on. -/
def indexCells (k : Kind α κ) (cells : ℕ → α) (slots : κ → Option ℤ) (first : ℕ) :
    ℕ → κ → Option ℤ
  | 0 => slots
  | n + 1 =>
    let slots := indexCells k cells slots first n
    match k.key (cells (first + n)) with
    | some v => emplace slots v (toInt (first + n))
    | none => slots

/-- The conditions that the engine appended are picked up from its header, every time. -/
def Pool.indexLive (k : Kind α κ) (p : Pool α κ) : Pool α κ :=
  { p with
    slots := indexCells k p.live p.slots p.indexed (p.header.used - p.indexed)
    indexed := max p.indexed p.header.used }

/-- The other pools are read through the kept buffer, once. -/
def Pool.indexOnce (k : Kind α κ) (p : Pool α κ) : Pool α κ :=
  if p.mapped then p
  else { p with
    slots := indexCells k p.kept p.slots 1 (p.ref.size - 1)
    mapped := true }

/-- What becomes of a value that is to be stored. -/
inductive Built (α : Type) where
  | cell (cell : α)
  | failed
  /-- A write through a null pointer. -/
  | crashed

inductive Outcome where
  | found (slot : ℤ)
  | failed
  | appended (slot : ℕ)
  | crashed
deriving DecidableEq

/-- What the call returns. -/
def Outcome.result : Outcome → Option ℤ
  | .found slot => some slot
  | .failed => some (-1)
  | .appended slot => some (toInt slot)
  | .crashed => none

/-- The value is written to the slot, and the sizes and the index include it. -/
def Pool.store (p : Pool α κ) (slot : ℕ) (cell : α) (v : κ) : Pool α κ :=
  let size := (slot + 1) % 2 ^ 32
  { p with
    memory := Function.update p.memory p.ref.buffer (Function.update p.kept slot cell)
    header := { p.header with used := size }
    ref := { p.ref with size := size }
    slots := emplace p.slots v (toInt slot) }

/-- An intern function from its lookup on. -/
def Pool.intern (k : Kind α κ) (p : Pool α κ) (alloc : Alloc) (v : κ) (built : Built α) :
    Pool α κ × Outcome :=
  match p.slots v with
  | some slot => (p, .found slot)
  | none =>
    match p.poolSlot k alloc with
    | none => (p, .failed)
    | some (p, slot) =>
      match built with
      | .cell cell => (p.store slot cell v, .appended slot)
      | .failed => (p, .failed)
      | .crashed => (p, .crashed)

/-! ## Reading -/

/-- A slot that a reader refuses: not a slot, or past the kept size. -/
def Pool.outside (p : Pool α κ) (raw : ℤ) : Bool := raw ≤ 0 || p.ref.size ≤ raw.toNat

/-- A reader that keeps what it read. -/
def Pool.readKnown (k : Kind α κ) (p : Pool α κ) (raw : ℤ) : Pool α κ × Option κ :=
  if p.outside raw then (p, none)
  else
    match p.known raw.toNat with
    | some v => (p, some v)
    | none =>
      match k.key (p.kept raw.toNat) with
      | none => (p, none)
      | some v => ({ p with known := Function.update p.known raw.toNat (some v) }, some v)

def Pool.readCell (k : Kind α κ) (p : Pool α κ) (raw : ℤ) : Pool α κ × Option κ :=
  (p, if p.outside raw then none else k.key (p.kept raw.toNat))

/-! ## The pools -/

/-- Larian strings, by their text; `read_ls_string` refuses one that is too long. -/
def conditionKind : Kind Bytes Bytes where
  zero := []
  key text := if text.length ≤ 2 ^ 20 then some text else none

/-- Entries of the string table, each named by its text. -/
def stringKind : Kind Bytes Bytes where
  zero := []
  key := some

/-- Pointers to masks, or null. -/
def int64Kind : Kind (Option Int64) Int64 where
  zero := none
  key := id

/-- Floats, by their bits. -/
def floatKind : Kind UInt32 UInt32 where
  zero := 0
  key := some

/-- `build_ls_string`. -/
def buildLsString (alloc : Alloc) (text : Bytes) : Built Bytes :=
  if text.length ≤ 15 then .cell text
  else if text.length > 2 ^ 20 || !alloc.ready then .failed
  else if alloc.value then .cell text
  else .failed

/-- `attr_condition`. -/
def attrCondition (p : Pool Bytes Bytes) (raw : ℤ) : Pool Bytes Bytes × Option Bytes :=
  p.readKnown conditionKind raw

/-- `attr_string`. -/
def attrString (p : Pool Bytes Bytes) (raw : ℤ) : Pool Bytes Bytes × Option Bytes :=
  p.readKnown stringKind raw

/-- The mask that `attr_flags` reads. -/
def attrFlags (p : Pool (Option Int64) Int64) (raw : ℤ) : Pool (Option Int64) Int64 × Option Int64 :=
  p.readCell int64Kind raw

/-- `attr_float`. -/
def attrFloat (p : Pool UInt32 UInt32) (raw : ℤ) : Pool UInt32 UInt32 × Option UInt32 :=
  p.readCell floatKind raw

/-- `bg3le_stats_condition_intern`. -/
def conditionIntern (p : Pool Bytes Bytes) (alloc : Alloc) (text : Bytes) :
    Pool Bytes Bytes × Outcome :=
  -- "" is no condition
  if text = [] then (p, .failed)
  else
    match (p.indexLive conditionKind).intern conditionKind alloc text (buildLsString alloc text) with
    | (p, .appended slot) =>
      let p := { p with indexed := if p.indexed = slot then slot + 1 else p.indexed }
      ((attrCondition p (toInt slot)).1, .appended slot)
    | other => other

/-- `bg3le_stats_string_intern`. -/
def stringIntern (p : Pool Bytes Bytes) (alloc : Alloc) (text : Bytes) : Pool Bytes Bytes × Outcome :=
  if !alloc.table then (p, .failed)
  else (p.indexOnce stringKind).intern stringKind alloc text (.cell text)

/-- `bg3le_stats_int64_intern`. -/
def int64Intern (p : Pool (Option Int64) Int64) (alloc : Alloc) (value : Int64) :
    Pool (Option Int64) Int64 × Outcome :=
  (p.indexOnce int64Kind).intern int64Kind alloc value
    (if !alloc.ready then .failed
    -- what `GameAlloc` returned is written through without a check
    else if alloc.value then .cell (some value) else .crashed)

/-- `bg3le_stats_float_intern`. -/
def floatIntern (p : Pool UInt32 UInt32) (alloc : Alloc) (bits : UInt32) : Pool UInt32 UInt32 × Outcome :=
  (p.indexOnce floatKind).intern floatKind alloc bits (.cell bits)

/-! ## The engine -/

/-- A move of the engine's: the capacity of the larger buffer, and what is then in the old one. -/
structure Move (α : Type) where
  capacity : ℕ
  left : ℕ → α

omit [DecidableEq κ] in
/-- The engine appends values, to the buffer it has or to a larger one. -/
def Pool.append (p : Pool α κ) (values : List α) (move : Option (Move α)) : Option (Pool α κ) :=
  let used := p.header.used + values.length
  let cells : ℕ → α := fun i =>
    if i < p.header.used then p.live i else values.getD (i - p.header.used) (p.live i)
  match move with
  | none =>
    if used ≤ p.header.capacity then
      some { p with
        memory := Function.update p.memory p.header.buffer cells
        header := { p.header with used } }
    else none
  | some move =>
    if p.header.capacity < move.capacity ∧ used ≤ move.capacity ∧ move.capacity < 2 ^ 32 then
      some { p with
        memory := Function.update (Function.update p.memory p.header.buffer move.left) p.buffers cells
        buffers := p.buffers + 1
        header := { buffer := p.buffers, capacity := move.capacity, used } }
    else none

/-! ## Runs -/

inductive Which where
  | conditions
  | strings
  | int64s
  | floats
deriving DecidableEq

abbrev Which.Cell : Which → Type
  | .conditions | .strings => Bytes
  | .int64s => Option Int64
  | .floats => UInt32

abbrev Which.Key : Which → Type
  | .conditions | .strings => Bytes
  | .int64s => Int64
  | .floats => UInt32

instance : (w : Which) → DecidableEq w.Cell
  | .conditions | .strings => inferInstanceAs (DecidableEq Bytes)
  | .int64s => inferInstanceAs (DecidableEq (Option Int64))
  | .floats => inferInstanceAs (DecidableEq UInt32)

instance : (w : Which) → DecidableEq w.Key
  | .conditions | .strings => inferInstanceAs (DecidableEq Bytes)
  | .int64s => inferInstanceAs (DecidableEq Int64)
  | .floats => inferInstanceAs (DecidableEq UInt32)

def Which.kind : (w : Which) → Kind w.Cell w.Key
  | .conditions => conditionKind
  | .strings => stringKind
  | .int64s => int64Kind
  | .floats => floatKind

abbrev Which.Pool (w : Which) : Type := StatsPools.Pool w.Cell w.Key

def internPool : (w : Which) → w.Pool → Alloc → w.Key → w.Pool × Outcome
  | .conditions => conditionIntern
  | .strings => stringIntern
  | .int64s => int64Intern
  | .floats => floatIntern

def readPool : (w : Which) → w.Pool → ℤ → w.Pool × Option w.Key
  | .conditions => attrCondition
  | .strings => attrString
  | .int64s => attrFlags
  | .floats => attrFloat

/-- A call of an intern function, and what it returned. -/
structure Interned where
  pool : Which
  value : pool.Key
  slot : ℤ

instance : DecidableEq Interned := fun a b =>
  decidable_of_iff
    ((⟨a.pool, a.value, a.slot⟩ : (w : Which) × w.Key × ℤ) = ⟨b.pool, b.value, b.slot⟩)
    ⟨by
      rintro h
      obtain ⟨pool, value, slot⟩ := a
      obtain ⟨pool', value', slot'⟩ := b
      cases h
      rfl, fun h => by rw [h]⟩

structure State where
  pools : (w : Which) → w.Pool
  /-- Texts that the string table has an entry for. -/
  held : List Bytes := []
  crashed : Bool := false
  history : List Interned := []

/-- The string table need not make an entry for a text that it holds. -/
def State.table (s : State) : (w : Which) → w.Key → Alloc → Alloc
  | .strings, text, alloc => { alloc with table := alloc.table || s.held.contains text }
  | _, _, alloc => alloc

def State.heldAfter (s : State) : (w : Which) → w.Key → Alloc → List Bytes
  | .strings, text, alloc => if alloc.table then text :: s.held else s.held
  | _, _, _ => s.held

inductive Action where
  | intern (w : Which) (value : w.Key) (alloc : Alloc)
  | read (w : Which) (raw : ℤ)
  | append (w : Which) (values : List w.Cell) (move : Option (Move w.Cell))

def step (s : State) : Action → Option State
  | .intern w value alloc =>
    if s.crashed then none
    else
      let interned := internPool w (s.pools w) (s.table w value alloc) value
      let s := { s with
        pools := Function.update s.pools w interned.1
        held := s.heldAfter w value alloc }
      match interned.2.result with
      | none => some { s with crashed := true }
      | some slot => some { s with history := s.history ++ [⟨w, value, slot⟩] }
  | .read w raw =>
    if s.crashed then none
    else some { s with pools := Function.update s.pools w (readPool w (s.pools w) raw).1 }
  | .append w values move =>
    if s.crashed then none
    else ((s.pools w).append values move).map fun p =>
      { s with pools := Function.update s.pools w p }

omit [DecidableEq κ] in
/-- A pool as it is found: what is kept is what the header says, and nothing was indexed. -/
structure Pool.Found (p : Pool α κ) : Prop where
  ref_eq : p.ref = ⟨p.header.buffer, p.header.used⟩
  buffer_lt : p.header.buffer < p.buffers
  used_pos : 0 < p.header.used
  used_le : p.header.used ≤ p.header.capacity
  capacity_le : p.header.capacity ≤ 4000000
  slots_eq : p.slots = fun _ => none
  indexed_eq : p.indexed = 1
  mapped_eq : p.mapped = false
  known_eq : p.known = fun _ => none

structure State.Found (s : State) : Prop where
  pools : ∀ w, (s.pools w).Found
  crashed_eq : s.crashed = false
  history_eq : s.history = []

/-! ## What the pools are to keep -/

/-- Every slot that was returned reads back as its value. -/
def Reads (s : State) : Prop :=
  ∀ e ∈ s.history, 1 ≤ e.slot → (readPool e.pool (s.pools e.pool) e.slot).2 = some e.value

/-- A value that has a slot is given one again. -/
def Right (past : List Interned) (e : Interned) : Prop :=
  ∀ slot, ⟨e.pool, e.value, slot⟩ ∈ past → 1 ≤ slot → 1 ≤ e.slot

/-- The engine's slots stay what they were, within the capacity. -/
structure Steady (s s' : State) : Prop where
  grows : ∀ w, (s.pools w).header.used ≤ (s'.pools w).header.used
  fits : ∀ w, (s'.pools w).header.used ≤ (s'.pools w).header.capacity
  same : ∀ w, ∀ i < (s.pools w).header.used, (s'.pools w).live i = (s.pools w).live i
  /-- A call that returns -1 appends none. -/
  failed : ∀ w value, s'.history = s.history ++ [⟨w, value, -1⟩] →
    ∀ w, (s'.pools w).header.used = (s.pools w).header.used

/-! ## Steps that the kept buffers are good for -/

omit [DecidableEq κ] in
/-- A cell from a slot on and before another one holds the value. -/
def Pool.Holds (k : Kind α κ) (p : Pool α κ) (first last : ℕ) (v : κ) : Prop :=
  ∃ i < last, first ≤ i ∧ k.key (p.live i) = some v

/-- The pool after a call has entered the cells it does. -/
def indexPool : (w : Which) → w.Pool → w.Pool
  | .conditions => Pool.indexLive conditionKind
  | .strings => Pool.indexOnce stringKind
  | .int64s => Pool.indexOnce int64Kind
  | .floats => Pool.indexOnce floatKind

/-- Where a value has to be appended: the engine has not moved the pool away from the kept buffer,
unless it is full and moved now; the slot and the larger capacity can be represented; and the
memory of a mask can be had. -/
structure Appends (w : Which) (p : w.Pool) (alloc : Alloc) : Prop where
  buffer : p.header.buffer = p.ref.buffer ∨ p.header.capacity ≤ p.header.used
  slot : p.header.used < 2 ^ 31
  grown : p.header.capacity ≤ p.header.used →
    p.header.capacity + p.header.capacity / 2 + 16 < 2 ^ 32
  value : w = .int64s → alloc.ready → alloc.value

def Clean (s : State) : Action → Prop
  | .intern w value alloc =>
    let p := s.pools w
    -- the readers do not reach what only the engine has appended since the last own append
    (w = .conditions → p.Holds w.kind p.ref.size p.header.used value →
      p.Holds w.kind 1 p.ref.size value) ∧
    ((indexPool w p).slots value = none → Appends w p alloc)
  | .read _ _ => True
  | .append w _ move =>
    let p := s.pools w
    -- what is left of the old buffer is still read
    ∀ m ∈ move, p.header.buffer = p.ref.buffer → ∀ i < p.ref.size, m.left i = p.live i

instance (k : Kind α κ) (p : Pool α κ) (first last : ℕ) (v : κ) :
    Decidable (p.Holds k first last v) :=
  inferInstanceAs (Decidable (∃ i < last, first ≤ i ∧ k.key (p.live i) = some v))

instance (w : Which) (p : w.Pool) (alloc : Alloc) : Decidable (Appends w p alloc) :=
  decidable_of_iff
    ((p.header.buffer = p.ref.buffer ∨ p.header.capacity ≤ p.header.used) ∧
      p.header.used < 2 ^ 31 ∧
      (p.header.capacity ≤ p.header.used →
        p.header.capacity + p.header.capacity / 2 + 16 < 2 ^ 32) ∧
      (w = .int64s → alloc.ready → alloc.value))
    ⟨fun h => ⟨h.1, h.2.1, h.2.2.1, h.2.2.2⟩, fun h => ⟨h.buffer, h.slot, h.grown, h.value⟩⟩

instance (s : State) : (a : Action) → Decidable (Clean s a)
  | .intern w value alloc => inferInstanceAs (Decidable
      ((w = .conditions →
          (s.pools w).Holds w.kind (s.pools w).ref.size (s.pools w).header.used value →
          (s.pools w).Holds w.kind 1 (s.pools w).ref.size value) ∧
        ((indexPool w (s.pools w)).slots value = none → Appends w (s.pools w) alloc)))
  | .read _ _ => inferInstanceAs (Decidable True)
  | .append w _ move => inferInstanceAs (Decidable
      (∀ m ∈ move, (s.pools w).header.buffer = (s.pools w).ref.buffer →
        ∀ i < (s.pools w).ref.size, m.left i = (s.pools w).live i))

end StatsPools
end Bg3le
