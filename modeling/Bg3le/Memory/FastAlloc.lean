import Mathlib.Algebra.Group.Nat.Defs
import Mathlib.Data.List.Basic
import Bg3le.Library.Ownership
import Bg3le.Library.Run

/-!
# The pool in front of PhysX's temporary allocator: `fast_alloc.cpp`

Each thread keeps a free list for every size class and an arena it carves new blocks from. The
links of the free lists and the headers of the blocks are words of one memory. Each call of a hook
is one step of its thread; what `mmap` and the real allocator answer is part of the step.
-/

namespace Bg3le
namespace FastAlloc

open Ownership

def kMagic : ℕ := 0x42473354454D5031
def kHeaderSize : ℕ := 16
def kClasses : ℕ := 14
def kSmallest : ℕ := 16
def kArenaChunk : ℕ := 4 <<< 20

/-- The loop of `class_of`, with `left` classes above `cls`. -/
def classLoop (need : ℕ) : ℕ → ℕ → ℕ → ℕ × ℕ
  | 0, cap, cls => (cap, cls)
  | left + 1, cap, cls => if cap < need then classLoop need left (cap <<< 1) (cls + 1) else (cap, cls)

def classOf (size : ℕ) : ℕ :=
  let need := (size + kHeaderSize) % 2 ^ 64
  let (cap, cls) := classLoop need (kClasses - 1) kSmallest 0
  if need ≤ cap then cls else kClasses

def bytesOf (cls : ℕ) : ℕ := kSmallest <<< cls

/-- `ThreadPool`; a head of 0 is an empty list. -/
structure ThreadPool where
  freeList : ℕ → ℕ := fun _ => 0
  arena : ℕ := 0
  arenaLeft : ℕ := 0

/-- History: a block that is live, by what was asked for and who served it. -/
structure Block where
  pool : Bool
  ptr : ℕ
  size : ℕ
deriving DecidableEq

/-- Where the memory of a live block starts, its header included. -/
def Block.start (b : Block) : ℕ := if b.pool then b.ptr - kHeaderSize else b.ptr

/-- How much memory it has; a real block has an address of its own even when it is empty. -/
def Block.bytes (b : Block) : ℕ := if b.pool then bytesOf (classOf b.size) else max b.size 1

structure State where
  /-- The word at an address that is a multiple of eight. -/
  word : ℕ → ℕ := fun _ => 0
  pools : ℕ → ThreadPool := fun _ => {}
  /-- The pointers `g_real_free` was called with. -/
  passed : List ℕ := []
  /-- History: the mapped chunks, the blocks that were carved, the live blocks, and the pointers
  from the real allocator that were given to `free_hook`. -/
  chunks : List (ℕ × ℕ) := []
  carved : List (ℕ × ℕ) := []
  live : List Block := []
  returned : List ℕ := []

def State.setPool (s : State) (thread : ℕ) (pool : ThreadPool) : State :=
  { s with pools := Function.update s.pools thread pool }

def State.store (s : State) (address value : ℕ) : State :=
  { s with word := Function.update s.word address value }

/-- The size of the chunk `carve` maps. -/
def chunkFor (want : ℕ) : ℕ := if kArenaChunk < want then want else kArenaChunk

/-- The refill of `carve`. -/
def refill (want : ℕ) (mem : Option ℕ) (thread : ℕ) (s : State) : Option State :=
  let pool := s.pools thread
  if pool.arenaLeft < want then
    match mem with
    | none => none
    | some mem =>
      some { s.setPool thread { pool with arena := mem, arenaLeft := chunkFor want } with
        chunks := (mem, chunkFor want) :: s.chunks }
  else some s

/-- `carve`, where `mmap` answers `mem`. -/
def carve (want : ℕ) (mem : Option ℕ) (thread : ℕ) (s : State) : Option (State × ℕ) :=
  (refill want mem thread s).map fun s =>
    let pool := s.pools thread
    ({ s.setPool thread
        { pool with arena := pool.arena + want, arenaLeft := pool.arenaLeft - want } with
      carved := (pool.arena, want) :: s.carved }, pool.arena)

/-- A call of `g_real_alloc` that answers `mem`. -/
def realAlloc (size : ℕ) (mem : Option ℕ) (s : State) : State :=
  match mem with
  | none => s
  | some ptr => { s with live := { pool := false, ptr, size } :: s.live }

/-- The end of `alloc_hook`: the header of the block. -/
def serve (cls size block : ℕ) (s : State) : State :=
  let s := (s.store block kMagic).store (block + 8) cls
  { s with live := { pool := true, ptr := block + kHeaderSize, size } :: s.live }

def allocHook (thread size : ℕ) (mem real : Option ℕ) (s : State) : State :=
  let cls := classOf size
  if kClasses ≤ cls then realAlloc size real s
  else
    let pool := s.pools thread
    if pool.freeList cls ≠ 0 then
      let node := pool.freeList cls
      serve cls size node
        (s.setPool thread { pool with freeList := Function.update pool.freeList cls (s.word node) })
    else
      match carve (bytesOf cls) mem thread s with
      | none => realAlloc size real s
      | some (s, block) => serve cls size block s

def realFree (ptr : ℕ) (s : State) : State := { s with passed := s.passed ++ [ptr] }

def freeHook (thread ptr : ℕ) (s : State) : State :=
  if ptr = 0 then s
  else
    let head := ptr - kHeaderSize
    if s.word head ≠ kMagic then realFree ptr s
    else
      let cls := s.word (head + 8)
      if kClasses ≤ cls then realFree ptr s
      else
        let s := s.store head 0
        let pool := s.pools thread
        let s := s.store head (pool.freeList cls)
        s.setPool thread { pool with freeList := Function.update pool.freeList cls head }

inductive Action where
  /-- `alloc_hook`, with the answers of `mmap` and of the real allocator if they are asked. -/
  | alloc (thread size : ℕ) (mem real : Option ℕ)
  /-- `free_hook` of a live block, or of `nullptr`. -/
  | free (thread : ℕ) (block : Option Block)
  /-- The real allocator serves a call that was not hooked. -/
  | unhooked (ptr size : ℕ)
  /-- The game writes to its memory. -/
  | write (address value : ℕ)

/-- `free_hook`, with what it does to the history. -/
def free (thread : ℕ) (block : Option Block) (s : State) : State :=
  match block with
  | none => freeHook thread 0 s
  | some b =>
    let s := freeHook thread b.ptr s
    { s with
      live := s.live.filter (· ≠ b)
      returned := if b.pool then s.returned else s.returned ++ [b.ptr] }

def step (s : State) : Action → Option State
  | .alloc thread size mem real => some (allocHook thread size mem real s)
  | .free thread block => some (free thread block s)
  | .unhooked ptr size => some (realAlloc size (some ptr) s)
  | .write address value => some (s.store address value)

instance (a n b m : ℕ) : Decidable (Apart a n b m) := by
  unfold Apart
  infer_instance

/-- Memory that is not in use: neither mapped by the pool nor in a live block of the real
allocator. -/
def Fresh (s : State) (a n : ℕ) : Prop :=
  a ≠ 0 ∧ (∀ c ∈ s.chunks, Apart a n c.1 c.2) ∧
    ∀ b ∈ s.live, b.pool = false → Apart a n b.start b.bytes

instance (s : State) (a n : ℕ) : Decidable (Fresh s a n) := by
  unfold Fresh
  infer_instance

/-- Memory the game may write to: outside the chunks, and in the payload of a live block. -/
def Writable (s : State) (a : ℕ) : Prop :=
  (∀ c ∈ s.chunks, a < c.1 ∨ c.1 + c.2 ≤ a) ∨
    ∃ b ∈ s.live, b.pool = true ∧ b.ptr ≤ a ∧ a < b.start + b.bytes

instance (s : State) (a : ℕ) : Decidable (Writable s a) := by
  unfold Writable
  infer_instance

/-- What the calls of the game and the answers of the system keep to: sizes do not overflow,
mapped memory is fresh and page aligned, so is what the real allocator gives, a block that is
freed is live, and a real one has no magic in front of it. -/
def allowed (s : State) : Action → Prop
  | .alloc _ size mem real =>
    size ≤ 2 ^ 64 - 17 ∧ (∀ a ∈ mem, 4096 ∣ a ∧ Fresh s a (chunkFor (bytesOf (classOf size)))) ∧
      ∀ a ∈ real, Fresh s a (max size 1)
  | .free _ block =>
    ∀ b ∈ block, b ∈ s.live ∧ (b.pool = false → s.word (b.ptr - kHeaderSize) ≠ kMagic)
  | .unhooked ptr size => Fresh s ptr (max size 1)
  | .write address _ => Writable s address

instance (s : State) (a : Action) : Decidable (allowed s a) := by
  cases a <;> unfold allowed <;> infer_instance

end FastAlloc
end Bg3le
