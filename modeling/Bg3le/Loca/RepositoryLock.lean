import Bg3le.Library.Run
import Bg3le.Library.Tally

/-!
# The lock of the engine's repository: `vendor/translated_strings.cpp`

The word counts the readers in its low 20 bits and the writers above them. A thread adds itself
and takes the addition back where it finds a writer, so that the word counts threads that were
not let in, too. Every step below is one atomic operation of one thread.
-/

namespace Bg3le
namespace RepositoryLock

/-- `0xfff00000u`. -/
def writers (word : UInt32) : UInt32 := word &&& 0xfff00000

/-- `0x000fffffu`. -/
def readers (word : UInt32) : UInt32 := word &&& 0x000fffff

/-- Where a reader is: `spins` is the argument of `read_lock`, and `i` counts its attempts. -/
inductive Reader where
  | outside
  /-- At the test of the loop, before the load. -/
  | loading (spins i : ℤ)
  /-- Before the `fetch_add`. -/
  | adding (spins i : ℤ)
  /-- Before the `fetch_sub` that takes the addition back. -/
  | undoing (spins i : ℤ)
  /-- `read_lock` returned true. -/
  | holding
  /-- In `read_unlock`. -/
  | unlocking
deriving DecidableEq

/-- Where a writer is. -/
inductive Writer where
  | outside
  | loading (spins i : ℤ)
  | adding (spins i : ℤ)
  | undoing (spins i : ℤ)
  /-- At the loop that waits the readers out. -/
  | waiting
  /-- `write_lock` returned true. -/
  | holding
  /-- In `write_unlock`. -/
  | unlocking
deriving DecidableEq

/-- One operation of a reader: the word it leaves, and where the reader is then. -/
def readStep (word : UInt32) : Reader → UInt32 × Reader
  | .loading spins i =>
    if spins < 0 ∨ i < spins then
      (word, if writers word = 0 then .adding spins i else .loading spins (i + 1))
    else (word, .outside)
  | .adding spins i => (word + 1, if writers word = 0 then .holding else .undoing spins i)
  | .undoing spins i => (word - 1, .loading spins (i + 1))
  | .unlocking => (word - 1, .outside)
  | .outside => (word, .outside)
  | .holding => (word, .holding)

def writeStep (word : UInt32) : Writer → UInt32 × Writer
  | .loading spins i =>
    if 0 ≤ spins ∧ spins ≤ i then (word, .outside)
    else (word, if writers word = 0 then .adding spins i else .loading spins (i + 1))
  | .adding spins i =>
    (word + 0x100000, if writers word = 0 then .waiting else .undoing spins i)
  | .undoing spins i => (word - 0x100000, .loading spins (i + 1))
  | .waiting => (word, if readers word = 0 then .holding else .waiting)
  | .unlocking => (word - 0x100000, .outside)
  | .outside => (word, .outside)
  | .holding => (word, .holding)

/-- The word, `r` readers and `w` writers. A thread that does both is one of each. -/
structure State (r w : ℕ) where
  word : UInt32
  reader : Fin r → Reader
  writer : Fin w → Writer

inductive Action (r w : ℕ) where
  /-- The call of `read_lock`. -/
  | readLock (t : Fin r) (spins : ℤ)
  /-- The call of `read_unlock`, by a thread that holds the lock. -/
  | readUnlock (t : Fin r)
  /-- The next operation of a reader that is inside either. -/
  | read (t : Fin r)
  | writeLock (t : Fin w) (spins : ℤ)
  | writeUnlock (t : Fin w)
  | write (t : Fin w)

variable {r w : ℕ}

/-- The word as it is at the start, with nobody inside. -/
def State.start (word : UInt32) : State r w := ⟨word, fun _ => .outside, fun _ => .outside⟩

def State.setReader (s : State r w) (t : Fin r) (word : UInt32) (at' : Reader) : State r w :=
  { s with word := word, reader := Function.update s.reader t at' }

def State.setWriter (s : State r w) (t : Fin w) (word : UInt32) (at' : Writer) : State r w :=
  { s with word := word, writer := Function.update s.writer t at' }

/-- What an action does, where the thread can take it. Without a `lock_offset` both locks return
false at once. -/
def step (offset : UInt32) (s : State r w) : Action r w → Option (State r w)
  | .readLock t spins =>
    if s.reader t = .outside then
      some (if offset = 0 then s else s.setReader t s.word (.loading spins 0))
    else none
  | .readUnlock t =>
    if s.reader t = .holding then some (s.setReader t s.word .unlocking) else none
  | .read t =>
    if s.reader t = .outside ∨ s.reader t = .holding then none
    else some (s.setReader t (readStep s.word (s.reader t)).1 (readStep s.word (s.reader t)).2)
  | .writeLock t spins =>
    if s.writer t = .outside then
      some (if offset = 0 then s else s.setWriter t s.word (.loading spins 0))
    else none
  | .writeUnlock t =>
    if s.writer t = .holding then some (s.setWriter t s.word .unlocking) else none
  | .write t =>
    if s.writer t = .outside ∨ s.writer t = .holding then none
    else some (s.setWriter t (writeStep s.word (s.writer t)).1 (writeStep s.word (s.writer t)).2)

/-! ## Who has the lock -/

/-- Between a `read_lock` that returned true and the end of its `read_unlock`. -/
def Reader.has : Reader → Bool
  | .holding | .unlocking => true
  | _ => false

def Writer.has : Writer → Bool
  | .holding | .unlocking => true
  | _ => false

/-- Inside none of the functions. -/
def Reader.idle : Reader → Bool
  | .outside | .holding => true
  | _ => false

def Writer.idle : Writer → Bool
  | .outside | .holding => true
  | _ => false

/-- Nobody is inside any of the four functions. -/
def State.Idle (s : State r w) : Prop :=
  (∀ t, (s.reader t).idle = true) ∧ ∀ t, (s.writer t).idle = true

instance (s : State r w) : Decidable s.Idle := inferInstanceAs (Decidable (_ ∧ _))

/-- A writer has the lock alone. -/
def State.Exclusive (s : State r w) : Prop :=
  ∀ t, (s.writer t).has = true →
    (∀ t', (s.writer t').has = true → t' = t) ∧ ∀ t', (s.reader t').has = false

end RepositoryLock
end Bg3le
