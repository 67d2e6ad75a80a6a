import Bg3le.Bytes
import Bg3le.Library.Run
import Mathlib.Logic.Function.Basic

/-!
# Interning a text (`fixed_string.cpp`)

The engine's string table has a list of free entries for each size of text, linked through the
entries' headers. `bg3le_fixed_string_intern` takes an entry off a list that the engine takes entries
from and puts entries on meanwhile, one memory access at a time.
-/

namespace Bg3le
namespace StringTable

/-! ## Data -/

def kSubTableCount : ℕ := 11
def kAttempts : ℕ := 64
def kInternRefCount : ℕ := 0x100000

/-- `sizeof(Header)` -/
def headerSize : ℕ := 24

/-- `Header` -/
structure Header where
  hash : ℕ
  refCount : ℕ
  length : ℕ
  id : ℕ
  nextFreeIndex : ℕ
deriving DecidableEq

/-- What is read of a `SubTable`: its sizes, whether it has an array of buckets, and which of the
buckets can be read. -/
structure SubTable where
  entrySize : ℕ
  entriesPerBucket : ℕ
  numBuckets : ℕ
  buckets : Bool
  bucket : ℕ → Bool

/-- `sub_table_plausible` -/
def SubTable.plausible (st : SubTable) : Bool :=
  headerSize + 1 ≤ st.entrySize && st.entrySize ≤ 0x10000 && st.entriesPerBucket ≠ 0 &&
    st.entriesPerBucket ≤ 1 <<< 24 && st.numBuckets ≠ 0 && st.numBuckets ≤ 1 <<< 24 && st.buckets

/-- A sub-table that the loop does not pass over for a text of a length. -/
def SubTable.takes (st : SubTable) (length : ℕ) : Bool :=
  st.plausible && headerSize + 1 < st.entrySize && length + 1 ≤ st.entrySize - headerSize

/-! ## Ids -/

def subOf (id : ℕ) : ℕ := id % 16
def bucketOf (id : ℕ) : ℕ := id / 16 % 0x10000
def entryOf (id : ℕ) : ℕ := id / 2 ^ 20

/-- The entry that an id names is one of the sub-table's. -/
def SubTable.has (st : SubTable) (id : ℕ) : Bool :=
  bucketOf id < st.numBuckets && entryOf id < st.entriesPerBucket && st.bucket (bucketOf id)

/-- The entry that the head of a free list names: the low half is its id. -/
def nodeOf (tables : ℕ → SubTable) (sub head : ℕ) : Option ℕ :=
  if subOf (head % 2 ^ 32) = sub ∧ (tables sub).has (head % 2 ^ 32) then some (head % 2 ^ 32) else none

/-- `resolve`: the text that stands in an entry, with its length. -/
def resolve (tables : ℕ → SubTable) (headers : ℕ → Header) (texts : ℕ → Bytes) (id : ℕ) :
    Option (Bytes × ℕ) :=
  if kSubTableCount ≤ subOf id then none
  else if (tables (subOf id)).has id = false ∨ (tables (subOf id)).buckets = false then none
  else if (tables (subOf id)).entrySize < (headers id).length then none
  else some (texts id, (headers id).length)

/-! ## A call -/

/-- Where a call of `bg3le_fixed_string_intern` is: the next access to the table. -/
inductive Stage where
  | load
  | readCount (head : ℕ)
  | readLength (head refCount : ℕ)
  | readNext (head refCount length : ℕ)
  | exchange (head next : ℕ)
  | write (id : ℕ)
  | check (id : ℕ)
deriving DecidableEq

/-- A call in its loop, with the number of moves that the engine had made on the list when the call
began, and when the attempt did. -/
structure Call where
  text : Bytes
  sub : ℕ
  attempts : ℕ
  stage : Stage
  start : ℕ
  began : ℕ
deriving DecidableEq

/-- What a call comes to: the engine made the id, the text was known or the index found it, no
sub-table takes it, the list is not one to touch, the attempts were used up over a number of moves by
the engine, the entry does not read back, or it was interned. -/
inductive Outcome where
  | created (id : ℕ)
  | known (id : ℕ)
  | found (id : ℕ)
  | noSubTable
  | untouched
  | lost (moves : ℕ)
  | misread (id : ℕ)
  | interned (id : ℕ)
deriving DecidableEq

/-- Who may write to an entry. -/
inductive Owner where
  | list
  | engine
  | ours
deriving DecidableEq

/-- The table, `ours`, the call that is going on and the calls that were made. Whose an entry is, the
values that the heads have had and the engine's moves are kept for the proofs alone. -/
structure State where
  heads : ℕ → ℕ
  headers : ℕ → Header
  texts : ℕ → Bytes
  ours : Bytes → Option ℕ
  call : Option Call
  outcomes : List (Bytes × Outcome)
  owner : ℕ → Owner
  used : ℕ → List ℕ
  moves : ℕ → ℕ

/-- The header that is written to an entry. -/
def internHeader (length : ℕ) : Header := ⟨0, kInternRefCount, length, 1, 0⟩

/-- The sub-table that a text of a length goes into. -/
def chooseSub (tables : ℕ → SubTable) (length : ℕ) : Option ℕ :=
  (List.range kSubTableCount).find? fun sub => (tables sub).takes length

namespace State

/-- The call returns. -/
def finish (s : State) (text : Bytes) (outcome : Outcome) : State :=
  { s with call := none, outcomes := s.outcomes ++ [(text, outcome)] }

/-- The start of `bg3le_fixed_string_intern`, with what the engine's `CreateFromString` gives, where
it was found and takes the text, and what the index of texts gives. -/
def intern (tables : ℕ → SubTable) (s : State) (text : Bytes) (created index : Option ℕ) : State :=
  match created with
  | some id => s.finish text (.created id)
  | none =>
    match s.ours text with
    | some id => s.finish text (.known id)
    | none =>
      match index with
      | some id => { s with ours := Function.update s.ours text (some id) }.finish text (.found id)
      | none =>
        match chooseSub tables text.length with
        | none => s.finish text .noSubTable
        | some sub => { s with call := some ⟨text, sub, 0, .load, s.moves sub, s.moves sub⟩ }

/-- The call goes on. -/
def goto (s : State) (c : Call) (stage : Stage) : State := { s with call := some { c with stage := stage } }

/-- The next attempt, unless that was the last one. -/
def retry (s : State) (c : Call) : State :=
  { s with call := some { c with attempts := c.attempts + 1, stage := .load, began := s.moves c.sub } }

/-- The next access of a call to the table. -/
def advance (tables : ℕ → SubTable) (s : State) (c : Call) : State :=
  match c.stage with
  | .load =>
    if kAttempts ≤ c.attempts then s.finish c.text (.lost (s.moves c.sub - c.start))
    else
      match nodeOf tables c.sub (s.heads c.sub) with
      | none => s.finish c.text .untouched
      | some _ =>
        { s with call := some { c with stage := .readCount (s.heads c.sub), began := s.moves c.sub } }
  | .readCount head => s.goto c (.readLength head (s.headers (head % 2 ^ 32)).refCount)
  | .readLength head refCount => s.goto c (.readNext head refCount (s.headers (head % 2 ^ 32)).length)
  | .readNext head refCount length =>
    -- whoever won the entry has filled it in
    if refCount ≠ 0 ∨ length ≠ 0 then s.retry c
    else s.goto c (.exchange head (s.headers (head % 2 ^ 32)).nextFreeIndex)
  | .exchange head next =>
    if s.heads c.sub = head then
      { s.goto c (.write (head % 2 ^ 32)) with
        heads := Function.update s.heads c.sub next
        owner := Function.update s.owner (head % 2 ^ 32) .ours }
    else s.retry c
  | .write id =>
    { s.goto c (.check id) with
      headers := Function.update s.headers id (internHeader c.text.length)
      texts := Function.update s.texts id c.text }
  | .check id =>
    if resolve tables s.headers s.texts id = some (c.text, c.text.length) then
      { s with ours := Function.update s.ours c.text (some id) }.finish c.text (.interned id)
    else s.finish c.text (.misread id)

end State

/-! ## Runs -/

/-- A step of a call, or of the engine on another thread: it takes the entry on top of a list, writes
to an entry that is its own, puts one back under a head that is new, and counts references to an entry
that was interned. -/
inductive Action where
  | intern (text : Bytes) (created index : Option ℕ)
  | advance
  | take (sub : ℕ)
  | fill (id : ℕ) (header : Header) (text : Bytes)
  | release (sub head : ℕ)
  | count (id refCount : ℕ)

/-- An entry that the engine may put on a list under a head: it is the engine's, reads as free, and is
linked to the list. The head has a counter that makes it new. -/
def Releasable (tables : ℕ → SubTable) (s : State) (sub head : ℕ) : Prop :=
  ∃ id, nodeOf tables sub head = some id ∧ s.owner id = .engine ∧ head ∉ s.used sub ∧
    (s.headers id).refCount = 0 ∧ (s.headers id).length = 0 ∧
    (s.headers id).nextFreeIndex = s.heads sub

instance (tables : ℕ → SubTable) (s : State) (sub head : ℕ) : Decidable (Releasable tables s sub head) :=
  decidable_of_iff ((nodeOf tables sub head).any fun id => s.owner id = .engine ∧ head ∉ s.used sub ∧
    (s.headers id).refCount = 0 ∧ (s.headers id).length = 0 ∧
    (s.headers id).nextFreeIndex = s.heads sub) (by simp [Releasable, Option.any_eq_true])

namespace State

/-- The engine takes the entry on top of a list. -/
def take (s : State) (sub id : ℕ) : State :=
  { s with
    heads := Function.update s.heads sub (s.headers id).nextFreeIndex
    owner := Function.update s.owner id .engine
    moves := Function.update s.moves sub (s.moves sub + 1) }

/-- The engine writes to an entry. -/
def fill (s : State) (id : ℕ) (header : Header) (text : Bytes) : State :=
  { s with
    headers := Function.update s.headers id header
    texts := Function.update s.texts id text }

/-- The engine puts an entry on a list under a head. -/
def release (s : State) (sub head : ℕ) : State :=
  { s with
    heads := Function.update s.heads sub head
    owner := Function.update s.owner (head % 2 ^ 32) .list
    used := Function.update s.used sub (head :: s.used sub)
    moves := Function.update s.moves sub (s.moves sub + 1) }

/-- The engine counts the references to an entry. -/
def count (s : State) (id refCount : ℕ) : State :=
  { s with headers := Function.update s.headers id { s.headers id with refCount := refCount } }

end State

/-- One step. The references to an interned entry never come to none, since they start so high. -/
def step (tables : ℕ → SubTable) (s : State) : Action → Option State
  | .intern text created index =>
    if s.call.isSome then none else some (s.intern tables text created index)
  | .advance => s.call.map (s.advance tables)
  | .take sub => (nodeOf tables sub (s.heads sub)).map (s.take sub)
  | .fill id header text => if s.owner id = .engine then some (s.fill id header text) else none
  | .release sub head => if Releasable tables s sub head then some (s.release sub head) else none
  | .count id refCount => if s.owner id = .ours ∧ refCount ≠ 0 then some (s.count id refCount) else none

end StringTable
end Bg3le
