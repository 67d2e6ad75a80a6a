import Bg3le.Library.Run
import Bg3le.Library.Throughout
import Bg3le.Lua.EntitySubs
import Mathlib.Order.Bounds.Basic

/-!
# System updates (`FireSystemUpdate` of `lua_host.cpp`)

The loop goes through the list of a system by position, and reads the length of the list again each
time around. What the handlers do is given call by call.
-/

namespace Bg3le
namespace SystemUpdate

open EntitySubs

variable {E : Type}

/-- What a call of a handler does: what it subscribes and unsubscribes, and whether it raises an
error on which `tostring` raises. Any other error is printed. -/
structure Call (E : Type) where
  ops : List (Op E) := []
  raises : Bool := false

inductive Event where
  /-- The handler of an entry is called. -/
  | ran (sub : SystemSub)
  /-- `Unsubscribe` of an id returned true. -/
  | unsubscribed (id : ℕ)
deriving DecidableEq

inductive Status where
  | running
  | returned
  | raised
deriving DecidableEq

/-- An update: `i` counts from zero, and `log` is what happened since it began. -/
structure Update (E : Type) where
  table : Table E
  i : ℕ := 0
  calls : ℕ := 0
  log : List Event := []
  status : Status := .running

def Update.applyOp (u : Update E) (op : Op E) : Update E :=
  { u with
    table := op.apply u.table
    log := u.log ++
      match op with
      | .unsubscribe id => if (u.table.unsubscribe id).2 then [.unsubscribed id] else []
      | _ => [] }

/-- `table.remove(list, i)`. -/
def Update.remove (u : Update E) (index : ℕ) (post : Bool) : Update E :=
  { u with table := u.table.setList index post ((u.table.systemSubs post index).eraseIdx u.i) }

/-- The call of the handler of an entry. -/
def Update.call (u : Update E) (sub : SystemSub) (call : Call E) : Update E :=
  call.ops.foldl Update.applyOp { u with calls := u.calls + 1, log := u.log ++ [.ran sub] }

/-- The head and the body of the loop. -/
def round (index : ℕ) (post : Bool) (calls : ℕ → Call E) (u : Update E) : Update E :=
  if u.status ≠ .running then u
  else
    match (u.table.systemSubs post index)[u.i]? with
    | none => { u with status := .returned }
    | some sub =>
      if (u.table.entitySubs sub.id).isNone then u.remove index post
      else
        let call := calls u.calls
        let u := u.call sub call
        if call.raises then { u with status := .raised }
        else if sub.once then { u with table := u.table.clear sub.id }.remove index post
        else { u with i := u.i + 1 }

/-- `FireSystemUpdate`, after some rounds of its loop. -/
def fireSystemUpdate (t : Table E) (index : ℕ) (post : Bool) (calls : ℕ → Call E) (rounds : ℕ) :
    Update E :=
  (round index post calls)^[rounds] { table := t }

/-! ## What is expected of it -/

/-- A subscriber had its turn: its handler was called, or it was unsubscribed before. -/
def Served (log : List Event) (id : ℕ) : Prop :=
  (∃ sub, sub.id = id ∧ .ran sub ∈ log) ∨ .unsubscribed id ∈ log

/-- The subscribers of a system, as the table of all subscriptions has them. -/
def Registered (t : Table E) (index : ℕ) (post : Bool) (id : ℕ) : Prop :=
  ∃ sub, t.entitySubs id = some sub ∧ sub.system = some (index, post)

/-- A handler is called once in an update, of a subscriber that is not unsubscribed, after all
earlier ones that were registered when the update began had their turn. -/
def Right (t : Table E) (index : ℕ) (post : Bool) (past : List Event) : Event → Prop
  | .ran sub => (∀ sub', sub'.id = sub.id → .ran sub' ∉ past) ∧ .unsubscribed sub.id ∉ past ∧
    ∀ id, Registered t index post id → id < sub.id → Served past id
  | .unsubscribed _ => True

/-- What an update of a table has done when it returns. -/
structure Done (t : Table E) (index : ℕ) (post : Bool) (u : Update E) : Prop where
  right : Throughout (Right t index post) u.log
  served : ∀ id, Registered t index post id → Served u.log id
  spent : ∀ sub, .ran sub ∈ u.log → sub.once = true → u.table.entitySubs sub.id = none
  /-- The list is in the order of subscription. -/
  sorted : (u.table.systemSubs post index).Pairwise fun a b => a.id < b.id
  listed : ∀ id, Registered u.table index post id →
    ∃ sub ∈ u.table.systemSubs post index, sub.id = id
  registered : ∀ sub ∈ u.table.systemSubs post index,
    Registered u.table index post sub.id ∨ .unsubscribed sub.id ∈ u.log

/-- The update returns, and has done what is expected. -/
def Returns (t : Table E) (index : ℕ) (post : Bool) (calls : ℕ → Call E) : Prop :=
  ∃ rounds, (fireSystemUpdate t index post calls rounds).status = .returned ∧
    Done t index post (fireSystemUpdate t index post calls rounds)

/-- The table when the first calls of handlers have subscribed and unsubscribed what they do. -/
def tableAfter (t : Table E) (calls : ℕ → Call E) : ℕ → Table E
  | 0 => t
  | k + 1 => (calls k).ops.foldl Op.apply (tableAfter t calls k)

/-- Whose turn a call is, by the table and the handlers alone: first the earliest subscriber's, and
after each handler that does not raise, the next one's that is registered then. -/
inductive Turn (t : Table E) (index : ℕ) (post : Bool) (calls : ℕ → Call E) : ℕ → ℕ → Prop
  | first {id : ℕ} : IsLeast {id | Registered t index post id} id → Turn t index post calls 0 id
  | next {k id id' : ℕ} : Turn t index post calls k id → (calls k).raises = false →
      IsLeast {id' | id < id' ∧ Registered (tableAfter t calls (k + 1)) index post id'} id' →
      Turn t index post calls (k + 1) id'

/-- No handler that has its turn raises an error that cannot be printed, and there is an end to the
turns that subscribe to the system again. -/
def Settles (t : Table E) (index : ℕ) (post : Bool) (calls : ℕ → Call E) : Prop :=
  (∀ k id, Turn t index post calls k id → (calls k).raises = false) ∧
    ∃ last, ∀ k id, last ≤ k → Turn t index post calls k id →
      ∀ op ∈ (calls k).ops, op.system ≠ some (index, post)

/-! ## Runs -/

structure State (E : Type) where
  table : Table E := {}
  /-- The entries whose handlers were called. -/
  ran : List SystemSub := []

inductive Action (E : Type) where
  | op (op : Op E)
  /-- An update that ends within some rounds. -/
  | update (index : ℕ) (post : Bool) (calls : ℕ → Call E) (rounds : ℕ)

def Event.entry : Event → Option SystemSub
  | .ran sub => some sub
  | .unsubscribed _ => none

def step (s : State E) : Action E → Option (State E)
  | .op op => some { s with table := op.apply s.table }
  | .update index post calls rounds =>
    let u := fireSystemUpdate s.table index post calls rounds
    if u.status = .running then none
    else some { table := u.table, ran := s.ran ++ u.log.filterMap Event.entry }

/-- Every update of the run settles. -/
def Allowed (s : State E) : Action E → Prop
  | .op _ => True
  | .update index post calls _ => Settles s.table index post calls

/-- The handler of a `Once` subscriber is called at most once. -/
def OnceEver (s : State E) : Prop := ((s.ran.filter SystemSub.once).map SystemSub.id).Nodup

end SystemUpdate
end Bg3le
