import Bg3le.Library.Run
import Bg3le.Library.Throughout
import Bg3le.Lua.EntitySubs

/-!
# Entity events (`FireEntityEvent` of `lua_host.cpp`)

A fire traverses the table of all subscriptions with `pairs`, and calls the handlers of those that
match. The order of a traversal is not known, so its steps come as actions, like what the handlers
do. A field that is assigned while it was absent leaves the rest of each traversal under way
unspecified: it may repeat and skip fields, and may raise.
-/

namespace Bg3le
namespace EntityEvents

open EntitySubs

variable {E : Type}

/-- What an event is fired with. -/
structure Fired (E : Type) where
  kind : Kind
  component : Bytes
  entity : E
  /-- The first further argument. -/
  flags : Option UInt64 := none
deriving DecidableEq

/-- `fields` of `FireEntityEvent`. -/
def Fired.fields (fired : Fired E) : Option UInt64 :=
  if fired.kind = .change then fired.flags else none

/-- Whether a subscription matches. `Flags` are only masked where all else does, and that raises
when they are no integer. -/
def Fired.test [DecidableEq E] (fired : Fired E) (sub : Subscription E) : Option Bool :=
  if sub.kind = fired.kind ∧ sub.component = some fired.component ∧
      (sub.entity = none ∨ sub.entity = some fired.entity) then
    match fired.fields with
    | none => some true
    | some fields => sub.flags.map fun flags => flags &&& fields ≠ 0
  else some false

inductive Event (E : Type) where
  | subscribed (id : ℕ) (sub : Subscription E)
  /-- `Unsubscribe` of an id returned true. -/
  | unsubscribed (id : ℕ)
  | began (fire : ℕ) (fired : Fired E)
  /-- The handler of a subscription is called, which is spent if it is for one time. -/
  | ran (fire : ℕ) (id : ℕ) (once : Bool)
  | ended (fire : ℕ)
  /-- A fire raises. -/
  | raised (fire : ℕ)
deriving DecidableEq

/-- A fire that has not ended, with its traversal: the fields that were there when it began, those
it came to, and whether a field was added since. -/
structure Frame (E : Type) where
  fire : ℕ
  fired : Fired E
  began : List ℕ
  visited : List ℕ := []
  spoiled : Bool := false
  /-- The handler of the field it came to last has not returned. -/
  running : Bool := false

structure State (E : Type) where
  table : Table E := {}
  stack : List (Frame E) := []
  fires : ℕ := 0
  history : List (Event E) := []

/-- The fields of `entity_subs`. -/
def present (t : Table E) : List ℕ := (List.range t.nextSub).filter fun id => (t.entitySubs id).isSome

inductive Action (E : Type) where
  | op (op : Op E)
  | fire (fired : Fired E)
  /-- The traversal on top comes to a field. -/
  | visit (id : ℕ)
  /-- The traversal on top ends. -/
  | finish
  /-- The traversal on top raises. -/
  | fault
  /-- The handler on top returned, or raised and the error was printed. -/
  | returns
  /-- The handler on top raised, and so did `tostring` of the error. -/
  | raises

/-- What an operation leaves in the history. -/
def opEvents (t : Table E) (op : Op E) : List (Event E) :=
  match op with
  | .unsubscribe id => if (t.entitySubs id).isSome then [.unsubscribed id] else []
  | op => ((op.apply t).entitySubs t.nextSub).toList.map fun sub => .subscribed t.nextSub sub

def Frame.spoil (f : Frame E) : Frame E := { f with spoiled := true }

/-- An operation of the handler on top, or of code outside of any fire. -/
def State.apply (s : State E) (op : Op E) : State E :=
  { s with
    table := op.apply s.table
    stack := if (op.apply s.table).nextSub = s.table.nextSub then s.stack
      else s.stack.map Frame.spoil
    history := s.history ++ opEvents s.table op }

/-- `FireEntityEvent`, up to its loop. -/
def State.fire (s : State E) (fired : Fired E) : State E :=
  { s with
    stack := { fire := s.fires, fired, began := present s.table } :: s.stack
    fires := s.fires + 1
    history := s.history ++ [.began s.fires fired] }

/-- The body of the loop, for the field of a subscription. -/
def State.visit [DecidableEq E] (s : State E) (f : Frame E) (stack : List (Frame E)) (id : ℕ)
    (sub : Subscription E) : State E :=
  match f.fired.test sub with
  | none => { s with stack := stack, history := s.history ++ [.raised f.fire] }
  | some false => { s with stack := { f with visited := f.visited ++ [id] } :: stack }
  | some true =>
    { s with
      table := if sub.once then s.table.clear id else s.table
      stack := { f with visited := f.visited ++ [id], running := true } :: stack
      history := s.history ++ [.ran f.fire id sub.once] }

/-- Whether the code on top is a handler, or code outside of any fire. -/
def State.acts (s : State E) : Bool := s.stack.head?.all Frame.running

/-- Whether a traversal may come to a field: one of those it began with, once. -/
def Frame.mayVisit (f : Frame E) (id : ℕ) : Prop := f.spoiled = true ∨ (id ∈ f.began ∧ id ∉ f.visited)

/-- Whether a traversal may end: all fields it began with were visited or are gone. -/
def Frame.mayFinish (t : Table E) (f : Frame E) : Prop :=
  f.spoiled = true ∨ ∀ id ∈ f.began, id ∈ f.visited ∨ (t.entitySubs id).isNone = true

instance (f : Frame E) (id : ℕ) : Decidable (f.mayVisit id) := inferInstanceAs (Decidable (_ ∨ _))

instance (t : Table E) (f : Frame E) : Decidable (f.mayFinish t) :=
  inferInstanceAs (Decidable (_ ∨ ∀ id ∈ f.began, _ ∨ _))

def step [DecidableEq E] (s : State E) : Action E → Option (State E)
  | .op op => if s.acts then some (s.apply op) else none
  | .fire fired => if s.acts then some (s.fire fired) else none
  | .visit id =>
    match s.stack, s.table.entitySubs id with
    | f :: stack, some sub =>
      if f.running = false ∧ f.mayVisit id then some (s.visit f stack id sub) else none
    | _, _ => none
  | .finish =>
    match s.stack with
    | f :: stack =>
      if f.running = false ∧ f.mayFinish s.table then
        some { s with stack := stack, history := s.history ++ [.ended f.fire] }
      else none
    | [] => none
  | .fault =>
    match s.stack with
    | f :: stack =>
      if f.running = false ∧ f.spoiled = true then
        some { s with stack := stack, history := s.history ++ [.raised f.fire] }
      else none
    | [] => none
  | .returns =>
    match s.stack with
    | f :: stack =>
      if f.running then some { s with stack := { f with running := false } :: stack } else none
    | [] => none
  | .raises =>
    match s.stack with
    | f :: stack =>
      if f.running then some { s with stack := stack, history := s.history ++ [.raised f.fire] }
      else none
    | [] => none

/-! ## What is expected of it -/

/-- A subscription was unsubscribed, or spent. -/
def Gone (past : List (Event E)) (id : ℕ) : Prop :=
  .unsubscribed id ∈ past ∨ ∃ fire, .ran fire id true ∈ past

/-- What a fire was fired with, and what had happened before. -/
def Began (past : List (Event E)) (fire : ℕ) (fired : Fired E) (before : List (Event E)) : Prop :=
  ∃ since, past = before ++ .began fire fired :: since

/-- A fire is over. -/
def Over (past : List (Event E)) (fire : ℕ) : Prop := .ended fire ∈ past ∨ .raised fire ∈ past

/-- What may happen after what. A fire calls the handler of a subscription that matches, existed
when it began and is neither unsubscribed nor spent, once; it ends when it has called all such
handlers, and does not raise. -/
def Right [DecidableEq E] (past : List (Event E)) : Event E → Prop
  | .subscribed id _ => ∀ sub, .subscribed id sub ∉ past
  | .unsubscribed _ => True
  | .began fire _ => ∀ fired, .began fire fired ∉ past
  | .ran fire id once => ¬Over past fire ∧ ¬Gone past id ∧ (∀ once', .ran fire id once' ∉ past) ∧
    ∃ fired before sub, Began past fire fired before ∧ .subscribed id sub ∈ before ∧
      fired.test sub = some true ∧ once = sub.once
  | .ended fire => ¬Over past fire ∧ ∃ fired before, Began past fire fired before ∧
    ∀ id sub, .subscribed id sub ∈ before → ¬Gone before id → fired.test sub = some true →
      (∃ once, .ran fire id once ∈ past) ∨ Gone past id
  | .raised _ => False

/-- Each traversal under way comes to a field it began with, once, and the one whose turn it is goes
on to another or ends. -/
structure GoesOn [DecidableEq E] (s : State E) : Prop where
  visits : ∀ f ∈ s.stack, f.visited.Nodup ∧ ∀ id ∈ f.visited, id ∈ f.began
  turn : ∀ f ∈ s.stack.head?, f.running = false →
    (step s .finish).isSome = true ∨ ∃ id, (step s (.visit id)).isSome = true

/-- No handler that is called in a fire subscribes anything, the `Flags` that are masked are
integers, and printing an error does not raise. -/
def Kept [DecidableEq E] (s : State E) : Action E → Prop
  | .op op => s.stack = [] ∨ (op.apply s.table).nextSub = s.table.nextSub
  | .visit id => ∀ f ∈ s.stack.head?, ∀ sub ∈ s.table.entitySubs id, f.fired.test sub ≠ none
  | .raises => False
  | _ => True

instance [DecidableEq E] (s : State E) (a : Action E) : Decidable (Kept s a) :=
  match a with
  | .op _ => inferInstanceAs (Decidable (_ ∨ _))
  | .visit _ => inferInstanceAs (Decidable (∀ _ ∈ _, ∀ _ ∈ _, _))
  | .raises => inferInstanceAs (Decidable False)
  | .fire _ | .finish | .fault | .returns => inferInstanceAs (Decidable True)

end EntityEvents
end Bg3le
