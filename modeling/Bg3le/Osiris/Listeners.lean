import Bg3le.Bytes
import Bg3le.Library.Run
import Bg3le.Library.Throughout
import Mathlib.Logic.Function.Basic

/-!
# Osiris listeners (`Ext.Osiris` of `lua_host.cpp`)

A fire runs the handlers of a key from a snapshot of its list. What a handler does comes as
actions: it is always the handler on top that acts, or code outside of any fire. A subscriber is
named by its id, and everything that happens is kept in a history.
-/

namespace Bg3le
namespace OsirisListeners

/-- An argument of `UnregisterListener`: an integer (a float of an integer's value is one), or
anything else. -/
inductive Arg where
  | integer (i : ℤ)
  | other
deriving DecidableEq

inductive Event where
  | registered (id : ℕ) (key : Bytes)
  /-- A call of `UnregisterListener`, and what it returned. -/
  | unregistered (arg : Arg) (answer : Bool)
  | began (fire : ℕ) (key : Bytes)
  /-- The handler of a subscriber is called. -/
  | ran (fire : ℕ) (id : ℕ)
  | ended (fire : ℕ)
deriving DecidableEq

/-- A fire that has not returned, and what is left of its snapshot. -/
structure Frame where
  fire : ℕ
  rest : List ℕ
deriving DecidableEq

structure State where
  /-- `osiris_listeners`: the ids of the entries of each list. -/
  listeners : Bytes → Option (List ℕ) := fun _ => none
  /-- `osiris_subscribers`: the key of the list that an id's entry is in. -/
  subscribers : ℕ → Option Bytes := fun _ => none
  nextSubscriber : ℕ := 0
  stack : List Frame := []
  history : List Event := []
  fires : ℕ := 0

def State.record (s : State) (e : Event) : State := { s with history := s.history ++ [e] }

/-! ## Registering -/

/-- `osiris_events`. -/
def osirisEvents : List Bytes := [bytes "before", bytes "after", bytes "beforeDelete", bytes "afterDelete"]

/-- `osiris_listener_name`; `defined` says whether the story has the `__DEF__` node. -/
def listenerName (name : Bytes) (defined : Bool) : Bytes :=
  if (bytes "QRY_").isPrefixOf name && !(bytes "__DEF__").isSuffixOf name && defined then
    name ++ bytes "__DEF__"
  else name

def listenerKey (name : Bytes) (arity : ℤ) (event : Bytes) : Bytes :=
  name ++ bytes "/" ++ bytes (toString arity) ++ bytes "/" ++ event

/-- `RegisterListener`, with arguments of the right types; `watched` is what `WatchOsiris` returns.
It raises before it changes anything. -/
def registerListener (s : State) (name : Bytes) (arity : ℤ) (event : Bytes) (watched defined : Bool) :
    State :=
  if !osirisEvents.contains event then s
  else if !watched then s
  else
    let key := listenerKey (listenerName name defined) arity event
    let id := s.nextSubscriber + 1
    let list := (s.listeners key).getD []
    { s with
      nextSubscriber := id
      listeners := Function.update s.listeners key (some (list ++ [id]))
      subscribers := Function.update s.subscribers id (some key) }.record (.registered id key)

/-- The subscriber that an argument is the id of. -/
def State.subscriber (s : State) : Arg → Option (ℕ × Bytes)
  | .integer i => if 0 ≤ i then (s.subscribers i.toNat).map fun key => (i.toNat, key) else none
  | .other => none

/-- `UnregisterListener`. -/
def unregisterListener (s : State) (arg : Arg) : State :=
  match s.subscriber arg with
  | none => s.record (.unregistered arg false)
  | some (id, key) =>
    let list := (s.listeners key).getD []
    let s := { s with subscribers := Function.update s.subscribers id none }
    if id ∈ list then
      { s with listeners := Function.update s.listeners key (some (list.erase id)) }.record
        (.unregistered arg true)
    else s.record (.unregistered arg false)

/-! ## Firing -/

/-- The loop over the snapshot: it comes to the next subscriber that is not unregistered, and calls
its handler. -/
def advance (s : State) (fire : ℕ) : List ℕ → State
  | [] => s.record (.ended fire)
  | id :: rest =>
    if (s.subscribers id).isSome then
      { s with stack := ⟨fire, rest⟩ :: s.stack }.record (.ran fire id)
    else advance s fire rest

/-- `FireOsirisListener`, up to the first handler. -/
def fireOsirisListener (s : State) (name : Bytes) (arity : ℤ) (event : Bytes) : State :=
  let key := listenerKey name arity event
  let fire := s.fires
  let s := { s with fires := fire + 1 }.record (.began fire key)
  match s.listeners key with
  | none => s.record (.ended fire)
  | some list => advance s fire list

inductive Action where
  | register (name : Bytes) (arity : ℤ) (event : Bytes) (watched defined : Bool)
  | unregister (arg : Arg)
  | fire (name : Bytes) (arity : ℤ) (event : Bytes)
  /-- The handler on top returned, or raised and the error was printed. -/
  | returns
  /-- The handler on top raised, and so did `tostring` of the error: the fire ends. -/
  | raises
deriving DecidableEq

def step (s : State) : Action → Option State
  | .register name arity event watched defined =>
    some (registerListener s name arity event watched defined)
  | .unregister arg => some (unregisterListener s arg)
  | .fire name arity event => some (fireOsirisListener s name arity event)
  | .returns =>
    match s.stack with
    | [] => none
    | f :: stack => some (advance { s with stack := stack } f.fire f.rest)
  | .raises =>
    match s.stack with
    | [] => none
    | f :: stack => some ({ s with stack := stack }.record (.ended f.fire))

/-! ## What is expected of it -/

/-- A subscriber was unregistered. -/
def Gone (past : List Event) (id : ℕ) : Prop := .unregistered (.integer id) true ∈ past

instance (past : List Event) (id : ℕ) : Decidable (Gone past id) := inferInstanceAs (Decidable (_ ∈ _))

/-- The subscriber that an event registers with a key. -/
def Event.subscriber (key : Bytes) : Event → Option ℕ
  | .registered id key' => if key' = key then some id else none
  | _ => none

/-- The subscribers of a key that are registered, in the order they registered. -/
def registeredIn (past : List Event) (key : Bytes) : List ℕ :=
  (past.filterMap (Event.subscriber key)).filter fun id => ¬Gone past id

/-- The subscribers that were registered when a fire began. -/
def Began (past : List Event) (fire : ℕ) (ids : List ℕ) : Prop :=
  ∃ before key since, past = before ++ .began fire key :: since ∧ ids = registeredIn before key

/-- It was a subscriber's turn in a fire: its handler was called, or it had been unregistered. -/
def Served (past : List Event) (fire id : ℕ) : Prop := .ran fire id ∈ past ∨ Gone past id

/-- What may happen after what. A handler is called for a subscriber that was registered when the
fire began and is not unregistered, once, after all those before it were served and none behind it;
a fire ends when all were served. Ids and fires are new when they come up, and a call of
`UnregisterListener` returns true the first time it is called with an id. -/
def Right (past : List Event) : Event → Prop
  | .registered id _ => ∀ id' key', .registered id' key' ∈ past → id' < id
  | .unregistered arg answer => answer = true ↔
    ∃ id : ℕ, arg = .integer id ∧ (∃ key, .registered id key ∈ past) ∧ ¬Gone past id
  | .began fire _ => ∀ key', .began fire key' ∉ past
  | .ran fire id => .ended fire ∉ past ∧ .ran fire id ∉ past ∧ ¬Gone past id ∧
    ∃ front back, Began past fire (front ++ id :: back) ∧ (∀ id' ∈ front, Served past fire id') ∧
      ∀ id' ∈ back, .ran fire id' ∉ past
  | .ended fire => .ended fire ∉ past ∧
    ∃ ids, Began past fire ids ∧ ∀ id ∈ ids, Served past fire id

/-- Printing the error of a handler does not raise while its fire has subscribers left to call. -/
def Printed (s : State) (a : Action) : Prop :=
  a = .raises → ∀ f ∈ s.stack.head?, ∀ id ∈ f.rest, s.subscribers id = none

instance (s : State) (a : Action) : Decidable (Printed s a) :=
  inferInstanceAs (Decidable (_ → ∀ _ ∈ _, _))

end OsirisListeners
end Bg3le
