import Bg3le.Bytes
import Bg3le.Library.NumberText

/-!
# Component events (`DeliverComponentEvents` of `lua_host.cpp`)

The engine queues a create event for each component that is added, and a destroy event for each
that is removed; a tick delivers the queue. An immediate addition raises its create event at once,
and the copy in the queue is to be dropped. Handlers may add and remove components, and so may the
engine, so their actions come between the steps of a delivery.
-/

namespace Bg3le
namespace ComponentEvents

open NumberText

/-- `NULL_ENTITY_HANDLE`. -/
def nullEntityHandle : Int64 := -0x0040000000000000

/-- A handle that `EntityValue` makes an entity of. -/
structure Entity where
  handle : Int64
  notNull : handle ≠ nullEntityHandle
  deriving DecidableEq

/-- A component type of an entity, by its short name. -/
structure Component where
  entity : Entity
  name : Bytes
  deriving DecidableEq

/-- The key of `created`: the handle, a slash and the name. -/
def Component.key (c : Component) : Bytes := formatD c.entity.handle.toInt ++ 0x2f :: c.name

/-- An addition, by `CreateComponentImmediate` or by the engine. -/
structure Addition where
  component : Component
  immediate : Bool
  deriving DecidableEq

/-- An event in the engine's queue. -/
inductive Queued where
  | create (addition : Addition)
  | destroy (component : Component)
  deriving DecidableEq

def Queued.addition? : Queued → Option Addition
  | .create a => some a
  | .destroy _ => none

inductive Kind where
  | create
  | createDeferred
  | destroy
  | destroyDeferred
  deriving DecidableEq

/-- A call of `FireEntityEvent`, and whether the handlers get the component. -/
structure Raised where
  kind : Kind
  component : Component
  present : Bool
  deriving DecidableEq

/-- What became of the additions from the start of one delivery to the next one's. -/
structure Report where
  additions : List Addition
  /-- The create events of immediate additions, and what the delivery raised. -/
  raised : List Raised
  /-- The additions as they were delivered: an immediate one with its deferred event, any other
  with the event in the queue. Each with whether its component was still there. -/
  arrived : List (Addition × Bool) := []
  deriving DecidableEq

/-- A delivery under way. -/
structure Delivery where
  immediate : List Bytes
  events : List Queued
  deferred : List Component
  /-- The event of which the first of two calls of `FireEntityEvent` is done. -/
  half : Option Queued := none
  report : Report
  deriving DecidableEq

structure State where
  /-- The components that the engine has. -/
  present : Component → Bool
  queue : List Queued := []
  created : List Bytes := []
  deferred : List Component := []
  delivery : Option Delivery := none
  /-- Since the last delivery started. -/
  additions : List Addition := []
  raised : List Raised := []
  reports : List Report := []

/-- The most events that `TakeComponentEvents` takes (`kBatch`). -/
def batch : ℕ := 4096

namespace State

/-- An addition, of which the engine queues an event. -/
def add (s : State) (a : Addition) : State :=
  { s with
    present := Function.update s.present a.component true
    queue := s.queue ++ [.create a]
    additions := s.additions ++ [a] }

/-- `CreateComponentImmediate` with `ImmediateCreated`, up to the handlers. -/
def createImmediate (s : State) (c : Component) : State :=
  { s.add ⟨c, true⟩ with
    created := s.created ++ [c.key]
    deferred := s.deferred ++ [c]
    raised := s.raised ++ [⟨.create, c, true⟩] }

/-- A removal; nothing happens where the component is not. -/
def remove (s : State) (c : Component) : State :=
  if s.present c then
    { s with present := Function.update s.present c false, queue := s.queue ++ [.destroy c] }
  else s

/-- `DeliverComponentEvents` up to its first loop: `TakeImmediateCreated` and
`TakeComponentEvents`. -/
def deliver (s : State) : State :=
  { s with
    queue := s.queue.drop batch
    created := []
    deferred := []
    additions := []
    raised := []
    delivery := some
      { immediate := s.created
        events := s.queue.take batch
        deferred := s.deferred
        report := { additions := s.additions, raised := s.raised } } }

end State

namespace Report

def raise (r : Report) (kind : Kind) (c : Component) (present : Bool) : Report :=
  { r with raised := r.raised ++ [⟨kind, c, present⟩] }

/-- An addition of the engine's has been delivered. -/
def arrive (r : Report) (a : Addition) (there : Bool) : Report :=
  if a.immediate then r else { r with arrived := r.arrived ++ [(a, there)] }

/-- An entry of `deferred` has been delivered, with an event if its component is there. -/
def settle (r : Report) (c : Component) (there : Bool) : Report :=
  { (if there then r.raise .createDeferred c true else r) with
    arrived := r.arrived ++ [(⟨c, true⟩, there)] }

end Report

namespace Delivery

/-- The next part of the loops, up to the next call of `FireEntityEvent` or the end of a round;
`none` when the loops are over. -/
def proceed (d : Delivery) (present : Component → Bool) : Option Delivery :=
  match d.half with
  | some (.create a) =>
    some { d with
      half := none
      report := (d.report.raise .createDeferred a.component (present a.component)).arrive a
        (present a.component) }
  | some (.destroy c) =>
    some { d with half := none, report := d.report.raise .destroyDeferred c false }
  | none =>
    match d.events with
    | .create a :: rest =>
      if d.immediate.contains a.component.key then
        some { d with events := rest, report := d.report.arrive a (present a.component) }
      else
        some { d with
          events := rest
          half := some (.create a)
          report := d.report.raise .create a.component (present a.component) }
    | .destroy c :: rest =>
      some { d with
        events := rest, half := some (.destroy c), report := d.report.raise .destroy c false }
    | [] =>
      match d.deferred with
      | c :: rest => some { d with deferred := rest, report := d.report.settle c (present c) }
      | [] => none

end Delivery

inductive Action where
  /-- The engine adds a component, for itself or for `CreateComponent`. -/
  | add (c : Component)
  | createImmediate (c : Component)
  | remove (c : Component)
  | deliver
  /-- A delivery goes on. -/
  | proceed
  deriving DecidableEq

def step (s : State) : Action → Option State
  | .add c => some (s.add ⟨c, false⟩)
  | .createImmediate c => some (s.createImmediate c)
  | .remove c => some (s.remove c)
  | .deliver => if s.delivery.isSome then none else some s.deliver
  | .proceed => s.delivery.map fun d =>
    match d.proceed s.present with
    | some d => { s with delivery := some d }
    | none => { s with delivery := none, reports := s.reports ++ [d.report] }

/-- Nothing is queued, and no delivery is under way. -/
def start (present : Component → Bool) : State := { present }

end ComponentEvents
end Bg3le
