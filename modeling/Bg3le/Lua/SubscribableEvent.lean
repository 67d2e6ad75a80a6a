import Bg3le.Library.DoublyLinked
import Bg3le.Library.Run
import Mathlib.Order.Lattice

/-!
# Events: `SubscribableEvent` of `lua_host.cpp`

One event with its list of subscribers, and the throws of it that are under way, each of which
stands on the subscriber whose handler runs. What handlers do comes as actions: it is always the
handler on top that acts, or code outside of any throw. A subscriber is named by its `Index`.
-/

namespace Bg3le
namespace SubscribableEvent

variable {P : Type} [LinearOrder P]

structure Options (P : Type) where
  priority : P
  once : Bool

/-- A throw that has not returned, standing on the subscriber `cur`. -/
structure Frame where
  /-- The event object it was given. -/
  event : ℕ
  cur : ℕ
  /-- The subscribers when it began, and those it has dispatched to. -/
  began : List ℕ
  ran : List ℕ
deriving DecidableEq

/-- A throw that has returned: whether it was stopped, and all handlers run until then. -/
structure Thrown where
  began : List ℕ
  ran : List ℕ
  stopped : Bool
  runs : List ℕ

structure State (P : Type) where
  nextIndex : ℕ := 1
  options : ℕ → Option (Options P) := fun _ => none
  links : Links ℕ := { first := none, next := fun _ => none, prev := fun _ => none }
  enterCount : ℕ := 0
  pendingAdds : List ℕ := []
  pendingDeletions : List ℕ := []
  /-- `Stopped` of the event objects. -/
  stopped : ℕ → Bool := fun _ => false
  stack : List Frame := []
  /-- The subscribers whose handlers were started, and the throws that have returned. -/
  runs : List ℕ := []
  thrown : List Thrown := []

/-- The subscribers in order. -/
def State.members (s : State P) : List ℕ := s.links.walk s.nextIndex s.links.first

def State.once (s : State P) (n : ℕ) : Bool := (s.options n).any (·.once)

/-- Whether one has a higher priority than another. -/
def State.above (s : State P) (a b : ℕ) : Bool :=
  match s.options a, s.options b with
  | some a, some b => decide (b.priority < a.priority)
  | _, _ => false

/-! ### The list -/

/-- The loop of `DoSubscribe`, from a subscriber on. -/
def insertFrom (s : State P) (sub : ℕ) : ℕ → ℕ → Links ℕ
  | 0, _ => s.links
  | fuel + 1, cur =>
    if s.above sub cur then s.links.insertBefore cur sub
    else
      match s.links.next cur with
      | some next => insertFrom s sub fuel next
      | none => s.links.insertAfter cur sub

/-- `DoSubscribe`. -/
def doSubscribe (s : State P) (sub : ℕ) : State P :=
  match s.links.first with
  | none => { s with links := { s.links with first := some sub } }
  | some cur => { s with links := insertFrom s sub s.nextIndex cur }

/-- `RemoveNode`. -/
def removeNode (s : State P) (node : ℕ) : State P := { s with links := s.links.unlink node }

/-- The loop of `DoUnsubscribe`, from a subscriber on. -/
def removeFrom (s : State P) (index : ℕ) : ℕ → Option ℕ → State P
  | 0, _ => s
  | _, none => s
  | fuel + 1, some cur =>
    if cur = index then removeNode s cur else removeFrom s index fuel (s.links.next cur)

/-- `DoUnsubscribe`. -/
def doUnsubscribe (s : State P) (index : ℕ) : State P :=
  removeFrom s index s.nextIndex s.links.first

/-- `ProcessDeferredSubscriptions`. -/
def processDeferredSubscriptions (s : State P) : State P :=
  let s := { s.pendingAdds.foldl doSubscribe s with pendingAdds := [] }
  { s.pendingDeletions.foldl doUnsubscribe s with pendingDeletions := [] }

/-! ### Subscribing and throwing -/

/-- `Subscribe`. -/
def subscribe (s : State P) (options : Options P) : State P :=
  let index := s.nextIndex
  let s := { s with
    nextIndex := index + 1
    options := Function.update s.options index (some options) }
  if s.enterCount = 0 then doSubscribe s index
  else { s with pendingAdds := s.pendingAdds ++ [index] }

/-- `Unsubscribe`, of an id with the event's prefix; any other is refused. -/
def unsubscribe (idPrefix : ℕ) (s : State P) (id : ℕ) : State P :=
  if id >>> 32 ≠ idPrefix then s
  else
    let handlerIndex := id &&& 0xffffffff
    if s.enterCount = 0 then doUnsubscribe s handlerIndex
    else { s with pendingDeletions := s.pendingDeletions ++ [handlerIndex] }

/-- The end of `Throw`. -/
def leave (s : State P) (f : Frame) (stopped : Bool) : State P :=
  let s := { s with
    enterCount := s.enterCount - 1
    thrown := s.thrown ++ [{ began := f.began, ran := f.ran, stopped, runs := s.runs }] }
  if s.enterCount = 0 then processDeferredSubscriptions s else s

/-- The head of the loop of `Throw`: it ends, or runs the next handler. -/
def advance (s : State P) (f : Frame) (cur : Option ℕ) : State P :=
  match cur with
  | none => leave s f false
  | some n =>
    if s.stopped f.event then leave s f true
    else { s with
      stack := { f with cur := n, ran := f.ran ++ [n] } :: s.stack
      runs := s.runs ++ [n] }

inductive Action (P : Type) where
  | subscribe (options : Options P)
  | unsubscribe (id : ℕ)
  | throw (event : ℕ)
  | setStopped (event : ℕ) (stopped : Bool)
  /-- The handler on top returned or raised, and `Dispatch` returned. -/
  | returns
  /-- The handler on top raised, and printing that raised. -/
  | raises

def step (idPrefix : ℕ) (s : State P) : Action P → Option (State P)
  | .subscribe options => some (subscribe s options)
  | .unsubscribe id => some (unsubscribe idPrefix s id)
  | .throw event =>
    some (advance { s with enterCount := s.enterCount + 1 }
      { event, cur := 0, began := s.members, ran := [] } s.links.first)
  | .setStopped event stopped =>
    some { s with stopped := Function.update s.stopped event stopped }
  | .returns =>
    match s.stack with
    | [] => none
    | f :: rest =>
      let s := { s with stack := rest }
      let next := s.links.next f.cur
      some (if s.once f.cur then advance (removeNode s f.cur) f next else advance s f next)
  | .raises =>
    match s.stack with
    | [] => none
    | _ :: rest => some { s with stack := rest }

/-! ### What is expected of it -/

/-- One subscriber comes before another: by priority, then in the order they subscribed. -/
def State.Before (s : State P) (a b : ℕ) : Prop :=
  s.above a b = true ∨ s.above b a = false ∧ a < b

/-- The links spell the members, which are in order. -/
structure Listed (s : State P) : Prop where
  isList : s.links.IsList s.members
  ordered : s.members.Pairwise s.Before

/-- The handler of a `Once` subscriber is run at most once. -/
def OnceRun (s : State P) : Prop := ∀ n, s.once n = true → s.runs.count n ≤ 1

/-- A throw that was not stopped dispatched to all subscribers it began with, but for those that
were for one time and had run. -/
def Complete (s : State P) : Prop :=
  ∀ t ∈ s.thrown, t.stopped = false →
    ∀ n ∈ t.began, n ∈ t.ran ∨ s.once n = true ∧ n ∈ t.runs

/-- Changes made during a throw take effect when the outermost one returns, and not before. -/
def Defers (s s' : State P) : Prop :=
  if s'.stack = [] then
    s'.pendingAdds = [] ∧ s'.pendingDeletions = [] ∧ (s.stack ≠ [] →
      (∀ n ∈ s'.members, (n ∈ s.members ∨ n ∈ s.pendingAdds) ∧ n ∉ s.pendingDeletions) ∧
      ∀ n, n ∈ s.members ∨ n ∈ s.pendingAdds → n ∉ s.pendingDeletions →
        n ∈ s'.members ∨ s.once n = true ∧ n ∈ s.runs)
  else
    s'.members.Sublist s.members ∧
      ∀ n ∈ s.members, n ∈ s'.members ∨ s.once n = true ∧ n ∈ s.runs

/-- No throw gets to a `Once` subscriber whose handler is running, and printing what a handler
raised does not raise. -/
def Unentered (s : State P) : Action P → Prop
  | .throw event => ∀ n, s.links.first = some n → s.stopped event = false → s.once n = true →
      n ∉ s.stack.map Frame.cur
  | .returns => ∀ f rest n, s.stack = f :: rest → s.links.next f.cur = some n →
      s.stopped f.event = false → s.once n = true → n ∉ s.stack.map Frame.cur
  | .raises => False
  | _ => True

end SubscribableEvent
end Bg3le
