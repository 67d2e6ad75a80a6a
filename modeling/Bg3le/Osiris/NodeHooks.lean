import Bg3le.Library.Run
import Mathlib.Data.List.Nodup
import Mathlib.Logic.Function.Basic

/-!
# Watching the tuple nodes (`install_node_hooks` of `osi.cpp`)

The engine puts tuples into a node and takes them out through two slots of the node's vtable. Both
are pointed at functions that fire the listeners and then call what the slot held, which is kept
by vtable. A call of `install_node_hooks` holds the lock that these functions take, so that they
see the state before it or after it.
-/

namespace Bg3le
namespace NodeHooks

/-- The address of a vtable. -/
abbrev Vtable := ℕ

/-- The slots at `kInsertTuple` and `kDeleteTuple`. -/
inductive Slot where
  | insert
  | delete
deriving DecidableEq

/-- What a slot can point at: the engine's own function of a slot, `watched_insert` or
`watched_delete`. -/
inductive Proc where
  | engine (vtable : Vtable) (slot : Slot)
  | watched (slot : Slot)
deriving DecidableEq

/-- `Hooked`: what the two slots held. -/
structure Hooked where
  insert : Proc
  delete : Proc
deriving DecidableEq

def Hooked.get (hooked : Hooked) : Slot → Proc
  | .insert => hooked.insert
  | .delete => hooked.delete

structure State where
  slots : Vtable → Slot → Proc := .engine
  /-- `g_hooked`. -/
  hooked : Vtable → Option Hooked := fun _ => none
  /-- `g_watching`. -/
  watching : Bool := false

/-- `hooked_for(node).Insert` or `.Delete`, for a node of a vtable. -/
def State.original (s : State) (vtable : Vtable) (slot : Slot) : Option Proc :=
  (s.hooked vtable).map fun hooked => hooked.get slot

/-- The engine's functions that a tuple reaches, in order, when a slot's function is called for a
node of a vtable. There is no such list where the calls do not end. -/
inductive Reaches (s : State) (vtable : Vtable) : Proc → List Proc → Prop
  | engine {owner : Vtable} {slot : Slot} : Reaches s vtable (.engine owner slot) [.engine owner slot]
  /-- `fire` without an original. -/
  | dropped {slot : Slot} : s.original vtable slot = none → Reaches s vtable (.watched slot) []
  | passed {slot : Slot} {proc : Proc} {procs : List Proc} : s.original vtable slot = some proc →
      Reaches s vtable proc procs → Reaches s vtable (.watched slot) procs

/-- What a call finds: whether the story is bound, the classes of nodes that hold tuples, in the
order of the table they are collected in, whether the engine still calls the slot, and the slots
that can be made writable. -/
structure Call where
  bound : Bool
  classes : List Vtable
  slotsOk : Bool
  writable : Vtable → Slot → Bool
  nodup : classes.Nodup

def State.setSlot (s : State) (vtable : Vtable) (slot : Slot) (proc : Proc) : State :=
  { s with slots := Function.update s.slots vtable (Function.update (s.slots vtable) slot proc) }

/-- `hook_pointer`: the state with the slot replaced, and what it held. -/
def hookPointer (call : Call) (s : State) (vtable : Vtable) (slot : Slot) : Option (State × Proc) :=
  if call.writable vtable slot then
    some (s.setSlot vtable slot (.watched slot), s.slots vtable slot)
  else none

/-- The body of the loop over the classes: the state, and whether to go on. -/
def hookClass (call : Call) (s : State) (vtable : Vtable) : State × Bool :=
  match hookPointer call s vtable .insert with
  | none => (s, false)
  | some (s, wasInsert) =>
    match hookPointer call s vtable .delete with
    | none => (s, false)
    | some (s, wasDelete) =>
      ({ s with hooked := Function.update s.hooked vtable (some ⟨wasInsert, wasDelete⟩) }, true)

def hookClasses (call : Call) : State → List Vtable → State × Bool
  | s, [] => (s, true)
  | s, vtable :: rest =>
    let (s, ok) := hookClass call s vtable
    if ok then hookClasses call s rest else (s, false)

/-- `install_node_hooks`. -/
def installNodeHooks (s : State) (call : Call) : State × Bool :=
  if !call.bound then (s, false)
  else if s.watching then (s, true)
  else if call.classes.length ≠ 2 ∨ !call.slotsOk then (s, false)
  else
    let (s, ok) := hookClasses call s call.classes
    if ok then ({ s with watching := true }, true) else (s, false)

/-- A call as a step of a run. -/
def step (s : State) (call : Call) : Option State := some (installNodeHooks s call).1

/-- Every tuple reaches the engine's own function once, no slot is left watched without a recorded
original, and no recorded original is a watching function. -/
structure Delivers (s : State) : Prop where
  once : ∀ vtable slot, Reaches s vtable (s.slots vtable slot) [.engine vtable slot]
  recorded : ∀ vtable slot slot', s.slots vtable slot = .watched slot' → s.hooked vtable ≠ none
  original : ∀ vtable hooked slot slot', s.hooked vtable = some hooked →
    hooked.get slot ≠ .watched slot'

/-! ## When it goes well -/

/-- The classes that the loop of a call comes to: up to the first with a slot that cannot be made
writable. -/
def attempted (call : Call) : List Vtable → List Vtable
  | [] => []
  | vtable :: rest =>
    if call.writable vtable .insert ∧ call.writable vtable .delete then vtable :: attempted call rest
    else [vtable]

/-- Whether a call gets to its loop. -/
def Hooks (s : State) (call : Call) : Prop :=
  call.bound = true ∧ s.watching = false ∧ call.classes.length = 2 ∧ call.slotsOk = true

instance (s : State) (call : Call) : Decidable (Hooks s call) :=
  inferInstanceAs (Decidable (_ ∧ _ ∧ _ ∧ _))

/-- A class of which both slots are patched must not be recorded yet, and one of which the first
slot only is patched must be. -/
def CleanClass (s : State) (call : Call) (vtable : Vtable) : Prop :=
  call.writable vtable .insert = true →
    (call.writable vtable .delete = true ↔ s.hooked vtable = none)

/-- No class is left with half of its slots patched, and none is patched a second time. -/
def Clean (s : State) (call : Call) : Prop :=
  Hooks s call → ∀ vtable ∈ attempted call call.classes, CleanClass s call vtable

instance (s : State) (call : Call) (vtable : Vtable) : Decidable (CleanClass s call vtable) :=
  inferInstanceAs (Decidable (_ → (_ ↔ _)))

instance (s : State) (call : Call) : Decidable (Clean s call) :=
  inferInstanceAs (Decidable (_ → ∀ _ ∈ _, _))

end NodeHooks
end Bg3le
