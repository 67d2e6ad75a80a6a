import Bg3le.Bytes
import Mathlib.Data.List.Basic
import Mathlib.Logic.Function.Basic

/-!
# Subscriptions of `Ext.Entity`

One table keeps the subscriptions to entity events and to system updates by id; those of a system
are also in a list of the system. A handler may subscribe and unsubscribe while it is run from
either.
-/

namespace Bg3le
namespace EntitySubs

/-- `Kind` of a subscription. -/
inductive Kind where
  | create
  | createDeferred
  | destroy
  | destroyDeferred
  | change
  | systemUpdate
  | systemPostUpdate
deriving DecidableEq

/-- `COMPONENT_EVENT_KINDS`. -/
def Kind.ofComponent : Kind → Bool
  | .create | .createDeferred | .destroy | .destroyDeferred => true
  | _ => false

def Kind.ofDestroy : Kind → Bool
  | .destroy | .destroyDeferred => true
  | _ => false

/-- An entry of `entity_subs`. One of a system has its index and phase, and nothing else. `Flags` are
the bits of an integer; any other value cannot be masked. -/
structure Subscription (E : Type) where
  kind : Kind
  component : Option Bytes := none
  entity : Option E := none
  once : Bool := false
  flags : Option UInt64 := none
  system : Option (ℕ × Bool) := none
deriving DecidableEq

/-- An entry of a list of `system_subs`. -/
structure SystemSub where
  id : ℕ
  once : Bool
deriving DecidableEq

/-- `entity_subs`, `system_subs` and `next_sub`. -/
structure Table (E : Type) where
  nextSub : ℕ := 1
  entitySubs : ℕ → Option (Subscription E) := fun _ => none
  systemSubs : Bool → ℕ → List SystemSub := fun _ _ => []

variable {E : Type}

/-- What `WatchComponentEvents` or `WatchReplication` says of a component. -/
structure Watch where
  available : Bool
  oneFrame : Bool

/-- The kind that is subscribed to, unless `subscribe` raises. -/
def watchedKind (watch : Watch) (kind : Kind) : Option Kind :=
  if kind.ofComponent then
    if !watch.available ∨ (watch.oneFrame ∧ kind.ofDestroy) then none
    else if watch.oneFrame ∧ kind = .create then some .createDeferred
    else some kind
  else if kind = .change ∧ !watch.available then none
  else some kind

/-- A new id, and its entry. -/
def Table.add (t : Table E) (sub : Subscription E) : Table E :=
  { t with
    nextSub := t.nextSub + 1
    entitySubs := Function.update t.entitySubs t.nextSub (some sub) }

/-- `subscribe`; it raises before it changes anything. -/
def Table.subscribe (t : Table E) (watch : Watch) (kind : Kind) (component : Bytes)
    (entity : Option E) (once : Bool) (flags : Option UInt64) : Table E :=
  match watchedKind watch kind with
  | none => t
  | some kind => t.add { kind, component := some component, entity, once, flags }

/-- The entry that `subscribe_system` makes. -/
def Subscription.ofSystem (index : ℕ) (post : Bool) : Subscription E :=
  { kind := if post then .systemPostUpdate else .systemUpdate, system := some (index, post) }

def Table.setList (t : Table E) (index : ℕ) (post : Bool) (list : List SystemSub) : Table E :=
  { t with
    systemSubs := Function.update t.systemSubs post
      (Function.update (t.systemSubs post) index list) }

/-- `subscribe_system`; `HookSystem` gives no index where the system cannot be hooked. -/
def Table.subscribeSystem (t : Table E) (index : Option ℕ) (post once : Bool) : Table E :=
  match index with
  | none => t
  | some index =>
    (t.setList index post (t.systemSubs post index ++ [⟨t.nextSub, once⟩])).add (.ofSystem index post)

/-- `entity_subs[id] = nil`. -/
def Table.clear (t : Table E) (id : ℕ) : Table E :=
  { t with entitySubs := Function.update t.entitySubs id none }

/-- `Ext.Entity.Unsubscribe`. -/
def Table.unsubscribe (t : Table E) (id : ℕ) : Table E × Bool :=
  match t.entitySubs id with
  | none => (t, false)
  | some _ => (t.clear id, true)

/-- What a handler does with the table. -/
inductive Op (E : Type) where
  | subscribe (watch : Watch) (kind : Kind) (component : Bytes) (entity : Option E) (once : Bool)
      (flags : Option UInt64)
  | subscribeSystem (index : Option ℕ) (post once : Bool)
  | unsubscribe (id : ℕ)

def Op.apply (t : Table E) : Op E → Table E
  | .subscribe watch kind component entity once flags =>
    t.subscribe watch kind component entity once flags
  | .subscribeSystem index post once => t.subscribeSystem index post once
  | .unsubscribe id => (t.unsubscribe id).1

/-! ## What an operation does -/

variable {t : Table E} {op : Op E} {id id' index index' : ℕ} {post post' : Bool}

theorem entitySubs_clear (t : Table E) (id id' : ℕ) :
    (t.clear id).entitySubs id' = if id' = id then none else t.entitySubs id' := by
  unfold Table.clear
  by_cases h : id' = id
  · simp [h]
  · simp [h]

@[simp] theorem systemSubs_clear (t : Table E) (id : ℕ) : (t.clear id).systemSubs = t.systemSubs := rfl

@[simp] theorem nextSub_clear (t : Table E) (id : ℕ) : (t.clear id).nextSub = t.nextSub := rfl

theorem entitySubs_add (t : Table E) (sub : Subscription E) (id : ℕ) :
    (t.add sub).entitySubs id = if id = t.nextSub then some sub else t.entitySubs id := by
  unfold Table.add
  by_cases h : id = t.nextSub
  · simp [h]
  · simp [h]

@[simp] theorem systemSubs_add (t : Table E) (sub : Subscription E) : (t.add sub).systemSubs = t.systemSubs := rfl

theorem systemSubs_setList (t : Table E) (list : List SystemSub) :
    (t.setList index post list).systemSubs post' index' =
      if post' = post ∧ index' = index then list else t.systemSubs post' index' := by
  unfold Table.setList
  by_cases hpost : post' = post
  · subst hpost
    by_cases hindex : index' = index
    · simp [hindex]
    · simp [hindex]
  · simp [hpost]

@[simp] theorem entitySubs_setList (t : Table E) (list : List SystemSub) :
    (t.setList index post list).entitySubs = t.entitySubs := rfl

@[simp] theorem nextSub_setList (t : Table E) (list : List SystemSub) :
    (t.setList index post list).nextSub = t.nextSub := rfl

theorem unsubscribe_eq (t : Table E) (id : ℕ) : (t.unsubscribe id).1 = t.clear id := by
  unfold Table.unsubscribe
  cases h : t.entitySubs id with
  | none =>
    have hsame : Function.update t.entitySubs id none = t.entitySubs := by
      rw [← h, Function.update_eq_self]
    unfold Table.clear
    rw [hsame]
  | some _ => rfl

/-- The system and phase that an operation subscribes to. -/
def Op.system : Op E → Option (ℕ × Bool)
  | .subscribeSystem (some index) post _ => some (index, post)
  | _ => none

theorem subscribe_cases (t : Table E) (watch : Watch) (kind : Kind) (component : Bytes)
    (entity : Option E) (once : Bool) (flags : Option UInt64) :
    t.subscribe watch kind component entity once flags = t ∨ ∃ sub, sub.system = none ∧
      t.subscribe watch kind component entity once flags = t.add sub := by
  unfold Table.subscribe
  split
  · exact Or.inl rfl
  · exact Or.inr ⟨_, rfl, rfl⟩

/-- An operation does nothing, adds a new subscription to a component or to a system, or clears
one. -/
theorem apply_cases (t : Table E) (op : Op E) :
    op.apply t = t ∨ (∃ sub, sub.system = none ∧ op.apply t = t.add sub) ∨
      (∃ index post once, op = .subscribeSystem (some index) post once ∧ op.apply t =
        (t.setList index post (t.systemSubs post index ++ [⟨t.nextSub, once⟩])).add
          (.ofSystem index post)) ∨
      ∃ id, op = .unsubscribe id ∧ op.apply t = t.clear id := by
  cases op with
  | subscribe watch kind component entity once flags =>
    rcases subscribe_cases t watch kind component entity once flags with hsame | ⟨sub, hsub⟩
    · exact Or.inl hsame
    · exact Or.inr (Or.inl ⟨sub, hsub⟩)
  | subscribeSystem index post once =>
    cases index with
    | none => exact Or.inl rfl
    | some index => exact Or.inr (Or.inr (Or.inl ⟨index, post, once, rfl, rfl⟩))
  | unsubscribe id => exact Or.inr (Or.inr (Or.inr ⟨id, rfl, unsubscribe_eq t id⟩))

end EntitySubs
end Bg3le
