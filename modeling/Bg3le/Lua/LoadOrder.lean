import Bg3le.Bytes
import Bg3le.Library.Memo
import Bg3le.Library.Run
import Mathlib.Data.Finset.Card

/-!
# The load order (`Ext.Mod` of `lua_host.cpp`)

`GetLoadOrder` and `IsModLoaded` over the engine's module list and the order of `modsettings.lsx`,
with the two tables they keep between calls.
-/

namespace Bg3le
namespace LoadOrder

/-- `string.lower`. -/
def stringLower (s : Bytes) : Bytes :=
  s.map fun c => if 65 ≤ c ∧ c ≤ 90 then c + 32 else c

/-- What the engine and the player's file hold at a moment: the uuid of each module of the engine's
list, where it can be read, and the uuids of `modsettings.lsx`, where there is one. -/
structure Lists where
  engine : List (Option Bytes) := []
  settings : Option (List Bytes) := none
deriving DecidableEq

/-- `Ext._Internal.ModSettingsOrder() or {}`. -/
def Lists.modSettings (l : Lists) : List Bytes := l.settings.getD []

/-- `Ext._Internal.ModUuidAt`. -/
def Lists.modUuidAt (l : Lists) (i : ℕ) : Option Bytes := l.engine[i]?.join

/-- `tostring` of what `ModUuidAt` returns. -/
def uuidText (uuid : Option Bytes) : Bytes := uuid.getD (bytes "nil")

/-- The key of `current_load_order`: the engine's count and the ends of its list, and the player's
order. -/
def Lists.key (l : Lists) : Bytes :=
  let n := l.engine.length
  -- with no module `ModUuidAt(n - 1)` is past the end too
  List.intercalate (bytes ";") [bytes (toString n), uuidText (l.modUuidAt 0),
    uuidText (l.modUuidAt (n - 1)), List.intercalate (bytes ",") l.modSettings]

/-- Appends a uuid to `out` if it is not `seen`, which holds just what is in `out`. -/
def appendUnseen (out : List Bytes) (uuid : Bytes) : List Bytes :=
  if out.contains uuid then out else out ++ [uuid]

/-- `BuildLoadOrder`. -/
def buildLoadOrder (engine settings : List Bytes) : List Bytes :=
  let listed := settings
  let out := engine.foldl (fun out uuid =>
    if listed.contains uuid then out else appendUnseen out uuid) []
  settings.foldl appendUnseen out

/-- The load order of the lists: `ModUuidAt` is skipped where it returns nothing. -/
def Lists.loadOrder (l : Lists) : List Bytes :=
  buildLoadOrder (l.engine.filterMap id) l.modSettings

/-- A call, with what it was made over and what it returned. -/
inductive Event where
  | getLoadOrder (lists : Lists) (answer : List Bytes)
  /-- The argument is `none` where it is no string. -/
  | isModLoaded (lists : Lists) (looseMods : List Bytes) (uuid : Option Bytes) (answer : Bool)
deriving DecidableEq

structure State where
  lists : Lists
  /-- The keys of `LooseMods`. -/
  looseMods : List Bytes := []
  /-- `load_order` and `load_order_key`. -/
  loadOrder : Memo (Option Bytes) (List Bytes) := ⟨none, []⟩
  /-- `mod_loaded` and `mod_loaded_for`. -/
  modLoaded : Memo ℤ (List Bytes) := ⟨-1, []⟩
  /-- The lists that `load_order` was last built over. -/
  orderedOver : Option Lists := none
  /-- The lists of the call that last filled `mod_loaded`. -/
  loadedOver : Option Lists := none
  history : List Event := []

/-- `current_load_order`, which returns `load_order`. -/
def currentLoadOrder (s : State) : State :=
  let key := some s.lists.key
  { s with
    loadOrder := s.loadOrder.ask key s.lists.loadOrder
    orderedOver := s.loadOrder.sourceAfter key s.orderedOver s.lists }

/-- `GetLoadOrder`. -/
def getLoadOrder (s : State) : State :=
  let s := currentLoadOrder s
  { s with history := s.history ++ [.getLoadOrder s.lists s.loadOrder.value] }

/-- `IsModLoaded`. -/
def isModLoaded (s : State) (uuid : Option Bytes) : State :=
  let answered (s : State) (answer : Bool) : State :=
    { s with history := s.history ++ [.isModLoaded s.lists s.looseMods uuid answer] }
  match uuid with
  | none => answered s false
  | some id =>
    if s.looseMods.contains (stringLower id) then answered s true
    else
      let s := currentLoadOrder s
      let order := s.loadOrder.value
      let s := { s with
        modLoaded := s.modLoaded.ask order.length (order.map stringLower)
        loadedOver := s.modLoaded.sourceAfter order.length s.loadedOver s.lists }
      answered s (s.modLoaded.value.contains (stringLower id))

inductive Action where
  /-- The engine's module list becomes another. -/
  | engine (modules : List (Option Bytes))
  /-- The player's order becomes another. -/
  | settings (order : Option (List Bytes))
  /-- A loose mod is started. -/
  | loose (uuid : Bytes)
  | getLoadOrder
  | isModLoaded (uuid : Option Bytes)
deriving DecidableEq

def step (s : State) : Action → Option State
  | .engine modules => some { s with lists := { s.lists with engine := modules } }
  | .settings order => some { s with lists := { s.lists with settings := order } }
  | .loose uuid => some { s with looseMods := stringLower uuid :: s.looseMods }
  | .getLoadOrder => some (LoadOrder.getLoadOrder s)
  | .isModLoaded uuid => some (LoadOrder.isModLoaded s uuid)

/-- The state before any call. -/
def start (lists : Lists) : State := { lists }

/-! ## What the calls are to return -/

/-- The engine's modules that `modsettings.lsx` does not name, then those it does. -/
def Lists.namedLast (l : Lists) : List Bytes :=
  ((l.engine.filterMap id).filter fun uuid => !l.modSettings.contains uuid).eraseDups ++
    l.modSettings.eraseDups

/-- What a load order of the lists is. -/
structure Orders (l : Lists) (order : List Bytes) : Prop where
  eq_namedLast : order = l.namedLast
  nodup : order.Nodup
  mem_iff : ∀ uuid, uuid ∈ order ↔ some uuid ∈ l.engine ∨ uuid ∈ l.modSettings

def Right : Event → Prop
  | .getLoadOrder lists answer => answer = lists.loadOrder ∧ Orders lists answer
  | .isModLoaded lists looseMods uuid answer => answer = true ↔ ∃ id, uuid = some id ∧
      ((∃ other ∈ lists.loadOrder, stringLower other = stringLower id) ∨
        stringLower id ∈ looseMods)

/-! ## The changes that a call notices -/

/-- The uuids of both lists. -/
def Lists.uuids (l : Lists) : List Bytes := l.engine.filterMap id ++ l.modSettings

/-- `current_load_order` over the new lists is another key, or they are in the old order. -/
def Lists.Noticed (old new : Lists) : Prop :=
  old.namedLast = new.namedLast ∨ old.key ≠ new.key

/-- The lists together hold another number of uuids, or the same ones, letter case apart. -/
def Lists.Counted (old new : Lists) : Prop :=
  (old.uuids.map stringLower).toFinset = (new.uuids.map stringLower).toFinset ∨
    old.uuids.toFinset.card ≠ new.uuids.toFinset.card

/-- A call notices what changed in the lists. -/
def Notices (s : State) : Action → Prop
  | .getLoadOrder => ∀ old ∈ s.orderedOver, old.Noticed s.lists
  | .isModLoaded (some uuid) => stringLower uuid ∉ s.looseMods →
      (∀ old ∈ s.orderedOver, old.Noticed s.lists) ∧ ∀ old ∈ s.loadedOver, old.Counted s.lists
  | _ => True

instance (old new : Lists) : Decidable (old.Noticed new) :=
  inferInstanceAs (Decidable (old.namedLast = new.namedLast ∨ old.key ≠ new.key))

instance (old new : Lists) : Decidable (old.Counted new) :=
  inferInstanceAs (Decidable
    ((old.uuids.map stringLower).toFinset = (new.uuids.map stringLower).toFinset ∨
      old.uuids.toFinset.card ≠ new.uuids.toFinset.card))

instance (s : State) : (a : Action) → Decidable (Notices s a)
  | .getLoadOrder => inferInstanceAs (Decidable (∀ old ∈ s.orderedOver, old.Noticed s.lists))
  | .isModLoaded (some uuid) => 
    inferInstanceAs (Decidable (stringLower uuid ∉ s.looseMods →
      (∀ old ∈ s.orderedOver, old.Noticed s.lists) ∧ ∀ old ∈ s.loadedOver, old.Counted s.lists))
  | .isModLoaded none | .engine _ | .settings _ | .loose _ => inferInstanceAs (Decidable True)

end LoadOrder
end Bg3le
