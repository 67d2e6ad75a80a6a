import Bg3le.Savegame.Serializer

/-!
# Sequences of savegame visits
-/

namespace Bg3le
namespace Savegame

variable {longest : ℕ}

/-- What happens to the caches in the life of the process. -/
inductive Visit (longest : ℕ) where
  | read (save : Save longest)
  | write (lua : LuaState)
  | takePersistentVars
  | takeExtras

/-- The caches after one visit. A write changes neither. -/
def visit (caches : Caches) : Visit longest → Caches
  | .read save => readSave caches save
  | .write _ => caches
  | .takePersistentVars => (takeSavedPersistentVars caches).2
  | .takeExtras => (takeSavedExtras caches).2

/-- The caches after the visits, from the start of the process. -/
def after (visits : List (Visit longest)) : Caches := visits.foldl visit {}

/-- The save read last; before any read, a save that holds nothing. -/
def lastSave (visits : List (Visit longest)) : Save longest :=
  visits.foldl (fun last v => match v with | .read save => save | _ => last) []

/-! ## What a save holds -/

/-- The region of a save that is not too new to be read. -/
def readableRegion (save : Save longest) : Option (Node longest) :=
  (enterRegion save .scriptExtenderSave).filter
    fun region => region.visitUInt32 .extenderVersion 0 ≤ kSavegameVersion

/-- The PersistentVars that a save holds for this version of the extender. -/
def heldPersistentVars (save : Save longest) : List (Bytes × Bytes) :=
  match readableRegion save >>= (·.enter .luaVariables) with
  | some node => readPersistentVariables node
  | none => []

/-- The region of a save whose version has user variables. -/
def extrasRegion (save : Save longest) : Option (Node longest) :=
  (readableRegion save).filter fun region => 9 ≤ region.visitUInt32 .extenderVersion 0

/-- The extras that a save holds for this version of the extender. -/
def heldExtras (save : Save longest) : SaveExtras :=
  match extrasRegion save with
  | some region => readExtras region
  | none => {}

/-- The caches hold exactly what the save holds. -/
structure Describes (caches : Caches) (save : Save longest) : Prop where
  saved : caches.saved = heldPersistentVars save
  extras : caches.extras = heldExtras save

/-- A read after that of `last` leaves nothing of it: where the save has no place for
PersistentVars (or extras), `last` held none. -/
structure Replaces (last save : Save longest) : Prop where
  saved : (readableRegion save >>= (·.enter .luaVariables)).isSome ∨ heldPersistentVars last = []
  extras : (extrasRegion save).isSome ∨ heldExtras last = {}

end Savegame
end Bg3le
