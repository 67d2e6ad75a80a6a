import Bg3le.Engine.RawArray

/-!
# Named-element managers: `vendor/stats_sets.cpp`

A manager keeps its elements in an array, the index of each under its name in a hash map, and
the next free index. `managerInsert` replaces the element of the same name or adds one to all
three, and takes the array's header back where the map refuses.
-/

namespace Bg3le
namespace StatsSets

open Engine

/-- `CNamedElementManager`, with the memory that its array is in. An element is what the array
holds, a pointer. -/
structure Manager (E : Type) where
  memory : Memory E
  values : RawArray
  nameToHandle : RawMap UInt32 Int32
  nextHandle : Int32

variable {E : Type}

/-- `manager_values`. -/
def managerValues (mgr : Manager E) : List E :=
  if mgr.values.buffer = none ∨ 2 ^ 22 < mgr.values.size.toNat then []
  else if mgr.values.readable mgr.memory then mgr.values.elements mgr.memory else []

/-- Overwrites one of the array's elements. -/
def Manager.putValue (mgr : Manager E) (i : ℕ) (element : E) : Option (Manager E) := do
  let address ← mgr.values.buffer
  let memory ← mgr.memory.store address i element
  return { mgr with memory }

/-- `manager_insert`: `nameOf` is `name_of`, `hash` the string table's, and the rest what the
allocator does in the array's append and in the map's insertion. -/
def managerInsert (nameOf : E → UInt32) (hash : UInt32 → Option ℕ) (ready given : Bool)
    (heap : Heap) (mgr : Manager E) (element : E) : Option (Bool × Manager E) :=
  let name := nameOf element
  let values := managerValues mgr
  match values.findIdx? (nameOf · = name) with
  | some i => do
    let mgr ← mgr.putValue i element
    return (true, mgr)
  | none =>
    let next := mgr.nextHandle
    if next ≠ Int32.ofNat values.length then some (false, mgr)
    else do
      let before := mgr.values
      let (appended, memory, array) ← arrayAppend ready given mgr.memory mgr.values element
      let mgr := { mgr with memory, values := array }
      if !appended then return (false, mgr)
      else do
        let (slot, nameToHandle) ←
          fsMapInsert hash nearestSmallMultiHashMapPrime heap mgr.nameToHandle name next
        let mgr := { mgr with nameToHandle }
        -- only the array's header is taken back
        if slot.isNone then return (false, { mgr with values := before })
        else return (true, { mgr with nextHandle := next + 1 })

end StatsSets
end Bg3le
