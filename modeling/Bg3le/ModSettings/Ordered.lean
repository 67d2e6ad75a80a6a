import Mathlib.Data.List.Sort
import Bg3le.Bytes

/-!
# The load order: `ordered` of `tools/modsettings.cpp`

`ordered` indexes the mods by UUID with pointers into its vector, sorts that vector by name and
then places each mod after the mods its `Needs` lead to. The pointers keep naming positions, not
mods: `byUuid` is built before the sort and read after it.
-/

namespace Bg3le
namespace ModSettings

/-- `struct Mod`. -/
structure Mod where
  uuid : Bytes
  name : Bytes := []
  folder : Bytes := []
  version : Bytes := []
  publishHandle : Bytes := []
  md5 : Bytes := []
  needs : List Bytes := []
  pak : Bytes := []
deriving DecidableEq

/-- `std::sort` by `a.Name < b.Name`: some permutation in order of name, with no promise about
mods of the same name. -/
structure StdSort where
  sort : List Mod → List Mod
  perm : ∀ mods, (sort mods).Perm mods
  sorted : ∀ mods, (sort mods).Pairwise fun a b => ¬ b.name < a.name

/-- `byUuid[mod.Uuid] = &mod`, with the position for the pointer. -/
def remember (index : Bytes → Option ℕ) (entry : Mod × ℕ) : Bytes → Option ℕ :=
  Function.update index entry.1.uuid (some entry.2)

/-- `byUuid`, filled from the vector as it was passed in. -/
def byUuid (mods : List Mod) : Bytes → Option ℕ := mods.zipIdx.foldl remember fun _ => none

/-- What `place` writes: the result and its two sets of UUIDs. -/
structure Placement where
  out : List Mod := []
  placed : List Bytes := []
  placing : List Bytes := []

/-- `place`, where `deref need` is `*byUuid.find(need)->second`. Each level inserts a UUID into
`placing`, so `fuel` bounds the depth (`place_searched`). -/
def place (deref : Bytes → Option Mod) : ℕ → Mod → Placement → Placement
  | 0, _, st => st
  | fuel + 1, mod, st =>
    if mod.uuid ∈ st.placed then st
    else if mod.uuid ∈ st.placing then st
    else
      let entered : Placement := { st with placing := mod.uuid :: st.placing }
      let after : Placement := mod.needs.foldl
        (fun st need =>
          match deref need with
          | some dep => place deref fuel dep st
          | none => st)
        entered
      let left : Placement := { after with placing := after.placing.erase mod.uuid }
      if mod.uuid ∈ left.placed then left
      else { left with placed := mod.uuid :: left.placed, out := left.out ++ [mod] }

/-- `*byUuid.find(need)->second` after the sort: what now stands at the position where the mod
with that UUID stood in `mods`. -/
def deref (mods sorted : List Mod) (need : Bytes) : Option Mod :=
  (byUuid mods need).bind (sorted[·]?)

/-- `ordered(mods)`. -/
def ordered (std : StdSort) (mods : List Mod) : List Mod :=
  let sorted := std.sort mods
  (sorted.foldl (fun st mod => place (deref mods sorted) (mods.length + 1) mod st) {}).out

end ModSettings
end Bg3le
