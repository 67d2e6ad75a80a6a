import Mathlib.Data.List.Basic
import Mathlib.Tactic.NormNum
import Mathlib.Tactic.Ring

/-!
# Byte strings

`std::string`, `std::vector<char>` and the bytes of a file are lists of bytes throughout.
-/

namespace Bg3le

/-- A C++ byte string. -/
abbrev Bytes := List UInt8

/-- The bytes of an ASCII literal. -/
def bytes (s : String) : Bytes := s.toList.map fun c => c.toNat.toUInt8

end Bg3le
