import Bg3le.Bytes
import Bg3le.Library.LittleEndian

/-!
# Reading memory that may not be there: `mem.cpp`

A memory is the bytes of the addresses that can be read. A read of several bytes gives all of
them or fails.
-/

namespace Bg3le
namespace Engine

/-- What can be read of a process. -/
abbrev Mapping := ℕ → Option UInt8

/-- `safe_read` -/
def safeRead (mapping : Mapping) (addr n : ℕ) : Option Bytes :=
  if addr < 0x1000 then none else (List.range n).mapM fun i => mapping (addr + i)

/-- `peek` of a 64-bit word. -/
def peek (mapping : Mapping) (addr : ℕ) : Option ℕ :=
  (safeRead mapping addr 8).map LittleEndian.decode

end Engine
end Bg3le
