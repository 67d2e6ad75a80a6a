import Mathlib.Data.List.DropRight

/-!
# Python text, as `install.py` uses it

A `str` is its list of code points. Of the string methods only what the installer calls is here.
-/

namespace Bg3le
namespace Install

/-- `str`. -/
abbrev Str := List ℕ

/-- A literal. -/
def py (s : String) : Str := s.toList.map Char.toNat

/-- `str.isspace` of one character, which is also what `\s` matches. -/
def isSpace (c : ℕ) : Bool :=
  (9 ≤ c && c ≤ 13) || (28 ≤ c && c ≤ 32) || c == 0x85 || c == 0xa0 || c == 0x1680
    || (0x2000 ≤ c && c ≤ 0x200a) || c == 0x2028 || c == 0x2029 || c == 0x202f || c == 0x205f
    || c == 0x3000

/-- `str.strip()`. -/
def strip (s : Str) : Str := (s.dropWhile isSpace).rdropWhile isSpace

/-- `str.lower` of one character, of the ASCII letters. No other character lowers to one of the
ASCII texts that the installer compares with. -/
def lowerChar (c : ℕ) : ℕ := if 65 ≤ c ∧ c ≤ 90 then c + 32 else c

/-- `str.lower()`. -/
def lower (s : Str) : Str := s.map lowerChar

end Install
end Bg3le
