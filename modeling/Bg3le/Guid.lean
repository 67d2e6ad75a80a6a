import Mathlib.Data.Fintype.Pi
import Mathlib.Data.List.Basic
import Bg3le.Bytes

/-!
# GUIDs and their text

`Guid::ToString` and `Guid::ParseGuidString` of the vendored `CoreLib/Base/Base.cpp`, and the
layout of a GUID's bytes in its text, which `parse_guid` of `net.cpp` shares.
-/

namespace Bg3le

/-- `Guid`: sixteen bytes. -/
structure Guid where
  bytes : Fin 16 → UInt8
deriving DecidableEq

namespace Guid

/-- `Guid::StringLength`. -/
def stringLength : ℕ := 36

def null : Guid := ⟨fun _ => 0⟩

/-- One hexadecimal digit of either case: `HexToByte`. -/
def hexDigit (c : UInt8) : Option UInt8 :=
  if 0x30 ≤ c ∧ c ≤ 0x39 then some (c - 0x30)
  else if 0x61 ≤ c ∧ c ≤ 0x66 then some (c - 0x61 + 10)
  else if 0x41 ≤ c ∧ c ≤ 0x46 then some (c - 0x41 + 10)
  else none

/-- The byte that the two digits at `pos` spell: `PARSE_BYTE`. -/
def parseByte (s : Bytes) (pos : ℕ) : Option UInt8 := do
  let high ← s[pos]? >>= hexDigit
  let low ← s[pos + 1]? >>= hexDigit
  return high * 16 + low

/-- The positions of the GUID's bytes in its text, in memory order. -/
def textOrder : List ℕ := [6, 4, 2, 0, 11, 9, 16, 14, 21, 19, 26, 24, 30, 28, 34, 32]

/-- The sixteen bytes in memory order, of a text in the form of a GUID. -/
def parseBytes (s : Bytes) : Option Bytes :=
  if s.length ≠ stringLength ∨ s[8]? ≠ some 0x2d ∨ s[13]? ≠ some 0x2d ∨ s[18]? ≠ some 0x2d
      ∨ s[23]? ≠ some 0x2d then none
  else textOrder.mapM (parseByte s)

/-- `Guid::Parse`. -/
def parse (s : Bytes) : Option Guid := (parseBytes s).map fun b => ⟨fun i => b.getD i 0⟩

/-- `Guid::ParseGuidString`: a name may stand before the GUID. -/
def parseGuidString (nameGuid : Bytes) : Option Guid :=
  if nameGuid.length < stringLength then none
  else parse (nameGuid.drop (nameGuid.length - stringLength))

/-- `HexChars`. -/
def hexChar (n : ℕ) : UInt8 := (Bg3le.bytes "0123456789abcdef").getD n 0

/-- `CharToHex`. -/
def charToHex (c : UInt8) : Bytes := [hexChar (c.toNat / 16), hexChar (c.toNat % 16)]

/-- The digits of the bytes at these places in memory. -/
def digits (guid : Guid) (places : List (Fin 16)) : Bytes :=
  places.flatMap fun i => charToHex (guid.bytes i)

/-- `Guid::ToString`. -/
def toString (guid : Guid) : Bytes :=
  guid.digits [3, 2, 1, 0] ++ 0x2d :: guid.digits [5, 4] ++ 0x2d :: guid.digits [7, 6]
    ++ 0x2d :: guid.digits [9, 8] ++ 0x2d :: guid.digits [11, 10, 13, 12, 15, 14]

theorem hexDigit_hexChar : ∀ n < 16, hexDigit (hexChar n) = some (UInt8.ofNat n) := by decide

theorem ofNat_digits (c : UInt8) :
    UInt8.ofNat (c.toNat / 16) * 16 + UInt8.ofNat (c.toNat % 16) = c := by
  apply UInt8.toNat_inj.mp
  have hc := c.toNat_lt
  have h16 : (16 : UInt8).toNat = 16 := rfl
  rw [UInt8.toNat_add, UInt8.toNat_mul, UInt8.toNat_ofNat', UInt8.toNat_ofNat', h16]
  omega

@[simp] theorem hexDigit_high (c : UInt8) :
    hexDigit (hexChar (c.toNat / 16)) = some (UInt8.ofNat (c.toNat / 16)) :=
  hexDigit_hexChar _ (by have := c.toNat_lt; omega)

@[simp] theorem hexDigit_low (c : UInt8) :
    hexDigit (hexChar (c.toNat % 16)) = some (UInt8.ofNat (c.toNat % 16)) :=
  hexDigit_hexChar _ (by omega)

@[simp] theorem length_toString (guid : Guid) : guid.toString.length = stringLength := by
  simp [toString, digits, charToHex, stringLength]

theorem parseBytes_toString (guid : Guid) :
    parseBytes guid.toString = some (List.ofFn guid.bytes) := by
  rw [parseBytes, if_neg (by simp [toString, digits, charToHex, stringLength])]
  simp [textOrder, toString, digits, charToHex, parseByte, ofNat_digits]

theorem parse_toString (guid : Guid) : parse guid.toString = some guid := by
  rw [parse, parseBytes_toString, Option.map_some]
  congr 2
  funext i
  rw [List.getD_eq_getElem?_getD, List.getElem?_ofFn, dif_pos i.isLt, Option.getD_some]

/-- A GUID reads back from its text. -/
theorem parseGuidString_toString (guid : Guid) : parseGuidString guid.toString = some guid := by
  simp [parseGuidString, parse_toString]

/-! ## Lower-case texts -/

/-- Without an upper-case digit. -/
def IsLower (s : Bytes) : Prop := ∀ c ∈ s, ¬ (0x41 ≤ c ∧ c ≤ 0x46)

theorem hexChar_hexDigit {c d : UInt8} (h : hexDigit c = some d) (hc : ¬ (0x41 ≤ c ∧ c ≤ 0x46)) :
    d.toNat < 16 ∧ hexChar d.toNat = c := by
  have hall : ∀ n < 256, ¬ (0x41 ≤ UInt8.ofNat n ∧ UInt8.ofNat n ≤ 0x46) →
      (hexDigit (UInt8.ofNat n)).all (fun d => d.toNat < 16 ∧ hexChar d.toNat = UInt8.ofNat n) := by
    decide +kernel
  have hdigit := hall c.toNat c.toNat_lt
  rw [UInt8.ofNat_toNat, h] at hdigit
  simpa using hdigit hc

/-- A byte of a lower-case text is written as it was read. -/
theorem charToHex_parseByte {s : Bytes} {pos : ℕ} {b : UInt8} (h : parseByte s pos = some b)
    (hs : IsLower s) : charToHex b = [s.getD pos 0, s.getD (pos + 1) 0] := by
  simp only [parseByte, Option.bind_eq_bind, Option.bind_eq_some_iff] at h
  obtain ⟨high, ⟨c, hc, hhigh⟩, low, ⟨c', hc', hlow⟩, hb⟩ := h
  obtain ⟨hhigh16, hhighc⟩ := hexChar_hexDigit hhigh (hs c (List.mem_of_getElem? hc))
  obtain ⟨hlow16, hlowc⟩ := hexChar_hexDigit hlow (hs c' (List.mem_of_getElem? hc'))
  have hb' : b.toNat = high.toNat * 16 + low.toNat := by
    rw [← Option.some.inj hb, UInt8.toNat_add, UInt8.toNat_mul]
    change (high.toNat * 16 % 256 + low.toNat) % 256 = _
    omega
  unfold charToHex
  rw [List.getD_eq_getElem?_getD, List.getD_eq_getElem?_getD, hc, hc', Option.getD_some,
    Option.getD_some, ← hhighc, ← hlowc, hb']
  congr 2 <;> congr 1 <;> omega

theorem eq_map_getD (s : Bytes) : s = (List.range s.length).map fun i => s.getD i 0 := by
  apply List.ext_getElem
  · simp
  · intro i h1 h2
    simp [List.getD_eq_getElem?_getD, List.getElem?_eq_getElem h1]

theorem mapM_getD {f : ℕ → Option UInt8} {l : List ℕ} {b : Bytes} {i : ℕ} (h : l.mapM f = some b)
    (hi : i < l.length) : f (l.getD i 0) = some (b.getD i 0) := by
  induction l generalizing b i with
  | nil => cases hi
  | cons a l ih =>
    simp only [List.mapM_cons, Option.bind_eq_bind, Option.bind_eq_some_iff, Option.pure_def] at h
    obtain ⟨c, hc, bs, hbs, heq⟩ := h
    obtain rfl := Option.some.inj heq
    cases i with
    | zero => exact hc
    | succ i => exact ih hbs (Nat.lt_of_succ_lt_succ hi)

theorem length_parseBytes {s b : Bytes} (h : parseBytes s = some b) : b.length = 16 := by
  have hlength {l : List ℕ} {b : Bytes} (h : l.mapM (parseByte s) = some b) :
      b.length = l.length := by
    induction l generalizing b with
    | nil => rw [← Option.some.inj h]; rfl
    | cons a l ih =>
      simp only [List.mapM_cons, Option.bind_eq_bind, Option.bind_eq_some_iff, Option.pure_def] at h
      obtain ⟨c, -, bs, hbs, heq⟩ := h
      rw [← Option.some.inj heq, List.length_cons, List.length_cons, ih hbs]
  unfold parseBytes at h
  split at h
  · cases h
  · exact hlength h

/-- A GUID's text in lower case is the text of the GUID it stands for. -/
theorem toString_parseBytes {s b : Bytes} (h : parseBytes s = some b) (hs : IsLower s) :
    toString ⟨fun i => b.getD i 0⟩ = s := by
  unfold parseBytes at h
  split at h
  · cases h
  · next hform =>
    simp only [not_or, not_not] at hform
    obtain ⟨hlen, h8, h13, h18, h23⟩ := hform
    have hbyte (i : Fin 16) : charToHex (b.getD i 0) =
        [s.getD (textOrder.getD i 0) 0, s.getD (textOrder.getD i 0 + 1) 0] :=
      charToHex_parseByte (mapM_getD h i.isLt) hs
    rw [eq_map_getD s, hlen]
    simp only [toString, digits, hbyte, List.flatMap_cons, List.flatMap_nil]
    simp [textOrder, stringLength, List.range_succ, h8, h13, h18, h23]

end Guid
end Bg3le
