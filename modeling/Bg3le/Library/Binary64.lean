import Mathlib.Algebra.Group.Nat.Defs
import Mathlib.Data.Nat.Log

/-!
# Conversions of floating-point numbers

A double and a single are their IEEE 754 words. The conversions round to the nearest, ties to
even; a number that an integer has no room for becomes the least integer, as it does on x86.
-/

namespace Binary64

/-- `m / 2 ^ k`, rounded. -/
def roundShift (m k : ℕ) : ℕ :=
  let q := m / 2 ^ k
  let r := m % 2 ^ k
  if 2 ^ k < 2 * r ∨ (2 * r = 2 ^ k ∧ q % 2 = 1) then q + 1 else q

def sign (d : UInt64) : ℕ := d.toNat / 2 ^ 63

def exponent (d : UInt64) : ℕ := d.toNat / 2 ^ 52 % 2 ^ 11

def fraction (d : UInt64) : ℕ := d.toNat % 2 ^ 52

/-- A double as a single. -/
def toBinary32 (d : UInt64) : UInt32 :=
  let e := exponent d
  let f := fraction d
  let magnitude :=
    if e = 0x7ff then
      if f = 0 then 0x7f800000 else 0x7fc00000 + f / 2 ^ 29 % 2 ^ 22
    else if e = 0 then 0
    else if 896 < e then
      -- a carry out of the significand goes into the exponent
      min ((e - 897) * 2 ^ 23 + roundShift (2 ^ 52 + f) 29) 0x7f800000
    else roundShift (2 ^ 52 + f) (926 - e)
  UInt32.ofNat (sign d * 2 ^ 31 + magnitude)

/-- A single as a double. -/
def ofBinary32 (s : UInt32) : UInt64 :=
  let e := s.toNat / 2 ^ 23 % 2 ^ 8
  let f := s.toNat % 2 ^ 23
  let magnitude :=
    if e = 0xff then
      if f = 0 then 0x7ff * 2 ^ 52 else 0xfff * 2 ^ 51 + f % 2 ^ 22 * 2 ^ 29
    else if e = 0 then
      if f = 0 then 0
      else
        let k := Nat.log2 f
        (k + 873) * 2 ^ 52 + f * 2 ^ (52 - k)
    else (e + 896) * 2 ^ 52 + f * 2 ^ 29
  UInt64.ofNat (s.toNat / 2 ^ 31 * 2 ^ 63 + magnitude)

/-- An integer as a double. -/
def ofInt64 (i : Int64) : UInt64 :=
  let n := i.toInt.natAbs
  let k := Nat.log2 n
  let magnitude :=
    if n = 0 then 0
    else (k + 1022) * 2 ^ 52 + if k ≤ 52 then n * 2 ^ (52 - k) else roundShift n (k - 52)
  UInt64.ofNat ((if i < 0 then 2 ^ 63 else 0) + magnitude)

/-- A double as an integer, towards zero. -/
def toInt64 (d : UInt64) : Int64 :=
  let e := exponent d
  let m := 2 ^ 52 + fraction d
  if e < 1023 then 0
  else if 1086 ≤ e then Int64.minValue
  else
    let n := if e ≤ 1075 then m / 2 ^ (1075 - e) else m * 2 ^ (e - 1075)
    if sign d = 0 then Int64.ofNat n else -Int64.ofNat n

example : toBinary32 (ofInt64 16777217) = 0x4b800000 := by decide +kernel

example : toInt64 (ofBinary32 0xc0200000) = -2 := by decide +kernel

end Binary64
