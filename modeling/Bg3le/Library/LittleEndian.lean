import Mathlib.Data.List.Basic
import Mathlib.Tactic.Ring

/-!
# Little-endian numbers

The bytes a little-endian machine keeps a fixed-width number in, and the number back from them.
-/

namespace LittleEndian

/-- The `width` low bytes of `v`, least significant first. -/
def encode : ℕ → ℕ → List UInt8
  | 0, _ => []
  | width + 1, v => UInt8.ofNat v :: encode width (v / 256)

/-- The number a byte list denotes. -/
def decode : List UInt8 → ℕ
  | [] => 0
  | b :: bs => b.toNat + 256 * decode bs

@[simp] theorem length_encode (width v : ℕ) : (encode width v).length = width := by
  induction width generalizing v with
  | zero => rfl
  | succ width ih => rw [encode, List.length_cons, ih]

/-- Encoding truncates to the width, as storing to a fixed-width integer does. -/
theorem decode_encode (width v : ℕ) : decode (encode width v) = v % 256 ^ width := by
  induction width generalizing v with
  | zero => simp [encode, decode, Nat.mod_one]
  | succ width ih =>
    have hlow : (UInt8.ofNat v).toNat = v % 256 := UInt8.toNat_ofNat'
    rw [encode, decode, ih, hlow, pow_succ', Nat.mod_mul]

/-- A number below the width's bound comes back. -/
theorem decode_encode_of_lt {width v : ℕ} (h : v < 256 ^ width) : decode (encode width v) = v := by
  rw [decode_encode, Nat.mod_eq_of_lt h]

/-- Bytes come back from the number they denote. -/
theorem encode_decode (bs : List UInt8) : encode bs.length (decode bs) = bs := by
  induction bs with
  | nil => rfl
  | cons b bs ih =>
    have hb := b.toNat_lt
    have hlow : UInt8.ofNat (b.toNat + 256 * decode bs) = b := by
      apply UInt8.toNat_inj.mp
      rw [UInt8.toNat_ofNat']
      omega
    rw [List.length_cons, decode, encode, hlow, show (b.toNat + 256 * decode bs) / 256 = decode bs by omega,
      ih]

theorem decode_lt (bs : List UInt8) : decode bs < 256 ^ bs.length := by
  induction bs with
  | nil => simp [decode]
  | cons b bs ih =>
    have hb := b.toNat_lt
    rw [decode, List.length_cons, pow_succ]
    omega

end LittleEndian
