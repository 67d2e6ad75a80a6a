import Bg3le.Bytes

/-!
# The protobuf writer of `pb.h`
-/

namespace Bg3le
namespace Net
namespace Pb

/-- The loop of `varint`: a 64-bit value has at most nine groups of seven bits before its last. -/
def varintLoop : ℕ → UInt64 → Bytes
  | 0, v => [v.toUInt8]
  | fuel + 1, v =>
    if v ≥ 0x80 then ((v &&& 0x7f) ||| 0x80).toUInt8 :: varintLoop fuel (v >>> 7)
    else [v.toUInt8]

/-- `varint`. -/
def varint (v : UInt64) : Bytes := varintLoop 9 v

/-- `key`: a field number and its wire type. -/
def key (field wire : UInt64) : Bytes := varint ((field <<< 3) ||| wire)

/-- `uint_field`: proto3 omits zero-valued scalars. -/
def uintField (field v : UInt64) : Bytes := if v = 0 then [] else key field 0 ++ varint v

/-- `bytes_field`. -/
def bytesField (field : UInt64) (v : Bytes) : Bytes :=
  key field 2 ++ varint (UInt64.ofNat v.length) ++ v

theorem length_varintLoop_pos (fuel : ℕ) (v : UInt64) : 0 < (varintLoop fuel v).length := by
  cases fuel with
  | zero => simp [varintLoop]
  | succ fuel =>
    rw [varintLoop]
    split_ifs <;> simp

theorem length_varintLoop_le (fuel : ℕ) (v : UInt64) : (varintLoop fuel v).length ≤ fuel + 1 := by
  induction fuel generalizing v with
  | zero => simp [varintLoop]
  | succ fuel ih =>
    rw [varintLoop]
    split_ifs
    · simpa using ih (v >>> 7)
    · simp

/-- A varint takes one to ten bytes. -/
theorem length_varint_le (v : UInt64) : (varint v).length ≤ 10 := length_varintLoop_le 9 v

theorem toNat_shiftRight_seven (v : UInt64) : (v >>> 7).toNat = v.toNat / 128 := by
  rw [UInt64.toNat_shiftRight]
  simp [Nat.shiftRight_eq_div_pow]

/-- `k + 1` bytes are enough below `2^(7 (k + 1))`. -/
theorem length_varintLoop_le_of_lt {fuel k : ℕ} {v : UInt64} (h : v.toNat < 128 ^ (k + 1)) :
    (varintLoop fuel v).length ≤ k + 1 := by
  induction fuel generalizing k v with
  | zero => simp [varintLoop]
  | succ fuel ih =>
    rw [varintLoop]
    split_ifs with hv
    · cases k with
      | zero =>
        rw [ge_iff_le, UInt64.le_iff_toNat_le] at hv
        simp at hv h
        omega
      | succ k =>
        have := ih (k := k) (v := v >>> 7) (by
          rw [toNat_shiftRight_seven, Nat.div_lt_iff_lt_mul (by norm_num), ← pow_succ]
          exact h)
        simpa using this
    · simp

/-- From `2^(7 k)` on, `k + 1` bytes are needed. -/
theorem le_length_varintLoop {fuel k : ℕ} {v : UInt64} (hk : k ≤ fuel) (h : 128 ^ k ≤ v.toNat) :
    k + 1 ≤ (varintLoop fuel v).length := by
  induction fuel generalizing k v with
  | zero =>
    obtain rfl : k = 0 := by omega
    simp [varintLoop]
  | succ fuel ih =>
    cases k with
    | zero => exact length_varintLoop_pos _ _
    | succ k =>
      have hv : v ≥ 0x80 := by
        rw [ge_iff_le, UInt64.le_iff_toNat_le]
        have h1 : 1 ≤ 128 ^ k := Nat.one_le_pow _ _ (by norm_num)
        rw [pow_succ] at h
        simp
        omega
      have := ih (k := k) (v := v >>> 7) (by omega) (by
        rw [toNat_shiftRight_seven, Nat.le_div_iff_mul_le (by norm_num), ← pow_succ]
        exact h)
      rw [varintLoop, if_pos hv, List.length_cons]
      omega

theorem length_uintField_le (field v : UInt64) :
    (uintField field v).length ≤ (key field 0).length + 10 := by
  rw [uintField]
  split_ifs
  · simp
  · simpa using length_varint_le v

theorem length_bytesField (field : UInt64) (v : Bytes) :
    (bytesField field v).length
      = (key field 2).length + (varint (UInt64.ofNat v.length)).length + v.length := by
  simp [bytesField, Nat.add_assoc]

end Pb
end Net
end Bg3le
