import Mathlib.Algebra.Order.Floor.Ring
import Mathlib.Data.Int.ConditionallyCompleteOrder
import Mathlib.Data.Int.Log
import Mathlib.Data.Rat.Floor
import Mathlib.Tactic.Linarith
import Mathlib.Tactic.Positivity
import Mathlib.Tactic.Push

/-!
# Rounding

A floating-point format has a base, so many digits, and a least unit. The number of a format
that is nearest to a rational is a multiple of the unit there; rounding to it is monotone, and
leaves alone what the format has.
-/

namespace Rounding

variable {x y : ℚ}

/-- The rationals with an infinity at both ends. -/
abbrev Extended := WithBot (WithTop ℚ)

/-! ## To integers -/

/-- The nearest integer, a half to the even one. -/
def nearestEven (x : ℚ) : ℤ :=
  if x - ⌊x⌋ < 1 / 2 ∨ (x - ⌊x⌋ = 1 / 2 ∧ ⌊x⌋ % 2 = 0) then ⌊x⌋ else ⌊x⌋ + 1

/-- The nearest integer, a half away from zero. -/
def nearestAway (x : ℚ) : ℤ := if 0 ≤ x then ⌊x + 1 / 2⌋ else ⌈x - 1 / 2⌉

/-- The nearest integer is not below the floor. -/
theorem floor_le_nearestEven (x : ℚ) : ⌊x⌋ ≤ nearestEven x := by
  unfold nearestEven
  split_ifs <;> omega

/-- The nearest integer is not above the floor's successor. -/
theorem nearestEven_le (x : ℚ) : nearestEven x ≤ ⌊x⌋ + 1 := by
  unfold nearestEven
  split_ifs <;> omega

theorem nearestEven_mono : Monotone nearestEven := by
  intro x y hxy
  rcases (Int.floor_mono hxy).lt_or_eq with hlt | heq
  · exact (nearestEven_le x).trans (hlt.trans_le (floor_le_nearestEven y))
  · unfold nearestEven
    rw [heq]
    split_ifs with hx hy hy
    · rfl
    · omega
    · -- the same integer below, and the smaller one is rounded up
      exfalso
      push Not at hx
      rcases hy with hy | ⟨hy, heven⟩
      · linarith
      · exact absurd heven (hx.2 (le_antisymm (by linarith) hx.1))
    · rfl

@[simp] theorem nearestEven_intCast (n : ℤ) : nearestEven n = n := by
  simp [nearestEven]

theorem nearestAway_mono : Monotone nearestAway := by
  intro x y hxy
  unfold nearestAway
  split_ifs with hx hy hy
  · exact Int.floor_mono (by linarith)
  · exact absurd (hx.trans hxy) hy
  · have hneg : ⌈x - 1 / 2⌉ ≤ 0 := Int.ceil_le.mpr (by push_cast; linarith)
    exact hneg.trans (Int.floor_nonneg.mpr (by linarith))
  · exact Int.ceil_mono (by linarith)

@[simp] theorem nearestAway_intCast (n : ℤ) : nearestAway n = n := by
  unfold nearestAway
  split_ifs
  · rw [Int.floor_eq_iff]
    constructor <;> linarith
  · rw [Int.ceil_eq_iff]
    constructor <;> linarith

/-! ## To a format -/

structure Format where
  base : ℕ
  digits : ℕ
  /-- The exponent of the least unit. -/
  least : ℤ
  base_gt : 1 < base
  digits_pos : 0 < digits

namespace Format

variable {f : Format}

/-- The exponent of the unit that numbers around this one have. -/
def unit (f : Format) (x : ℚ) : ℤ := max (Int.log f.base |x| - (f.digits - 1)) f.least

def nearest (f : Format) (x : ℚ) : ℚ :=
  nearestEven (x / (f.base : ℚ) ^ f.unit x) * (f.base : ℚ) ^ f.unit x

theorem power_pos (f : Format) (k : ℤ) : 0 < (f.base : ℚ) ^ k :=
  zpow_pos (by exact_mod_cast (Nat.zero_lt_one.trans f.base_gt)) k

/-- A multiple of a larger unit is one of the unit. -/
theorem multiple (f : Format) {j k : ℤ} (hk : j ≤ k) (n : ℤ) :
    ∃ m : ℤ, n * (f.base : ℚ) ^ k = m * (f.base : ℚ) ^ j := by
  have hbase : (f.base : ℚ) ≠ 0 := by
    have hgt := f.base_gt
    exact_mod_cast (by omega : f.base ≠ 0)
  obtain ⟨d, hd⟩ := Int.eq_ofNat_of_zero_le (sub_nonneg.mpr hk)
  refine ⟨n * (f.base : ℤ) ^ d, ?_⟩
  push_cast
  rw [mul_assoc, ← zpow_natCast, ← zpow_add₀ hbase, ← hd, sub_add_cancel]

/-- A number at most a multiple of the unit rounds to at most that multiple. -/
theorem nearest_le {k : ℤ} {n : ℤ} (hx : x ≤ n * (f.base : ℚ) ^ k) (hk : f.unit x ≤ k) :
    f.nearest x ≤ n * (f.base : ℚ) ^ k := by
  obtain ⟨m, hm⟩ := f.multiple hk n
  rw [hm] at hx ⊢
  have hunit := f.power_pos (f.unit x)
  have hle := nearestEven_mono ((div_le_iff₀ hunit).mpr hx)
  rw [nearestEven_intCast] at hle
  exact mul_le_mul_of_nonneg_right (by exact_mod_cast hle) hunit.le

/-- A number at least a multiple of the unit rounds to at least that multiple. -/
theorem le_nearest {k : ℤ} {n : ℤ} (hx : n * (f.base : ℚ) ^ k ≤ x) (hk : f.unit x ≤ k) :
    n * (f.base : ℚ) ^ k ≤ f.nearest x := by
  obtain ⟨m, hm⟩ := f.multiple hk n
  rw [hm] at hx ⊢
  have hunit := f.power_pos (f.unit x)
  have hle := nearestEven_mono ((le_div_iff₀ hunit).mpr hx)
  rw [nearestEven_intCast] at hle
  exact mul_le_mul_of_nonneg_right (by exact_mod_cast hle) hunit.le

/-- A multiple of the unit there is its own nearest. -/
theorem nearest_of_multiple {k : ℤ} {n : ℤ} (hx : x = n * (f.base : ℚ) ^ k) (hk : f.unit x ≤ k) :
    f.nearest x = x := by
  apply le_antisymm
  · exact (nearest_le hx.le hk).trans hx.ge
  · exact hx.le.trans (le_nearest hx.ge hk)

theorem nearest_eq_of_unit_eq {k : ℤ} (hx : f.unit x = k) :
    f.nearest x = nearestEven (x / (f.base : ℚ) ^ k) * (f.base : ℚ) ^ k := by
  rw [nearest, hx]

/-- A larger unit comes with a power of the base between the numbers. -/
theorem power_between {s t : ℚ} (ht : t ≠ 0) (hunit : f.unit s < f.unit t) :
    |s| ≤ (f.base : ℚ) ^ Int.log f.base |t| ∧ (f.base : ℚ) ^ Int.log f.base |t| ≤ |t| ∧
      f.unit t ≤ Int.log f.base |t| := by
  have hdigits := f.digits_pos
  unfold unit at hunit ⊢
  have hlog : Int.log f.base |s| + 1 ≤ Int.log f.base |t| := by omega
  refine ⟨?_, Int.zpow_log_le_self f.base_gt (abs_pos.mpr ht), by omega⟩
  refine (Int.lt_zpow_succ_log_self f.base_gt |s|).le.trans ?_
  exact zpow_le_zpow_right₀ (by exact_mod_cast f.base_gt.le) hlog

/-- A larger number has a larger unit. -/
theorem unit_mono (h : |x| ≤ |y|) (hx : x ≠ 0) : f.unit x ≤ f.unit y :=
  max_le_max_right _ (Int.sub_le_sub_right (Int.log_mono_right (abs_pos.mpr hx) h) _)

theorem nearest_nonneg (hx : 0 ≤ x) : 0 ≤ f.nearest x := by
  have hle := le_nearest (f := f) (n := 0) (k := f.unit x) (by simpa using hx) le_rfl
  simpa using hle

theorem nearest_nonpos (hx : x ≤ 0) : f.nearest x ≤ 0 := by
  have hle := nearest_le (f := f) (n := 0) (k := f.unit x) (by simpa using hx) le_rfl
  simpa using hle

/-- Between two numbers of one unit rounding keeps the order. -/
theorem nearest_mono_of_unit (hxy : x ≤ y) (hunit : f.unit x = f.unit y) :
    f.nearest x ≤ f.nearest y := by
  rw [nearest_eq_of_unit_eq hunit, nearest]
  have hpos := f.power_pos (f.unit y)
  refine mul_le_mul_of_nonneg_right ?_ hpos.le
  exact_mod_cast nearestEven_mono (div_le_div_of_nonneg_right hxy hpos.le)

/-- Rounding to a format keeps the order. -/
theorem nearest_mono (f : Format) : Monotone f.nearest := by
  intro x y hxy
  rcases lt_or_ge 0 x with hx | hx
  · have hy := hx.trans_le hxy
    have hle := unit_mono (f := f) (abs_le_abs_of_nonneg hx.le hxy) hx.ne'
    rcases hle.eq_or_lt with heq | hlt
    · exact nearest_mono_of_unit hxy heq
    · obtain ⟨hs, ht, hk⟩ := power_between hy.ne' hlt
      rw [abs_of_pos hx] at hs
      rw [abs_of_pos hy] at hs ht hk
      have hleft := nearest_le (n := 1) (by simpa using hs) (hlt.le.trans hk)
      have hright := le_nearest (n := 1) (by simpa using ht) hk
      exact hleft.trans hright
  rcases le_or_gt 0 y with hy | hy
  · exact (nearest_nonpos hx).trans (nearest_nonneg hy)
  · have hx' := hxy.trans_lt hy
    have habs : |y| ≤ |x| := by
      rw [abs_of_neg hy, abs_of_neg hx']
      linarith
    rcases (unit_mono (f := f) habs hy.ne).eq_or_lt with heq | hlt
    · exact nearest_mono_of_unit hxy heq.symm
    · obtain ⟨hs, ht, hk⟩ := power_between hx'.ne hlt
      rw [abs_of_neg hy] at hs
      rw [abs_of_neg hx'] at hs ht hk
      have hleft := nearest_le (n := -1) (by push_cast; linarith) hk
      have hright := le_nearest (n := -1) (by push_cast; linarith) (hlt.le.trans hk)
      exact hleft.trans hright

/-- A number within a power of the base rounds to one within it. -/
theorem abs_nearest_le {k : ℤ} (hx : |x| ≤ (f.base : ℚ) ^ k) (hk : f.unit x ≤ k) :
    |f.nearest x| ≤ (f.base : ℚ) ^ k := by
  obtain ⟨hl, hr⟩ := abs_le.mp hx
  have hleft := le_nearest (n := -1) (by push_cast; linarith) hk
  have hright := nearest_le (n := 1) (by push_cast; linarith) hk
  push_cast at hleft hright
  exact abs_le.mpr ⟨by linarith, by linarith⟩

/-- Rounding a second time changes nothing. -/
@[simp] theorem nearest_nearest (f : Format) (x : ℚ) : f.nearest (f.nearest x) = f.nearest x := by
  by_cases hzero : f.nearest x = 0
  · rw [hzero, nearest, zero_div, ← Int.cast_zero, nearestEven_intCast, Int.cast_zero, zero_mul]
  rcases le_or_gt (f.unit (f.nearest x)) (f.unit x) with hle | hlt
  · exact nearest_of_multiple (k := f.unit x) rfl hle
  · -- rounding has gone up to the next power of the base
    obtain ⟨hs, ht, hk⟩ := power_between hzero hlt
    have heq : |f.nearest x| = (f.base : ℚ) ^ Int.log f.base |f.nearest x| :=
      le_antisymm (abs_nearest_le hs (hlt.le.trans hk)) ht
    rcases abs_choice (f.nearest x) with hsign | hsign
    · exact nearest_of_multiple (n := 1) (by rw [← heq, hsign]; simp) hk
    · exact nearest_of_multiple (n := -1) (by rw [← heq, hsign]; simp) hk

/-! ## Overflow -/

/-- The number of the format, infinite from `limit` on. -/
def overflow (limit x : ℚ) : Extended :=
  if x ≤ -limit then ⊥ else if limit ≤ x then ⊤ else ((x : WithTop ℚ) : Extended)

def convert (f : Format) (limit : ℚ) : Extended → Extended :=
  WithBot.recBotCoe ⊥ (WithTop.recTopCoe ⊤ fun x => overflow limit (f.nearest x))

section

variable (f : Format) (limit : ℚ)

@[simp] theorem convert_bot : f.convert limit ⊥ = ⊥ := rfl

@[simp] theorem convert_top : f.convert limit ⊤ = ⊤ := rfl

@[simp] theorem convert_coe (x : ℚ) :
    f.convert limit ((x : WithTop ℚ) : Extended) = overflow limit (f.nearest x) := rfl

/-- Passing a limit to infinity keeps the order. -/
theorem overflow_mono : Monotone (overflow limit) := by
  intro x y hxy
  unfold overflow
  split_ifs
  all_goals first | exact bot_le | exact le_top | skip
  · linarith
  · linarith
  · linarith
  · exact WithBot.coe_le_coe.mpr (WithTop.coe_le_coe.mpr hxy)

/-- A conversion keeps the order. -/
theorem convert_mono : Monotone (f.convert limit) := by
  intro a b hab
  induction a using WithBot.recBotCoe with
  | bot => exact bot_le
  | coe a =>
    induction b using WithBot.recBotCoe with
    | bot => exact absurd hab (WithBot.not_coe_le_bot a)
    | coe b =>
      have hab := WithBot.coe_le_coe.mp hab
      induction b using WithTop.recTopCoe with
      | top => exact le_top
      | coe y =>
        induction a using WithTop.recTopCoe with
        | top => exact absurd hab (WithTop.not_top_le_coe y)
        | coe x => exact overflow_mono limit (f.nearest_mono (WithTop.coe_le_coe.mp hab))

/-- What the format has is converted to itself. -/
@[simp] theorem convert_convert (a : Extended) :
    f.convert limit (f.convert limit a) = f.convert limit a := by
  induction a using WithBot.recBotCoe with
  | bot => rfl
  | coe a =>
    induction a using WithTop.recTopCoe with
    | top => rfl
    | coe x =>
      show f.convert limit (overflow limit (f.nearest x)) = overflow limit (f.nearest x)
      unfold overflow
      split_ifs with hlow hhigh
      · rfl
      · rfl
      · rw [convert_coe, nearest_nearest, overflow, if_neg hlow, if_neg hhigh]

/-- A number that the format has converts to itself. -/
theorem convert_of_multiple {k : ℤ} {n : ℤ} (hx : x = n * (f.base : ℚ) ^ k) (hk : f.unit x ≤ k)
    (hlimit : |x| < limit) :
    f.convert limit ((x : WithTop ℚ) : Extended) = ((x : WithTop ℚ) : Extended) := by
  obtain ⟨hlow, hhigh⟩ := abs_lt.mp hlimit
  rw [convert_coe, nearest_of_multiple hx hk, overflow, if_neg (not_le.mpr hlow),
    if_neg (not_le.mpr hhigh)]

end

end Format
end Rounding
