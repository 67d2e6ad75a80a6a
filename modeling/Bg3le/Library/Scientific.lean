import Bg3le.Library.NumberText
import Mathlib.Data.Nat.Digits.Lemmas

/-!
# Numbers with an exponent

How C prints a number with `%.*e`. Seventeen digits are enough to find a double again.
-/

namespace Rounding

variable {x y : ℚ} {f : Format}

/-- Rounding moves a number by a half at most. -/
theorem abs_nearestEven_sub_le (x : ℚ) : |(nearestEven x : ℚ) - x| ≤ 1 / 2 := by
  have hfloor := Int.floor_le x
  have hlt := Int.lt_floor_add_one x
  unfold nearestEven
  split_ifs with h
  · have hle : x - ⌊x⌋ ≤ 1 / 2 := by
      rcases h with h | ⟨h, -⟩
      · exact h.le
      · exact h.le
    rw [abs_le]
    constructor <;> linarith
  · push Not at h
    rw [abs_le]
    push_cast
    constructor <;> linarith [h.1]

/-- A number less than a half from an integer rounds to it. -/
theorem nearestEven_of_close {n : ℤ} (h : |x - n| < 1 / 2) : nearestEven x = n := by
  have hnear := abs_nearestEven_sub_le x
  have habs : |((nearestEven x - n : ℤ) : ℚ)| < 1 := by
    have htriangle := abs_sub_le (nearestEven x : ℚ) x n
    push_cast
    linarith
  have hzero : |nearestEven x - n| < 1 := by exact_mod_cast habs
  have := Int.abs_lt_one_iff.mp hzero
  omega

/-- Rounding to the nearest integer is odd. -/
theorem nearestEven_neg (x : ℚ) : nearestEven (-x) = -nearestEven x := by
  have hfloor := Int.floor_le x
  have hlt := Int.lt_floor_add_one x
  by_cases htie : x - ⌊x⌋ = 1 / 2
  · -- both neighbours are as near
    have hneg : ⌊-x⌋ = -⌊x⌋ - 1 := by
      rw [Int.floor_eq_iff]
      push_cast
      constructor <;> linarith
    have htie' : -x - ⌊-x⌋ = 1 / 2 := by
      rw [hneg]
      push_cast
      linarith
    unfold nearestEven
    rw [htie, htie', hneg]
    split_ifs with h h' h' <;> simp only [lt_irrefl, true_and, false_or] at h h' <;> omega
  · have hclose : |x - nearestEven x| < 1 / 2 := by
      refine lt_of_le_of_ne (abs_sub_comm x (nearestEven x) ▸ abs_nearestEven_sub_le x) fun heq => ?_
      unfold nearestEven at heq
      split_ifs at heq with h
      · have hhalf : x - ⌊x⌋ < 1 / 2 := h.resolve_right fun h => htie h.1
        rw [abs_of_nonneg (by linarith)] at heq
        linarith
      · push Not at h
        push_cast at heq
        rw [abs_of_neg (by linarith)] at heq
        have := h.1
        exact htie (by linarith)
    refine nearestEven_of_close ?_
    push_cast
    rw [← abs_neg]
    convert hclose using 2
    ring

namespace Format

@[simp] theorem unit_neg (f : Format) (x : ℚ) : f.unit (-x) = f.unit x := by
  rw [unit, unit, abs_neg]

/-- Rounding to a format is odd. -/
theorem nearest_neg (f : Format) (x : ℚ) : f.nearest (-x) = -f.nearest x := by
  rw [nearest, nearest, unit_neg, neg_div, nearestEven_neg]
  push_cast
  ring

/-- A number of the format is found from one that is nearer than half a unit. -/
theorem nearest_of_close {k n : ℤ} (hx : x = n * (f.base : ℚ) ^ k) (hk : f.unit y ≤ k)
    (hclose : |y - x| < (f.base : ℚ) ^ f.unit y / 2) : f.nearest y = x := by
  obtain ⟨m, hm⟩ := multiple f hk n
  have hpos := power_pos f (f.unit y)
  have hquotient : y / (f.base : ℚ) ^ f.unit y - m = (y - x) / (f.base : ℚ) ^ f.unit y := by
    rw [hx, hm]
    field_simp
  rw [nearest, nearestEven_of_close (n := m), hx, hm]
  rw [hquotient, abs_div, abs_of_pos hpos, div_lt_iff₀ hpos]
  linarith

/-- A conversion gives a finite number exactly when the rounded one stays within the limit. -/
theorem convert_eq_coe {limit : ℚ} :
    f.convert limit ((y : WithTop ℚ) : Extended) = ((x : WithTop ℚ) : Extended) ↔
      f.nearest y = x ∧ ¬x ≤ -limit ∧ ¬limit ≤ x := by
  rw [convert_coe, overflow]
  constructor
  · intro h
    split_ifs at h with hlow hhigh
    · cases h
    · cases h
    · obtain rfl : f.nearest y = x := WithTop.coe_injective (WithBot.coe_injective h)
      exact ⟨rfl, hlow, hhigh⟩
  · rintro ⟨rfl, hlow, hhigh⟩
    rw [if_neg hlow, if_neg hhigh]

/-- A conversion that gives a finite number gives its opposite for the opposite. -/
theorem convert_neg {limit : ℚ}
    (h : f.convert limit ((y : WithTop ℚ) : Extended) = ((x : WithTop ℚ) : Extended)) :
    f.convert limit (((-y : ℚ) : WithTop ℚ) : Extended) = (((-x : ℚ) : WithTop ℚ) : Extended) := by
  obtain ⟨hnear, hlow, hhigh⟩ := convert_eq_coe.mp h
  rw [convert_eq_coe, nearest_neg, hnear]
  exact ⟨rfl, by linarith, by linarith⟩

end Format
end Rounding

namespace NumberText

open Rounding

variable {x r : ℚ} {p n : ℕ} {k : ℤ}

/-! ## Doubles -/

theorem ofRat_inj {y : ℚ} (h : ofRat x = ofRat y) : x = y :=
  Option.some.inj (congrArg rational h)

theorem eq_ofRat_of_rational {v : Number} (h : rational v = some x) : v = ofRat x := by
  obtain ⟨y, rfl, h⟩ := Option.bind_eq_some_iff.mp h
  induction y using WithBot.recBotCoe with
  | bot => cases h
  | coe y =>
    induction y using WithTop.recTopCoe with
    | top => cases h
    | coe y =>
      obtain rfl : y = x := Option.some.inj h
      rfl

theorem toDouble_eq_ofRat : toDouble (ofRat r) = ofRat x ↔
    binary64.convert (2 ^ 1024) ((r : WithTop ℚ) : Extended) = ((x : WithTop ℚ) : Extended) :=
  Option.some_inj

/-- A double's opposite is the double of the opposite. -/
theorem toDouble_neg (h : toDouble (ofRat r) = ofRat x) : toDouble (ofRat (-r)) = ofRat (-x) :=
  toDouble_eq_ofRat.mpr (Format.convert_neg (toDouble_eq_ofRat.mp h))

/-- Sixteen digits of precision are finer than the unit of a double. -/
theorem power_lt_unit {y : ℚ} {d : ℤ} (hy : (10 : ℚ) ^ d ≤ y) :
    (10 : ℚ) ^ (d - 16) < 2 ^ binary64.unit y := by
  have hpos : 0 < y := (zpow_pos (by norm_num) d).trans_le hy
  have hunit : Int.log 2 y ≤ binary64.unit y + 52 := by
    have hmax : Int.log 2 |y| - 52 ≤ binary64.unit y := le_max_left _ _
    rw [abs_of_pos hpos] at hmax
    omega
  have hlt : y < 2 ^ (binary64.unit y + 53) := by
    refine (Int.lt_zpow_succ_log_self (by decide : 1 < 2) y).trans_le ?_
    exact zpow_le_zpow_right₀ (by norm_num) (by omega)
  have hsplit : (2 : ℚ) ^ (binary64.unit y + 53) = 2 ^ binary64.unit y * 2 ^ 53 := by
    rw [zpow_add₀ (by norm_num)]
    norm_num
  have hsmall : (10 : ℚ) ^ (d - 16) = 10 ^ d / 10 ^ 16 := by
    rw [zpow_sub₀ (by norm_num)]
    norm_num
  have hfine := zpow_pos (by norm_num : (0 : ℚ) < 2) (binary64.unit y)
  rw [hsmall, div_lt_iff₀ (by norm_num)]
  calc (10 : ℚ) ^ d ≤ y := hy
    _ < 2 ^ binary64.unit y * 2 ^ 53 := by rwa [← hsplit]
    _ < 2 ^ binary64.unit y * 10 ^ 16 := by
      exact mul_lt_mul_of_pos_left (by norm_num) hfine

/-- A double is found from a number that has its first seventeen digits. -/
theorem toDouble_of_close (hx : toDouble (ofRat x) = ofRat x) {d : ℤ} (hlow : (10 : ℚ) ^ d ≤ x)
    (hlow' : (10 : ℚ) ^ d ≤ r) (hclose : |r - x| ≤ 10 ^ (d - 16) / 2) :
    toDouble (ofRat r) = ofRat x := by
  obtain ⟨hnearest, hbounds⟩ := Format.convert_eq_coe.mp (toDouble_eq_ofRat.mp hx)
  have hpos : 0 < x := (zpow_pos (by norm_num) d).trans_le hlow
  have hpos' : 0 < r := (zpow_pos (by norm_num) d).trans_le hlow'
  generalize hn : nearestEven (x / (2 : ℚ) ^ binary64.unit x) = n
  have hmultiple : x = n * (2 : ℚ) ^ binary64.unit x := by
    rw [← hn]
    exact hnearest.symm
  have hfine := power_lt_unit hlow
  have hfine' := power_lt_unit hlow'
  refine toDouble_eq_ofRat.mpr (Format.convert_eq_coe.mpr
    ⟨Format.nearest_of_close hmultiple ?_ (hclose.trans_lt ?_), hbounds⟩)
  · -- a power of two between them would be a whole unit away
    by_contra hunit
    have hlt := lt_of_not_ge hunit
    obtain ⟨hs, ht, hk⟩ := Format.power_between hpos'.ne' hlt
    rw [abs_of_pos hpos] at hs
    rw [abs_of_pos hpos'] at hs ht hk
    have hunits := zpow_pos (by norm_num : (0 : ℚ) < 2) (binary64.unit x)
    obtain ⟨m, hm⟩ := Format.multiple binary64 (hlt.le.trans hk) 1
    rw [Int.cast_one, one_mul] at hm
    rcases hs.eq_or_lt with heq | hbelow
    · have hlog : Int.log 2 x = Int.log 2 r := by
        rw [heq]
        exact Int.log_zpow (by decide) _
      have hsame : binary64.unit x = binary64.unit r := by
        rw [Format.unit, Format.unit, abs_of_pos hpos, abs_of_pos hpos']
        exact congrArg (fun l => max (l - 52) (-1074)) hlog
      exact hlt.ne hsame
    · have hstep : n + 1 ≤ m := by
        rw [hmultiple, hm] at hbelow
        exact_mod_cast lt_of_mul_lt_mul_right hbelow hunits.le
      have hfar : ((n + 1 : ℤ) : ℚ) * 2 ^ binary64.unit x ≤ r := by
        refine le_trans ?_ (hm.symm.trans_le ht)
        exact mul_le_mul_of_nonneg_right (by exact_mod_cast hstep) hunits.le
      push_cast at hfar
      have habs := le_abs_self (r - x)
      linarith
  · exact (div_lt_div_iff_of_pos_right (by norm_num)).mpr hfine'

/-! ## Printing -/

/-- The first `p` digits of a positive number, and the weight of the first. -/
def scientific (p : ℕ) (x : ℚ) : ℕ × ℤ :=
  let k := Int.log 10 x
  let n := (nearestEven (x / 10 ^ (k - (p - 1)))).toNat
  -- nines may be rounded up to one more digit
  if n < 10 ^ p then (n, k) else (n / 10, k + 1)

/-- An exponent has a sign, and at least two digits. -/
def formatExponent (k : ℤ) : List UInt8 :=
  (if k < 0 then 0x2d else 0x2b) ::
    (if k.natAbs < 10 then 0x30 :: digits k.natAbs else digits k.natAbs)

/-- `%.*e` of a positive number, with digits after the point. -/
def formatE (p : ℕ) (x : ℚ) : List UInt8 :=
  let (n, k) := scientific (p + 1) x
  (digits n).take 1 ++ 0x2e :: ((digits n).drop 1 ++ 0x65 :: formatExponent k)

/-- The exponent written is at least the number's own; rounding up can raise it. -/
theorem log_le_scientific (p : ℕ) (x : ℚ) : Int.log 10 x ≤ (scientific p x).2 := by
  unfold scientific
  simp only
  split
  · exact le_rfl
  · exact Int.le_add_one le_rfl

/-- The digits are as near as they can be. -/
theorem scientific_spec (hx : 0 < x) (hp : 0 < p) :
    10 ^ (p - 1) ≤ (scientific p x).1 ∧ (scientific p x).1 < 10 ^ p ∧
      |(scientific p x).1 * (10 : ℚ) ^ ((scientific p x).2 - (p - 1)) - x| ≤
        10 ^ (Int.log 10 x - (p - 1)) / 2 := by
  obtain ⟨p, rfl⟩ : ∃ q, p = q + 1 := ⟨p - 1, by omega⟩
  generalize hlog : Int.log 10 x = k
  have hlow : (10 : ℚ) ^ k ≤ x := hlog ▸ Int.zpow_log_le_self (by decide) hx
  have hhigh : x < (10 : ℚ) ^ (k + 1) := hlog ▸ Int.lt_zpow_succ_log_self (by decide) x
  have hp' : k - (((p + 1 : ℕ) : ℤ) - 1) = k - p := by omega
  have hunit := zpow_pos (by norm_num : (0 : ℚ) < 10) (k - p)
  have hten : (10 : ℚ) ^ k = (10 ^ p : ℤ) * 10 ^ (k - p) := by
    push_cast
    rw [← zpow_natCast, ← zpow_add₀ (by norm_num)]
    congr 1
    omega
  have hten' : (10 : ℚ) ^ (k + 1) = (10 ^ (p + 1) : ℤ) * 10 ^ (k - p) := by
    push_cast
    rw [← zpow_natCast, ← zpow_add₀ (by norm_num)]
    congr 1
    omega
  -- rounding keeps the bounds, as both are whole numbers
  have hfrom : (10 ^ p : ℤ) ≤ nearestEven (x / 10 ^ (k - p)) := by
    rw [← nearestEven_intCast (10 ^ p)]
    exact nearestEven_mono ((le_div_iff₀ hunit).mpr (hten ▸ hlow))
  have hto : nearestEven (x / 10 ^ (k - p)) ≤ (10 ^ (p + 1) : ℤ) := by
    rw [← nearestEven_intCast (10 ^ (p + 1))]
    exact nearestEven_mono ((div_le_iff₀ hunit).mpr (hten' ▸ hhigh.le))
  have hnear : |nearestEven (x / 10 ^ (k - p)) * (10 : ℚ) ^ (k - p) - x| ≤ 10 ^ (k - p) / 2 := by
    have hclose := abs_nearestEven_sub_le (x / 10 ^ (k - p))
    have hscaled : nearestEven (x / 10 ^ (k - p)) * (10 : ℚ) ^ (k - p) - x =
        (nearestEven (x / 10 ^ (k - p)) - x / 10 ^ (k - p)) * 10 ^ (k - p) := by
      field_simp
    rw [hscaled, abs_mul, abs_of_pos hunit]
    have hle := mul_le_mul_of_nonneg_right hclose hunit.le
    linarith
  unfold scientific
  simp only [hlog, hp']
  generalize nearestEven (x / 10 ^ (k - p)) = m at hfrom hto hnear
  obtain ⟨n, rfl⟩ := Int.eq_ofNat_of_zero_le ((by positivity : (0 : ℤ) ≤ 10 ^ p).trans hfrom)
  have hfrom : 10 ^ p ≤ n := by exact_mod_cast hfrom
  have hto : n ≤ 10 ^ (p + 1) := by exact_mod_cast hto
  simp only [Int.toNat_natCast, Nat.add_sub_cancel]
  split_ifs with hfits
  · refine ⟨hfrom, hfits, ?_⟩
    rw [hp']
    exact_mod_cast hnear
  -- rounded up to a power of ten: one digit too many, so the exponent takes it
  · have hn : n = 10 ^ p * 10 := by
      rw [← pow_succ]
      exact le_antisymm hto (not_lt.mp hfits)
    rw [hn, Nat.mul_div_cancel _ (by decide)]
    refine ⟨le_rfl, Nat.pow_lt_pow_right (by decide) (by omega), ?_⟩
    have hshift : k + 1 - (((p + 1 : ℕ) : ℤ) - 1) = (k - p) + 1 := by omega
    rw [hn] at hnear
    rw [hshift, zpow_add_one₀ (by norm_num)]
    push_cast at hnear ⊢
    calc |(10 : ℚ) ^ p * (10 ^ (k - p) * 10) - x| = |10 ^ p * 10 * 10 ^ (k - p) - x| := by ring_nf
      _ ≤ 10 ^ (k - p) / 2 := hnear

/-! ## Reading -/

variable {whole part rest ds : List UInt8} {x : ℚ} {p n : ℕ} {k : ℤ}

/-- A text of digits has the value of its first part shifted past its second. -/
theorem value_append (a b : List UInt8) :
    decimal.value (a ++ b) = decimal.value a * 10 ^ b.length + decimal.value b := by
  induction b using List.reverseRecOn with
  | nil => simp [Style.value]
  | append_singleton b c ih =>
    have hlast (l : List UInt8) : decimal.value (l ++ [c]) =
        decimal.value l * 10 + (digitOf c).getD 0 := List.foldl_concat ..
    rw [← List.append_assoc, hlast, hlast, ih, List.length_append, List.length_singleton, pow_succ]
    ring

/-- Zeros have no value. -/
theorem value_zeros (j : ℕ) : decimal.value (List.replicate j 0x30) = 0 := by
  induction j with
  | zero => rfl
  | succ j ih =>
    rw [List.replicate_succ', value_append, ih]
    rfl

theorem isDigit_digits : ∀ c ∈ digits n, decimal.isDigit c = true :=
  fun _ hc => decimal_isDigit (digit_of_mem hc)

/-- A number of `p + 1` digits is written with that many. -/
theorem length_digits (hlow : 10 ^ p ≤ n) (hhigh : n < 10 ^ (p + 1)) : (digits n).length = p + 1 := by
  have hn : n ≠ 0 := ((Nat.pow_pos (by decide)).trans_le hlow).ne'
  rw [digits, if_neg hn, List.length_map, List.length_reverse]
  exact le_antisymm ((Nat.digits_length_le_iff (by decide) n).mpr hhigh)
    ((Nat.lt_digits_length_iff (by decide) n).mpr hlow)

/-- No further digit comes here. -/
def NoDigit (rest : List UInt8) : Prop := ∀ c, rest.head? = some c → decimal.isDigit c = false

/-- The digits before a text that starts with none are read to their end and no further. -/
theorem NoDigit.takeWhile (h : NoDigit rest) (hw : ∀ c ∈ whole, decimal.isDigit c = true) :
    (whole ++ rest).takeWhile decimal.isDigit = whole ∧
      (whole ++ rest).dropWhile decimal.isDigit = rest := by
  rw [List.takeWhile_append_of_pos hw, List.dropWhile_append_of_pos hw]
  cases rest with
  | nil => exact ⟨List.append_nil whole, rfl⟩
  | cons c rest =>
    have hc := h c rfl
    rw [List.takeWhile_cons_of_neg (by rw [hc]; exact Bool.false_ne_true),
      List.dropWhile_cons_of_neg (by rw [hc]; exact Bool.false_ne_true)]
    exact ⟨List.append_nil whole, rfl⟩

/-- Digits with a point among them and what follows read as a magnitude with its exponent. -/
theorem magnitude_point (hw : ∀ c ∈ whole, decimal.isDigit c = true) (hne : whole ≠ [])
    (hp : ∀ c ∈ part, decimal.isDigit c = true) (hrest : NoDigit rest) :
    decimal.magnitude (whole ++ 0x2e :: (part ++ rest)) = some (decimal.value (whole ++ part) /
      (10 : ℚ) ^ part.length * (10 : ℚ) ^ decimal.exponent rest) := by
  have hpoint : NoDigit (0x2e :: (part ++ rest)) := by
    rintro c ⟨⟩
    decide
  have hfraction : decimal.fraction (0x2e :: (part ++ rest)) = (part, rest) :=
    Prod.ext (hrest.takeWhile hp).1 (hrest.takeWhile hp).2
  unfold Style.magnitude
  rw [(hpoint.takeWhile hw).1, (hpoint.takeWhile hw).2, hfraction]
  simp only
  rw [if_neg (List.append_ne_nil_of_left_ne_nil hne part)]
  rfl

/-- Digits without a point and what follows read as a magnitude with its exponent. -/
theorem magnitude_whole (hw : ∀ c ∈ whole, decimal.isDigit c = true) (hne : whole ≠ [])
    (hrest : NoDigit rest) (hpoint : rest.head? ≠ some 0x2e) :
    decimal.magnitude (whole ++ rest) =
      some (decimal.value whole * (10 : ℚ) ^ decimal.exponent rest) := by
  have hfraction : decimal.fraction rest = ([], rest) := by
    unfold Style.fraction
    split
    · exact absurd rfl hpoint
    · rfl
  unfold Style.magnitude
  rw [(hrest.takeWhile hw).1, (hrest.takeWhile hw).2, hfraction]
  simp only [List.append_nil]
  rw [if_neg hne]
  simp [decimal]

/-- An exponent's sign and digits read as the integer they stand for. -/
theorem exponent_signed {s : List UInt8} {negative : Bool} (hs : signOf s = (negative, ds))
    (hds : ∀ c ∈ ds, decimal.isDigit c = true) :
    decimal.exponent (0x65 :: s) = if negative then -(decimal.value ds : ℤ) else decimal.value ds := by
  have hletter : lower 0x65 = decimal.letter := by decide
  rw [Style.exponent, if_pos hletter, hs]
  simp only
  rw [List.takeWhile_eq_self_iff.mpr hds]

/-- An exponent written with `%d` reads back. -/
theorem exponent_formatD (k : ℤ) : decimal.exponent (0x65 :: formatD k) = k := by
  rw [exponent_signed (signOf_formatD k) isDigit_digits, value_digits]
  split_ifs with hneg <;> simp only [decide_eq_true_eq] at hneg <;> omega

/-- The exponent of `%e` is a sign and digits of the exponent's size. -/
theorem formatExponent_eq (k : ℤ) : ∃ sign ds, formatExponent k = sign :: ds ∧ ds ≠ [] ∧
    (∀ c ∈ ds, decimal.isDigit c = true) ∧ decimal.value ds = k.natAbs ∧
      (sign = 0x2d ∧ k < 0 ∨ sign = 0x2b ∧ 0 ≤ k) := by
  have hsign : ((if k < 0 then 0x2d else 0x2b : UInt8) = 0x2d ∧ k < 0) ∨
      ((if k < 0 then 0x2d else 0x2b : UInt8) = 0x2b ∧ 0 ≤ k) := by
    split
    · exact .inl ⟨rfl, ‹_›⟩
    · exact .inr ⟨rfl, by omega⟩
  by_cases hshort : k.natAbs < 10
  · refine ⟨_, 0x30 :: digits k.natAbs, by rw [formatExponent, if_pos hshort], List.cons_ne_nil _ _,
      fun c hc => ?_, ?_, hsign⟩
    · rcases List.mem_cons.mp hc with rfl | hc
      · decide
      · exact isDigit_digits c hc
    · rw [← List.singleton_append, value_append, value_digits]
      exact (congrArg (· + k.natAbs) (Nat.zero_mul _)).trans (Nat.zero_add _)
  · exact ⟨_, digits k.natAbs, by rw [formatExponent, if_neg hshort], digits_ne_nil _, isDigit_digits,
      value_digits _, hsign⟩

/-- The exponent of `%e` reads back. -/
theorem exponent_formatExponent (k : ℤ) : decimal.exponent (0x65 :: formatExponent k) = k := by
  obtain ⟨sign, ds, htext, -, hds, hvalue, hsign⟩ := formatExponent_eq k
  rw [htext]
  rcases hsign with ⟨rfl, hneg⟩ | ⟨rfl, hpos⟩
  · have hsigned : signOf (0x2d :: ds) = (true, ds) := rfl
    rw [exponent_signed hsigned hds, hvalue, if_pos rfl]
    omega
  · have hsigned : signOf (0x2b :: ds) = (false, ds) := rfl
    rw [exponent_signed hsigned hds, hvalue, if_neg Bool.false_ne_true]
    omega

theorem noDigit_exponent {s : List UInt8} : NoDigit (0x65 :: s) := by
  rintro c ⟨⟩
  decide

/-- `%e` writes one digit, a point, the other digits and the exponent. -/
theorem exists_formatE (hx : 0 < x) :
    ∃ c ds, digits (scientific (p + 1) x).1 = c :: ds ∧ ds.length = p ∧
      formatE p x = c :: 0x2e :: (ds ++ 0x65 :: formatExponent (scientific (p + 1) x).2) := by
  obtain ⟨hlow, hhigh, -⟩ := scientific_spec hx (Nat.succ_pos p)
  have hlength := length_digits hlow hhigh
  obtain ⟨c, ds, hdigits⟩ := List.exists_cons_of_ne_nil (digits_ne_nil (scientific (p + 1) x).1)
  refine ⟨c, ds, hdigits, ?_, ?_⟩
  · rw [hdigits, List.length_cons] at hlength
    exact Nat.succ_injective hlength
  · unfold formatE
    simp only
    rw [hdigits]
    rfl

/-- The exponent of `%e` is printed bytes. -/
theorem printed_formatExponent (k : ℤ) : Printed (formatExponent k) := by
  unfold formatExponent
  refine Printed.cons (by split <;> decide) ?_
  split
  · exact Printed.cons (by decide) (printed_digits _)
  · exact printed_digits _

/-- What is printed is read as the double next to it. -/
theorem strtod_formatE (hx : 0 < x) : strtod (formatE p x) =
    some (toDouble (ofRat ((scientific (p + 1) x).1 * (10 : ℚ) ^ ((scientific (p + 1) x).2 - p)))) := by
  obtain ⟨c, ds, hdigits, hlength, htext⟩ := exists_formatE (p := p) hx
  generalize (scientific (p + 1) x).1 = n at hdigits
  generalize (scientific (p + 1) x).2 = k at htext
  have hc : 0x30 ≤ c ∧ c ≤ 0x39 := digit_of_mem (hdigits ▸ List.mem_cons_self)
  have hds : ∀ c ∈ ds, decimal.isDigit c = true := fun c hc =>
    isDigit_digits c (hdigits ▸ List.mem_cons_of_mem _ hc)
  have hprinted : Printed (formatE p x) := by
    have hall : Printed (c :: ds) := hdigits ▸ printed_digits n
    rw [htext]
    exact Printed.cons (hall c List.mem_cons_self) (Printed.cons (by decide)
      (Printed.append (fun c' hc' => hall c' (List.mem_cons_of_mem c hc'))
        (Printed.cons (by decide) (printed_formatExponent k))))
  have htoken : ∀ c ∈ formatE p x, isToken c := fun c hc => isToken_of_isPrinted (hprinted c hc)
  have hspace : (formatE p x).dropWhile isSpace = formatE p x := by
    rw [List.dropWhile_eq_self_iff]
    exact fun _ => not_isSpace_of_isToken (htoken _ (List.getElem_mem _))
  have hsign : signOf (formatE p x) = (false, formatE p x) := by
    rw [htext]
    unfold signOf
    split
    · next h => exact absurd (List.cons.inj h).1 (by rintro rfl; exact absurd hc (by decide))
    · next h => exact absurd (List.cons.inj h).1 (by rintro rfl; exact absurd hc (by decide))
    · rfl
  -- neither `inf` nor `nan`: the text starts with a digit
  have hword {b : UInt8} {word : List UInt8} (hb : 0x61 ≤ b) :
      ¬b :: word <+: (formatE p x).map lower := by
    rw [htext, List.map_cons, List.cons_prefix_cons]
    rintro ⟨rfl, -⟩
    unfold lower at hb
    grind
  -- nor is it hexadecimal: the second byte is the point
  have hunsigned : unsigned (formatE p x) = decimal.magnitude (formatE p x) := by
    rw [htext]
    unfold unsigned
    split
    · next h => exact absurd (List.cons.inj (List.cons.inj h).2).1 (by decide)
    · next h => exact absurd (List.cons.inj (List.cons.inj h).2).1 (by decide)
    · rfl
  have hlead : ∀ c' ∈ [c], decimal.isDigit c' = true := fun c' hc' =>
    List.mem_singleton.mp hc' ▸ decimal_isDigit hc
  have hmagnitude := magnitude_point hlead (List.cons_ne_nil c []) hds
    (noDigit_exponent (s := formatExponent k))
  unfold strtod
  rw [hspace, List.takeWhile_eq_self_iff.mpr htoken, hsign]
  dsimp only
  rw [if_neg (hword (by decide)), if_neg (hword (by decide)), hunsigned, htext]
  rw [List.singleton_append] at hmagnitude
  rw [hmagnitude, Option.map_some, List.singleton_append, ← hdigits, value_digits,
    exponent_formatExponent, hlength, if_neg Bool.false_ne_true, zpow_sub₀ (by norm_num),
    zpow_natCast, div_mul_eq_mul_div, mul_div_assoc]

/-- Seventeen digits of a double are enough to find it. -/
theorem toDouble_scientific (hx : 0 < x) (hexact : toDouble (ofRat x) = ofRat x) :
    toDouble (ofRat ((scientific 17 x).1 * (10 : ℚ) ^ ((scientific 17 x).2 - 16))) = ofRat x := by
  obtain ⟨hlow, -, hclose⟩ := scientific_spec hx (by decide : 0 < 17)
  have hweight := log_le_scientific 17 x
  refine toDouble_of_close hexact (Int.zpow_log_le_self (by decide) hx) ?_ (by simpa using hclose)
  calc (10 : ℚ) ^ Int.log 10 x ≤ 10 ^ (scientific 17 x).2 := zpow_le_zpow_right₀ (by norm_num) hweight
    _ = 10 ^ 16 * 10 ^ ((scientific 17 x).2 - 16) := by
      rw [← zpow_natCast, ← zpow_add₀ (by norm_num)]
      norm_num
    _ ≤ (scientific 17 x).1 * 10 ^ ((scientific 17 x).2 - 16) :=
      mul_le_mul_of_nonneg_right (by exact_mod_cast hlow) (zpow_pos (by norm_num) _).le

end NumberText
