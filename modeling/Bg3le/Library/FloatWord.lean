import Bg3le.Library.JsonText
import Bg3le.Library.Scientific

/-!
# The word of a float

A double is stored as the float next to it, in thirty-two bits, and is read back as that float.
-/

namespace JsonText

open NumberText Rounding

variable {x : Double} {q : ℚ}

/-! ## Definitions -/

/-- Whether the sign bit of a number is set. -/
def Double.isNegative (x : Double) : Bool := x.minusZero || x.value.any fun a => decide (a < 0)

/-- The exponent and the fraction of a float that is not negative. -/
def magnitudeWord (q : ℚ) : ℕ :=
  let u := binary32.unit q
  let m := ⌊q / 2 ^ u⌋.toNat
  if m < 2 ^ 23 then m else (u + 150).toNat * 2 ^ 23 + (m - 2 ^ 23)

/-- The word of `(float) x`. -/
def floatWord (x : Double) : ℕ :=
  (if x.isNegative then 2 ^ 31 else 0) +
    match toFloat x.value with
    | none => 0x7fc00000
    | some a => ((rational (some a)).map fun q => magnitudeWord |q|).getD 0x7f800000

/-- A number without a value. -/
def special (value : Number) (h : toDouble value = value) : Double where
  value := value
  minusZero := false
  exact := h
  zero h := absurd h Bool.false_ne_true

/-- What an exponent and a fraction stand for. -/
def magnitudeFloat (n : ℕ) : ℚ :=
  if n / 2 ^ 23 = 0 then (n % 2 ^ 23 : ℕ) * (2 : ℚ) ^ (-149 : ℤ)
  else (2 ^ 23 + (n % 2 ^ 23 : ℕ)) * (2 : ℚ) ^ (((n / 2 ^ 23 : ℕ) : ℤ) - 150)

/-- The float of a word. -/
def wordFloat (w : ℕ) : Double :=
  let negative := decide (w / 2 ^ 31 % 2 = 1)
  if w % 2 ^ 31 / 2 ^ 23 < 255 then doubleOf negative (magnitudeFloat (w % 2 ^ 31))
  else if w % 2 ^ 23 = 0 then if negative then special (some ⊥) rfl else special (some ⊤) rfl
  else special none rfl

/-! ## Floats -/

/-- A float is a whole number of its units. -/
theorem float_eq (hq : 0 < q) (hexact : binary32.nearest q = q) :
    ∃ m : ℕ, q = m * (2 : ℚ) ^ binary32.unit q ∧ m < 2 ^ 24 ∧ (m < 2 ^ 23 → binary32.unit q = -149) := by
  have hunit := zpow_pos (by norm_num : (0 : ℚ) < 2) (binary32.unit q)
  have hmultiple : q = nearestEven (q / 2 ^ binary32.unit q) * (2 : ℚ) ^ binary32.unit q := hexact.symm
  generalize nearestEven (q / 2 ^ binary32.unit q) = n at hmultiple
  have hn : 0 ≤ n := by
    rw [hmultiple] at hq
    exact_mod_cast (pos_of_mul_pos_left hq hunit.le).le
  obtain ⟨m, rfl⟩ := Int.eq_ofNat_of_zero_le hn
  rw [Int.cast_natCast] at hmultiple
  have hmax : binary32.unit q = max (Int.log 2 q - 23) (-149) := by
    rw [Format.unit, abs_of_pos hq]
    rfl
  have hbelow {j : ℕ} (h : q < (2 : ℚ) ^ (binary32.unit q + j)) : m < 2 ^ j := by
    rw [zpow_add₀ (by norm_num), zpow_natCast, mul_comm] at h
    have hlt := lt_of_mul_lt_mul_right (hmultiple.symm.trans_lt h) hunit.le
    exact_mod_cast hlt
  have habove {j : ℕ} (h : m < 2 ^ j) : q < (2 : ℚ) ^ (binary32.unit q + j) := by
    rw [zpow_add₀ (by norm_num), zpow_natCast, mul_comm]
    calc q = m * 2 ^ binary32.unit q := hmultiple
      _ < 2 ^ j * 2 ^ binary32.unit q := mul_lt_mul_of_pos_right (by exact_mod_cast h) hunit
  refine ⟨m, hmultiple, hbelow ?_, fun hsmall => ?_⟩
  · refine (Int.lt_zpow_succ_log_self (by decide : 1 < 2) q).trans_le ?_
    exact zpow_le_zpow_right₀ (by norm_num) (by omega)
  · have hlog := (Int.lt_zpow_iff_log_lt (by decide : 1 < 2) hq).mp (habove hsmall)
    omega

/-- Floats are doubles. -/
theorem toDouble_float (hq : 0 < q) (hexact : binary32.nearest q = q) (hlimit : q < 2 ^ 128) :
    toDouble (ofRat q) = ofRat q := by
  obtain ⟨m, hmultiple, hm, -⟩ := float_eq hq hexact
  have hunits : binary64.unit q ≤ binary32.unit q := by
    have hlog : Int.log 2 |q| - 23 ≤ binary32.unit q := le_max_left _ _
    have hleast : -149 ≤ binary32.unit q := le_max_right _ _
    exact max_le (by show Int.log 2 |q| - 52 ≤ _; omega) (by show (-1074 : ℤ) ≤ _; omega)
  refine congrArg some (Format.convert_of_multiple binary64 (2 ^ 1024) (n := m) hmultiple hunits ?_)
  rw [abs_of_pos hq]
  exact hlimit.trans (pow_lt_pow_right₀ (by norm_num) (by norm_num))

theorem toFloat_eq_ofRat {y : ℚ} : toFloat (ofRat y) = ofRat q ↔
    binary32.convert (2 ^ 128) ((y : WithTop ℚ) : Extended) = ((q : WithTop ℚ) : Extended) :=
  Option.some_inj

/-- What a double is stored as is a float within bounds. -/
theorem float_of_toFloat {v : Number} (h : toFloat v = ofRat q) :
    binary32.nearest q = q ∧ ¬q ≤ -2 ^ 128 ∧ ¬2 ^ 128 ≤ q := by
  have hexact : toFloat (ofRat q) = ofRat q := by
    rw [← h, toFloat_toFloat]
  exact Format.convert_eq_coe.mp (toFloat_eq_ofRat.mp hexact)

theorem toDouble_toFloat (v : Number) : toDouble (toFloat v) = toFloat v := by
  cases hrational : rational (toFloat v) with
  | none =>
    generalize toFloat v = f at hrational
    cases f with
    | none => rfl
    | some a =>
      induction a using WithBot.recBotCoe with
      | bot => rfl
      | coe a =>
        induction a using WithTop.recTopCoe with
        | top => rfl
        | coe a => cases hrational
  | some q =>
    have hvalue := eq_ofRat_of_rational hrational
    obtain ⟨hnearest, hlow, hhigh⟩ := float_of_toFloat hvalue
    rw [hvalue]
    rcases lt_trichotomy q 0 with hneg | rfl | hpos
    · have hopposite : toDouble (ofRat (-q)) = ofRat (-q) :=
        toDouble_float (neg_pos.mpr hneg) (by rw [Format.nearest_neg, hnearest]) (by linarith)
      simpa using toDouble_neg hopposite
    · exact toDouble_intCast (i := 0) (by decide)
    · exact toDouble_float hpos hnearest (not_le.mp hhigh)

/-- The float next to a double; what is too small for a float keeps its sign. -/
def Double.narrow (x : Double) : Double where
  value := toFloat x.value
  minusZero := x.isNegative && toFloat x.value = ofRat 0
  exact := toDouble_toFloat x.value
  zero h := of_decide_eq_true (Bool.and_eq_true_iff.mp h).2

/-! ## Round trip -/

theorem magnitude_word (hq : 0 ≤ q) (hexact : binary32.nearest q = q) (hlimit : q < 2 ^ 128) :
    magnitudeFloat (magnitudeWord q) = q ∧ magnitudeWord q / 2 ^ 23 < 255 := by
  rcases hq.eq_or_lt with rfl | hpos
  · decide +kernel
  · obtain ⟨m, hmultiple, hm, hsmall⟩ := float_eq hpos hexact
    have hunit : (2 : ℚ) ^ binary32.unit q ≠ 0 := (zpow_pos (by norm_num) _).ne'
    have hfloor : ⌊q / 2 ^ binary32.unit q⌋.toNat = m := by
      have hdiv : q / 2 ^ binary32.unit q = m := by rw [div_eq_iff hunit, ← hmultiple]
      rw [hdiv, Int.floor_natCast, Int.toNat_natCast]
    have hlow : -149 ≤ binary32.unit q := le_max_right _ _
    have hhigh : binary32.unit q ≤ 104 := by
      have hlog : Int.log 2 q < 128 := (Int.lt_zpow_iff_log_lt (by decide : 1 < 2) hpos).mp hlimit
      have hmax : binary32.unit q = max (Int.log 2 q - 23) (-149) := by
        rw [Format.unit, abs_of_pos hpos]
        rfl
      omega
    rw [magnitudeWord, hfloor]
    split
    · next hfew =>
      rw [magnitudeFloat, Nat.div_eq_of_lt hfew, if_pos rfl, Nat.mod_eq_of_lt hfew]
      refine ⟨?_, by norm_num⟩
      rw [← hsmall hfew, ← hmultiple]
    · next hmany =>
      obtain ⟨e, he⟩ := Int.eq_ofNat_of_zero_le (by omega : 0 ≤ binary32.unit q + 150)
      obtain ⟨f, rfl⟩ := Nat.exists_eq_add_of_le (not_lt.mp hmany)
      rw [he, Int.toNat_natCast, Nat.add_sub_cancel_left]
      have hdiv : (e * 2 ^ 23 + f) / 2 ^ 23 = e := by omega
      have hmod : (e * 2 ^ 23 + f) % 2 ^ 23 = f := by omega
      rw [magnitudeFloat, hdiv, hmod, if_neg (by omega)]
      refine ⟨?_, by omega⟩
      rw [← he, add_sub_cancel_right]
      exact_mod_cast hmultiple.symm

theorem convert_zero : binary32.convert (2 ^ 128) 0 = 0 := by decide +kernel

/-- Rounding stays on its side of zero. -/
theorem sign_of_toFloat {a b : Extended} (h : toFloat (some a) = some b) :
    (a < 0 → b ≤ 0) ∧ (0 ≤ a → 0 ≤ b) := by
  have hzero := convert_zero
  obtain rfl : binary32.convert (2 ^ 128) a = b := Option.some.inj h
  have hmono : Monotone (binary32.convert (2 ^ 128)) := Format.convert_mono _ _
  constructor
  · intro hneg
    exact (hmono hneg.le).trans_eq hzero
  · intro hnonneg
    exact hzero.symm.trans_le (hmono hnonneg)

/-- The sign of a number whose float is not zero. -/
theorem isNegative_eq {b : Extended} (h : toFloat x.value = some b) (hb : b ≠ 0) :
    x.isNegative = decide (b < 0) := by
  have hminus : x.minusZero = false := by
    by_contra hne
    have hvalue := x.zero (Bool.not_eq_false _ ▸ hne)
    rw [hvalue] at h
    exact hb ((Option.some.inj h).symm.trans convert_zero)
  cases hvalue : x.value with
  | none => rw [hvalue] at h; cases h
  | some a =>
    rw [hvalue] at h
    obtain ⟨hneg, hnonneg⟩ := sign_of_toFloat h
    rw [Double.isNegative, hminus, hvalue, Bool.false_or, Option.any_some, decide_eq_decide]
    constructor
    · intro ha
      exact lt_of_le_of_ne (hneg ha) hb
    · intro hb'
      by_contra ha
      exact absurd (hnonneg (not_lt.mp ha)) (not_le.mpr hb')

/-- The magnitude of a finite float is one too. -/
theorem magnitude_of_toFloat {v : Number} (hfloat : toFloat v = ofRat q) :
    magnitudeFloat (magnitudeWord |q|) = |q| ∧ magnitudeWord |q| / 2 ^ 23 < 255 := by
  obtain ⟨hnearest, hlow, hhigh⟩ := float_of_toFloat hfloat
  have habs : binary32.nearest |q| = |q| := by
    rcases abs_choice q with h | h
    · rw [h, hnearest]
    · rw [h, Format.nearest_neg, hnearest]
  exact magnitude_word (abs_nonneg q) habs (abs_lt.mpr ⟨not_le.mp hlow, not_le.mp hhigh⟩)

/-- A finite float is its sign and its magnitude. -/
theorem wordFloat_finite (hfloat : toFloat x.value = ofRat q) : wordFloat (floatWord x) = x.narrow := by
  obtain ⟨hmagnitude, hexponent⟩ := magnitude_of_toFloat hfloat
  have hword : floatWord x = (if x.isNegative then 2 ^ 31 else 0) + magnitudeWord |q| := by
    rw [floatWord, hfloat]
    rfl
  have hsplit : floatWord x % 2 ^ 31 = magnitudeWord |q| ∧
      decide (floatWord x / 2 ^ 31 % 2 = 1) = x.isNegative := by
    rw [hword]
    cases x.isNegative with
    | false => exact ⟨by simp; omega, by simp; omega⟩
    | true => exact ⟨by simp; omega, by simp; omega⟩
  have hvalue : ofRat (if x.isNegative then -|q| else |q|) = toFloat x.value := by
    rw [hfloat]
    by_cases hzero : q = 0
    · rw [hzero, abs_zero, neg_zero, ite_self]
    · have hsign := isNegative_eq (b := ((q : WithTop ℚ) : Extended)) hfloat (by exact_mod_cast hzero)
      have hcoe : ((q : WithTop ℚ) : Extended) < 0 ↔ q < 0 := by norm_cast
      rw [hsign]
      by_cases hneg : q < 0
      · rw [decide_eq_true (hcoe.mpr hneg), if_pos rfl, abs_of_neg hneg, neg_neg]
      · rw [decide_eq_false fun h => hneg (hcoe.mp h), if_neg Bool.false_ne_true,
          abs_of_nonneg (not_lt.mp hneg)]
  have hdouble : toDouble (ofRat (if x.isNegative then -|q| else |q|)) = toFloat x.value := by
    rw [hvalue, toDouble_toFloat]
  rw [wordFloat, hsplit.1, hsplit.2, if_pos hexponent, hmagnitude]
  ext1
  · exact hdouble
  · exact congrArg (fun v => x.isNegative && decide (v = ofRat 0)) hdouble

/-- A number that is stored without a value is read back so. -/
theorem narrow_eq_special {v : Number} {h : toDouble v = v} (hfloat : toFloat x.value = v)
    (hv : v ≠ ofRat 0) : special v h = x.narrow := by
  ext1
  · exact hfloat.symm
  · have hnarrow : x.narrow.minusZero = (x.isNegative && decide (toFloat x.value = ofRat 0)) := rfl
    rw [hnarrow, hfloat, decide_eq_false hv, Bool.and_false, special]

/-- What is stored is the float next to the number. -/
theorem wordFloat_floatWord (x : Double) : wordFloat (floatWord x) = x.narrow := by
  cases hfloat : toFloat x.value with
  | none =>
    have hword : floatWord x % 2 ^ 31 = 0x7fc00000 := by
      rw [floatWord, hfloat]
      split <;> rfl
    have hfraction : floatWord x % 2 ^ 23 ≠ 0 := by omega
    rw [wordFloat, hword, if_neg (by norm_num), if_neg hfraction]
    exact narrow_eq_special hfloat (by decide)
  | some b =>
    induction b using WithBot.recBotCoe with
    | bot =>
      have hsign : x.isNegative = true := isNegative_eq hfloat (by decide)
      rw [floatWord, hfloat, if_pos hsign]
      exact narrow_eq_special hfloat (by decide)
    | coe b =>
      induction b using WithTop.recTopCoe with
      | top =>
        have hsign : x.isNegative = false := isNegative_eq hfloat (by decide)
        rw [floatWord, hfloat, hsign]
        exact narrow_eq_special hfloat (by decide)
      | coe q => exact wordFloat_finite hfloat

/-- A word has thirty-two bits. -/
theorem floatWord_lt (x : Double) : floatWord x < 256 ^ 4 := by
  have hsign : (if x.isNegative then 2 ^ 31 else 0) ≤ 2 ^ 31 := by split <;> omega
  rw [floatWord]
  refine (Nat.add_lt_add_of_le_of_lt hsign (?_ : _ < 2 ^ 31)).trans_eq (by norm_num)
  cases hfloat : toFloat x.value with
  | none => decide
  | some b =>
    induction b using WithBot.recBotCoe with
    | bot => decide
    | coe b =>
      induction b using WithTop.recTopCoe with
      | top => decide
      | coe q =>
        have hexponent := (magnitude_of_toFloat hfloat).2
        show magnitudeWord |q| < 2 ^ 31
        omega

end JsonText
