import Bg3le.Library.Rounding
import Mathlib.Data.List.DropRight
import Mathlib.Data.List.Infix
import Mathlib.Data.List.TakeWhile
import Mathlib.Data.Nat.Digits.Defs

/-!
# Numbers as text

How C prints a number, with `%d` and `%.*g`, and how `strtod` reads one. A number is a
rational, an infinity or no number; zero has one sign.
-/

namespace NumberText

open Rounding

/-- A floating-point value, `none` where it is not a number. -/
abbrev Number := Option Extended

def binary32 : Format := ⟨2, 24, -149, by decide, by decide⟩

def binary64 : Format := ⟨2, 53, -1074, by decide, by decide⟩

/-- A value as a `float`. -/
def toFloat (x : Number) : Number := x.map (binary32.convert (2 ^ 128))

/-- A value as a `double`. -/
def toDouble (x : Number) : Number := x.map (binary64.convert (2 ^ 1024))

/-- Rounding to a float a second time changes nothing. -/
@[simp] theorem toFloat_toFloat (x : Number) : toFloat (toFloat x) = toFloat x := by
  cases x with
  | none => rfl
  | some x => exact congrArg some (binary32.convert_convert (2 ^ 128) x)

/-- Rounding to a double a second time changes nothing. -/
@[simp] theorem toDouble_toDouble (x : Number) : toDouble (toDouble x) = toDouble x := by
  cases x with
  | none => rfl
  | some x => exact congrArg some (binary64.convert_convert (2 ^ 1024) x)

/-- What a `float` holds. -/
@[ext] structure Single where
  value : Number
  exact : toFloat value = value
  deriving DecidableEq

def toSingle (x : Number) : Single := ⟨toFloat x, toFloat_toFloat x⟩

/-- A float read as a number and rounded again is itself. -/
@[simp] theorem toSingle_value (x : Single) : toSingle x.value = x := by
  cases x with
  | mk value exact => simp only [toSingle, exact]

/-- An exact value. -/
def ofRat (x : ℚ) : Number := some ((x : WithTop ℚ) : Extended)

/-- The rational that a value is. -/
def rational (x : Number) : Option ℚ :=
  x.bind (WithBot.recBotCoe none (WithTop.recTopCoe none some))

@[simp] theorem rational_ofRat (x : ℚ) : rational (ofRat x) = some x := rfl

/-! ## Characters -/

def lower (c : UInt8) : UInt8 := if 0x41 ≤ c ∧ c ≤ 0x5a then c + 0x20 else c

def isSpace (c : UInt8) : Bool := c = 0x20 ∨ (0x09 ≤ c ∧ c ≤ 0x0d)

/-- The characters that what `strtod` reads is made of. -/
def isToken (c : UInt8) : Bool :=
  (0x30 ≤ c ∧ c ≤ 0x39) ∨ (0x61 ≤ lower c ∧ lower c ≤ 0x7a) ∨ c = 0x2b ∨ c = 0x2d ∨ c = 0x2e

def digitOf (c : UInt8) : Option ℕ :=
  if 0x30 ≤ c ∧ c ≤ 0x39 then some (c.toNat - 0x30)
  else if 0x61 ≤ lower c ∧ lower c ≤ 0x66 then some ((lower c).toNat - 0x61 + 10)
  else none

/-! ## Reading -/

/-- The digits of a notation, the letter before its exponent, and what that is an exponent of. -/
structure Style where
  base : ℕ
  letter : UInt8
  scale : ℕ

def decimal : Style := ⟨10, 0x65, 10⟩

def hexadecimal : Style := ⟨16, 0x70, 2⟩

namespace Style

def isDigit (style : Style) (c : UInt8) : Bool := (digitOf c).any (· < style.base)

def value (style : Style) (digits : List UInt8) : ℕ :=
  digits.foldl (fun n c => n * style.base + (digitOf c).getD 0) 0

end Style

/-- Whether a minus sign is in front, and what is after the sign. -/
def signOf : List UInt8 → Bool × List UInt8
  | 0x2d :: rest => (true, rest)
  | 0x2b :: rest => (false, rest)
  | rest => (false, rest)

namespace Style

/-- The exponent that follows the digits; without digits of its own it is none. -/
def exponent (style : Style) : List UInt8 → ℤ
  | [] => 0
  | c :: rest =>
    if lower c = style.letter then
      let n : ℤ := decimal.value ((signOf rest).2.takeWhile decimal.isDigit)
      if (signOf rest).1 then -n else n
    else 0

/-- What the digits after a point are, and what follows. -/
def fraction (style : Style) : List UInt8 → List UInt8 × List UInt8
  | 0x2e :: rest => (rest.takeWhile style.isDigit, rest.dropWhile style.isDigit)
  | rest => ([], rest)

def magnitude (style : Style) (text : List UInt8) : Option ℚ :=
  let whole := text.takeWhile style.isDigit
  let (part, rest) := style.fraction (text.dropWhile style.isDigit)
  if whole ++ part = [] then none
  else some (style.value (whole ++ part) / (style.base : ℚ) ^ part.length *
    (style.scale : ℚ) ^ style.exponent rest)

end Style

/-- An unsigned number; `0x` alone is a zero. -/
def unsigned : List UInt8 → Option ℚ
  | 0x30 :: 0x78 :: rest => some ((hexadecimal.magnitude rest).getD 0)
  | 0x30 :: 0x58 :: rest => some ((hexadecimal.magnitude rest).getD 0)
  | text => decimal.magnitude text

/-- `strtod`: the number at the start of a text, if one is there. -/
def strtod (text : List UInt8) : Option Number :=
  let (negative, rest) := signOf ((text.dropWhile isSpace).takeWhile isToken)
  if [0x69, 0x6e, 0x66] <+: rest.map lower then some (some (if negative then ⊥ else ⊤))
  else if [0x6e, 0x61, 0x6e] <+: rest.map lower then some none
  else (unsigned rest).map fun x => toDouble (ofRat (if negative then -x else x))

/-! ## Printing -/

/-- The digits of a number. -/
def digits (n : ℕ) : List UInt8 :=
  if n = 0 then [0x30] else (Nat.digits 10 n).reverse.map fun d => 0x30 + d.toUInt8

/-- `%d`. -/
def formatD (i : ℤ) : List UInt8 := (if i < 0 then [0x2d] else []) ++ digits i.natAbs

/-- Digits after a point, without the zeros at the end. -/
def pointAnd (part : List UInt8) : List UInt8 :=
  let kept := part.rdropWhile (· = 0x30)
  if kept = [] then [] else 0x2e :: kept

/-- `%.*g` of a positive number that starts with these digits, the first of weight `10 ^ k`. -/
def formatDigits (precision : ℕ) (text : List UInt8) (k : ℤ) : List UInt8 :=
  if 0 ≤ k ∧ k < precision then text.take (k.toNat + 1) ++ pointAnd (text.drop (k.toNat + 1))
  else if -4 ≤ k ∧ k < 0 then 0x30 :: pointAnd (List.replicate ((-k).toNat - 1) 0x30 ++ text)
  else text.take 1 ++ pointAnd (text.drop 1) ++ 0x65 :: (if k < 0 then 0x2d else 0x2b) ::
    (if k.natAbs < 10 then 0x30 :: digits k.natAbs else digits k.natAbs)

def formatPositive (precision : ℕ) (x : ℚ) : List UInt8 :=
  let k := Int.log 10 x
  let n := (nearestEven (x / 10 ^ (k - (precision - 1)))).toNat
  -- nines may be rounded up to one more digit
  if n < 10 ^ precision then formatDigits precision (digits n) k
  else formatDigits precision (digits (n / 10)) (k + 1)

/-- `%.*g`. -/
def formatRat (precision : ℕ) (x : ℚ) : List UInt8 :=
  if x = 0 then [0x30]
  else if x < 0 then 0x2d :: formatPositive precision (-x)
  else formatPositive precision x

def formatG (precision : ℕ) : Number → List UInt8
  | none => [0x6e, 0x61, 0x6e]
  | some x => WithBot.recBotCoe [0x2d, 0x69, 0x6e, 0x66]
      (WithTop.recTopCoe [0x69, 0x6e, 0x66] (formatRat precision)) x

/-! ## What is printed -/

/-- The characters of a printed number. -/
def isPrinted (c : UInt8) : Bool :=
  (0x30 ≤ c ∧ c ≤ 0x39) ∨ [0x2b, 0x2d, 0x2e, 0x61, 0x65, 0x66, 0x69, 0x6e].contains c

theorem isToken_of_isPrinted {c : UInt8} (h : isPrinted c) : isToken c := by
  simp only [isPrinted, List.contains_cons, List.contains_nil, decide_eq_true_eq, Bool.or_eq_true,
    beq_iff_eq, Bool.false_eq_true, or_false] at h
  rcases h with h | rfl | rfl | rfl | rfl | rfl | rfl | rfl | rfl
  · simp [isToken, h]
  all_goals decide

/-- A reader that skips spaces stops at a token's first byte. -/
theorem not_isSpace_of_isToken {c : UInt8} (h : isToken c) : ¬ isSpace c := by
  simp only [isToken, lower, isSpace, decide_eq_true_eq] at h ⊢
  grind

/-- Every byte of the digits is between `0` and `9`. -/
theorem digit_of_mem {n : ℕ} {c : UInt8} (hc : c ∈ digits n) : 0x30 ≤ c ∧ c ≤ 0x39 := by
  have hdigit : ∀ d < 10, 0x30 ≤ (0x30 : UInt8) + d.toUInt8 ∧ 0x30 + d.toUInt8 ≤ 0x39 := by decide
  unfold digits at hc
  split_ifs at hc
  · rw [List.mem_singleton.mp hc]
    decide
  · obtain ⟨d, hd, rfl⟩ := List.mem_map.mp hc
    exact hdigit d (Nat.digits_lt_base (by decide) (List.mem_reverse.mp hd))

/-- Texts with the characters of printed numbers only. -/
def Printed (text : List UInt8) : Prop := ∀ c ∈ text, isPrinted c

theorem Printed.append {s t : List UInt8} (hs : Printed s) (ht : Printed t) : Printed (s ++ t) :=
  fun c hc => (List.mem_append.mp hc).elim (hs c) (ht c)

theorem Printed.cons {c : UInt8} {t : List UInt8} (hc : isPrinted c) (ht : Printed t) :
    Printed (c :: t) :=
  List.forall_mem_cons.mpr ⟨hc, ht⟩

theorem Printed.subset {s t : List UInt8} (hs : s ⊆ t) (ht : Printed t) : Printed s :=
  fun c hc => ht c (hs hc)

/-- The digits of a natural number are printed bytes. -/
theorem printed_digits (n : ℕ) : Printed (digits n) := fun c hc => by
  simp [isPrinted, digit_of_mem hc]

/-- `%d` writes printed bytes only. -/
theorem printed_formatD (i : ℤ) : Printed (formatD i) := by
  refine .append ?_ (printed_digits _)
  split_ifs
  · exact .cons rfl nofun
  · exact nofun

theorem printed_pointAnd {part : List UInt8} (h : Printed part) : Printed (pointAnd part) := by
  unfold pointAnd
  dsimp only
  split_ifs
  · exact nofun
  · exact .cons rfl (h.subset (List.rdropWhile_prefix _ part).subset)

theorem printed_formatDigits (precision : ℕ) {text : List UInt8} (h : Printed text) (k : ℤ) :
    Printed (formatDigits precision text k) := by
  unfold formatDigits
  have htake (n : ℕ) : Printed (text.take n) := h.subset (List.take_subset n text)
  have hdrop (n : ℕ) : Printed (text.drop n) := h.subset (List.drop_subset n text)
  split_ifs
  · exact (htake _).append (printed_pointAnd (hdrop _))
  · refine .cons rfl (printed_pointAnd (.append ?_ h))
    intro c hc
    rw [List.eq_of_mem_replicate hc]
    rfl
  · exact ((htake 1).append (printed_pointAnd (hdrop 1))).append
      (.cons rfl (.cons rfl (.cons rfl (printed_digits _))))
  · exact ((htake 1).append (printed_pointAnd (hdrop 1))).append
      (.cons rfl (.cons rfl (printed_digits _)))
  · exact ((htake 1).append (printed_pointAnd (hdrop 1))).append
      (.cons rfl (.cons rfl (.cons rfl (printed_digits _))))
  · exact ((htake 1).append (printed_pointAnd (hdrop 1))).append
      (.cons rfl (.cons rfl (printed_digits _)))

theorem printed_formatPositive (precision : ℕ) (x : ℚ) : Printed (formatPositive precision x) := by
  unfold formatPositive
  dsimp only
  split_ifs <;> exact printed_formatDigits precision (printed_digits _) _

theorem printed_formatRat (precision : ℕ) (x : ℚ) : Printed (formatRat precision x) := by
  unfold formatRat
  split_ifs
  · exact .cons rfl nofun
  · exact .cons rfl (printed_formatPositive precision _)
  · exact printed_formatPositive precision x

/-- `%g` writes printed bytes only, whatever the number. -/
theorem printed_formatG (precision : ℕ) (x : Number) : Printed (formatG precision x) := by
  cases x with
  | none => exact .cons rfl (.cons rfl (.cons rfl nofun))
  | some x =>
    induction x using WithBot.recBotCoe with
    | bot => exact .cons rfl (.cons rfl (.cons rfl (.cons rfl nofun)))
    | coe x =>
      induction x using WithTop.recTopCoe with
      | top => exact .cons rfl (.cons rfl (.cons rfl nofun))
      | coe x => exact printed_formatRat precision x

/-! ## What is read -/

variable {text rest : List UInt8} {c : UInt8}

/-- What follows the number is not looked at. -/
theorem strtod_append (hne : text ≠ []) (htext : ∀ c ∈ text, isToken c) (hc : ¬ isToken c) :
    strtod (text ++ c :: rest) = strtod text := by
  have hhead (more : List UInt8) : (text ++ more).dropWhile isSpace = text ++ more := by
    obtain ⟨b, tail, rfl⟩ := List.exists_cons_of_ne_nil hne
    exact List.dropWhile_cons_of_neg (not_isSpace_of_isToken (htext b List.mem_cons_self))
  have hall : text.takeWhile isToken = text := List.takeWhile_eq_self_iff.mpr htext
  have htoken : ((text ++ c :: rest).dropWhile isSpace).takeWhile isToken =
      (text.dropWhile isSpace).takeWhile isToken := by
    rw [hhead, ← List.append_nil text, hhead, List.append_nil, hall,
      List.takeWhile_append_of_pos htext, List.takeWhile_cons_of_neg hc, List.append_nil]
  unfold strtod
  rw [htoken]

theorem decimal_isDigit (h : 0x30 ≤ c ∧ c ≤ 0x39) : decimal.isDigit c := by
  have hlow := UInt8.le_iff_toNat_le.mp h.1
  have hhigh := UInt8.le_iff_toNat_le.mp h.2
  rw [Style.isDigit, digitOf, if_pos h, Option.any_some, decide_eq_true_eq]
  show c.toNat - 48 < 10
  change c.toNat ≤ 57 at hhigh
  omega

/-- Digits written last to first read back as their number in base ten. -/
theorem value_reverse {ds : List ℕ} (h : ∀ d ∈ ds, d < 10) :
    decimal.value (ds.reverse.map fun d => 0x30 + d.toUInt8) = Nat.ofDigits 10 ds := by
  have hdigit : ∀ d < 10, (digitOf (0x30 + d.toUInt8)).getD 0 = d := by decide
  induction ds with
  | nil => rfl
  | cons d ds ih =>
    have hlast := hdigit d (h d List.mem_cons_self)
    have hrest := ih fun e he => h e (List.mem_cons_of_mem d he)
    unfold Style.value at hrest ⊢
    rw [List.reverse_cons, List.map_append, List.foldl_append, hrest, List.map_singleton,
      List.foldl_cons, List.foldl_nil, hlast, Nat.ofDigits_cons, Nat.add_comm, Nat.mul_comm]
    rfl

/-- The digits of a natural number read back as it. -/
theorem value_digits (n : ℕ) : decimal.value (digits n) = n := by
  unfold digits
  split_ifs with hn
  · rw [hn]
    rfl
  · rw [value_reverse fun d hd => Nat.digits_lt_base (by decide) hd, Nat.ofDigits_digits]

theorem digits_ne_nil (n : ℕ) : digits n ≠ [] := by
  unfold digits
  split_ifs with hn
  · exact List.cons_ne_nil _ _
  · simpa [Nat.digits_ne_nil_iff_ne_zero] using hn

/-- The digits of a natural number, read as a magnitude. -/
theorem magnitude_digits (n : ℕ) : decimal.magnitude (digits n) = some (n : ℚ) := by
  have hdigit : ∀ c ∈ digits n, decimal.isDigit c := fun c hc => decimal_isDigit (digit_of_mem hc)
  unfold Style.magnitude
  rw [List.takeWhile_eq_self_iff.mpr hdigit, List.dropWhile_eq_nil_iff.mpr hdigit]
  simp [Style.fraction, Style.exponent, digits_ne_nil, value_digits]

/-- The digits of a natural number, read without a sign. -/
theorem unsigned_digits (n : ℕ) : unsigned (digits n) = some (n : ℚ) := by
  have hno : ∀ c ∈ digits n, c ≠ 0x78 ∧ c ≠ 0x58 := fun c hc => by
    have hdigit := digit_of_mem hc
    constructor <;> rintro rfl <;> exact absurd hdigit (by decide)
  unfold unsigned
  split
  · next h => exact absurd rfl (hno 0x78 (by simp [h])).1
  · next h => exact absurd rfl (hno 0x58 (by simp [h])).2
  · exact magnitude_digits n

/-- Digits start with no sign. -/
theorem signOf_digits (n : ℕ) : signOf (digits n) = (false, digits n) := by
  have hno : ∀ c ∈ digits n, c ≠ 0x2d := fun c hc => by
    have hdigit := digit_of_mem hc
    rintro rfl
    exact absurd hdigit (by decide)
  have hplus : ∀ c ∈ digits n, c ≠ 0x2b := fun c hc => by
    have hdigit := digit_of_mem hc
    rintro rfl
    exact absurd hdigit (by decide)
  unfold signOf
  split
  · next h => exact absurd rfl (hno 0x2d (by simp [h]))
  · next h => exact absurd rfl (hplus 0x2b (by simp [h]))
  · rfl

/-- No word stands where a digit does. -/
theorem not_prefix_digits (n : ℕ) {b : UInt8} {word : List UInt8} (hb : 0x61 ≤ b) :
    ¬ b :: word <+: (digits n).map lower := by
  obtain ⟨c, tail, hdigits⟩ := List.exists_cons_of_ne_nil (digits_ne_nil n)
  have hc := digit_of_mem (hdigits ▸ List.mem_cons_self : c ∈ digits n)
  rw [hdigits, List.map_cons, List.cons_prefix_cons]
  rintro ⟨rfl, -⟩
  unfold lower at hb
  grind

/-- An integer below `2 ^ 53` is a double. -/
theorem toDouble_intCast {i : ℤ} (hi : |i| < 2 ^ 53) : toDouble (ofRat i) = ofRat i := by
  have habs : |(i : ℚ)| < (2 : ℚ) ^ (53 : ℤ) := by exact_mod_cast hi
  have hlog : Int.log 2 |(i : ℚ)| < 53 := by
    rcases (abs_nonneg (i : ℚ)).eq_or_lt with hzero | hpos
    · rw [← hzero, Int.log_zero_right]
      decide
    · exact (Int.lt_zpow_iff_log_lt (by decide) hpos).mp habs
  have hunit : binary64.unit (i : ℚ) ≤ 0 := max_le (by show Int.log 2 _ - 52 ≤ 0; omega) (by decide)
  refine congrArg some (Format.convert_of_multiple binary64 (2 ^ 1024) (k := 0) (n := i) (by simp) hunit ?_)
  refine habs.trans ?_
  rw [← zpow_natCast]
  exact zpow_lt_zpow_right₀ (by norm_num) (by norm_num)

/-- What `%d` writes is a sign, for a negative integer, and the digits of its size. -/
theorem signOf_formatD (i : ℤ) : signOf (formatD i) = (decide (i < 0), digits i.natAbs) := by
  unfold formatD
  split_ifs with hneg
  · rw [decide_eq_true hneg]
    rfl
  · rw [decide_eq_false hneg, List.nil_append, signOf_digits]

/-- `%d` writes different integers differently. -/
theorem formatD_injective : Function.Injective formatD := by
  intro i j h
  have hsigns := congrArg signOf h
  rw [signOf_formatD, signOf_formatD, Prod.mk.injEq, decide_eq_decide] at hsigns
  have habs := congrArg decimal.value hsigns.2
  rw [value_digits, value_digits] at habs
  omega

/-- What `%d` writes of an integer below `2 ^ 53` reads back as it. -/
theorem strtod_formatD {i : ℤ} (hi : |i| < 2 ^ 53) : strtod (formatD i) = some (ofRat i) := by
  have htoken : ∀ c ∈ formatD i, isToken c := fun c hc => isToken_of_isPrinted (printed_formatD i c hc)
  have hspace : (formatD i).dropWhile isSpace = formatD i := by
    rw [List.dropWhile_eq_self_iff]
    exact fun _ => not_isSpace_of_isToken (htoken _ (List.getElem_mem _))
  unfold strtod
  rw [hspace, List.takeWhile_eq_self_iff.mpr htoken, signOf_formatD]
  dsimp only
  rw [if_neg (not_prefix_digits _ (by decide)), if_neg (not_prefix_digits _ (by decide)),
    unsigned_digits, Option.map_some]
  have hvalue : (if decide (i < 0) then -(i.natAbs : ℚ) else (i.natAbs : ℚ)) = i := by
    rw [Nat.cast_natAbs]
    split_ifs with hneg
    · rw [abs_of_neg (of_decide_eq_true hneg), Int.cast_neg, neg_neg]
    · rw [abs_of_nonneg (not_lt.mp fun h => hneg (decide_eq_true h))]
  rw [hvalue, toDouble_intCast hi]

end NumberText
