import Bg3le.Json.Stringify
import Bg3le.Library.JsonTextTheorems

/-!
# Floats in JSON

A float is written with as few of seventeen digits as find it again.
-/

namespace Bg3le
namespace Json

open NumberText JsonText

variable {a x : ℚ} {p n : ℕ} {k kk : ℤ} {ds whole tail : Bytes} {negative : Bool}

/-! ## The digits -/

theorem sciMatch_formatE (ha : 0 < a) :
    sciMatch (formatE p a) = some (digits (scientific (p + 1) a).1, (scientific (p + 1) a).2) := by
  obtain ⟨c, ds, hdigits, -, htext⟩ := exists_formatE (p := p) ha
  generalize (scientific (p + 1) a).2 = k at htext
  obtain ⟨sign, exp, hexp, hne, hall, hvalue, hsign⟩ := formatExponent_eq k
  have hds : ∀ c ∈ ds, decimal.isDigit c = true := fun c hc =>
    isDigit_digits c (hdigits ▸ List.mem_cons_of_mem _ hc)
  have hc : decimal.isDigit c = true := isDigit_digits c (hdigits ▸ List.mem_cons_self)
  obtain ⟨htake, hdrop⟩ := (noDigit_exponent (s := sign :: exp)).takeWhile hds
  rw [htext, hexp, hdigits, sciMatch]
  simp only [List.head?_cons, if_true, List.drop_one, List.tail_cons]
  rw [htake, hdrop]
  simp only
  rw [if_pos ⟨hc, hsign.imp And.left And.left, hne, List.all_eq_true.mpr hall⟩, hvalue]
  rcases hsign with ⟨rfl, hneg⟩ | ⟨rfl, hpos⟩
  · rw [if_pos rfl]
    congr 2
    omega
  · rw [if_neg (by decide)]
    congr 2
    omega

/-- The text that is tried last, or before, reads back. -/
theorem sci_reads (ha : 0 < a) (hexact : toDouble (ofRat a) = ofRat a) :
    ∃ p, sci a = formatE p a ∧ toDouble (ofRat ((scientific (p + 1) a).1 *
      (10 : ℚ) ^ ((scientific (p + 1) a).2 - p))) = ofRat a := by
  have hreads {p : ℕ} (h : strtod (formatE p a) = some (ofRat a)) : toDouble (ofRat
      ((scientific (p + 1) a).1 * (10 : ℚ) ^ ((scientific (p + 1) a).2 - p))) = ofRat a := by
    rw [strtod_formatE ha] at h
    exact Option.some.inj h
  unfold sci
  split
  · next h => exact ⟨14, rfl, hreads h⟩
  · split
    · next h => exact ⟨15, rfl, hreads h⟩
    · exact ⟨16, rfl, toDouble_scientific ha hexact⟩

/-- Digits of which the first is no zero. -/
structure Leading (ds : Bytes) : Prop where
  digits : ∀ c ∈ ds, decimal.isDigit c = true
  first : ∃ c rest, ds = c :: rest ∧ c ≠ 0x30

theorem leading_digits (hn : 0 < n) : Leading (digits n) := by
  refine ⟨isDigit_digits, ?_⟩
  obtain ⟨c, rest, hdigits⟩ := List.exists_cons_of_ne_nil (digits_ne_nil n)
  refine ⟨c, rest, hdigits, ?_⟩
  rintro rfl
  -- the first digit of a number is its last in `Nat.digits`
  have hne : Nat.digits 10 n ≠ [] := Nat.digits_ne_nil_iff_ne_zero.mpr hn.ne'
  have hhead := congrArg List.head? hdigits
  rw [digits, if_neg hn.ne', List.head?_map, List.head?_reverse,
    List.getLast?_eq_some_getLast hne, List.head?_cons, Option.map_some, Option.some_inj] at hhead
  have hlast := Nat.getLast_digit_ne_zero 10 hn.ne'
  have hlt := Nat.digits_lt_base (by decide : 1 < 10) (List.getLast_mem hne)
  generalize (Nat.digits 10 n).getLast hne = d at hhead hlast hlt
  interval_cases d <;> first | exact hlast rfl | exact absurd hhead (by decide)

/-- Without the zeros at its end, a number is its digits with a smaller weight. -/
theorem exists_stripped (hn : 0 < n) (hlength : (digits n).length = p + 1) :
    ∃ ds, (digits n).rdropWhile (· = 0x30) = ds ∧ Leading ds ∧
      (n : ℚ) * (10 : ℚ) ^ (k - p) = decimal.value ds * (10 : ℚ) ^ (k + 1 - ds.length) := by
  have hsplit : (digits n).rdropWhile (· = 0x30) ++ (digits n).rtakeWhile (· = 0x30) = digits n :=
    List.rdropWhile_append_rtakeWhile ..
  have hzeros : (digits n).rtakeWhile (· = 0x30) =
      List.replicate ((digits n).rtakeWhile (· = 0x30)).length 0x30 :=
    List.eq_replicate_iff.mpr ⟨rfl, fun c hc => by simpa using List.mem_rtakeWhile_imp hc⟩
  generalize ((digits n).rtakeWhile (· = 0x30)).length = j at hzeros
  generalize (digits n).rdropWhile (· = 0x30) = ds at hsplit
  rw [hzeros] at hsplit
  have hleading := leading_digits hn
  obtain ⟨c, rest, hfirst, hc⟩ := hleading.first
  have hvalue : n = decimal.value ds * 10 ^ j := by
    have heq := value_append ds (List.replicate j 0x30)
    rw [hsplit, value_digits, value_zeros, List.length_replicate, Nat.add_zero] at heq
    exact heq
  have hsum : ds.length + j = p + 1 := by
    rw [← hlength, ← hsplit, List.length_append, List.length_replicate]
  refine ⟨ds, rfl, ⟨fun c hc => hleading.digits c (hsplit ▸ List.mem_append_left _ hc), ?_⟩, ?_⟩
  · cases ds with
    | nil =>
      rw [hvalue] at hn
      exact absurd hn (by simp [Style.value])
    | cons c' ds =>
      rw [← hsplit, List.cons_append] at hfirst
      exact ⟨c', ds, rfl, (List.cons.inj hfirst).1 ▸ hc⟩
  · have hweight : k + 1 - (ds.length : ℤ) = (k - p) + j := by omega
    rw [hvalue, hweight, zpow_add₀ (by norm_num), zpow_natCast]
    push_cast
    ring

/-! ## The layout -/

/-- A text that is read as a double. -/
structure ReadsAs (text : Bytes) (x : ℚ) : Prop where
  positive : numberOf text = some (.double (doubleOf false x))
  negative : numberOf (0x2d :: text) = some (.double (doubleOf true x))

theorem readsAs_of (hwhole : isWhole whole = true) (hdigits : ∀ c ∈ whole, decimal.isDigit c = true)
    (hrest : NoDigit tail) (htail : isTail tail = true)
    (hmagnitude : decimal.magnitude (whole ++ tail) = some x) : ReadsAs (whole ++ tail) x := by
  obtain ⟨htake, hdrop⟩ := hrest.takeWhile hdigits
  have hne : tail.isEmpty = false := by
    cases tail with
    | nil => exact absurd htail (by decide)
    | cons c tail => rfl
  have hread {text : Bytes} {negative : Bool} (hminus : minusOf text = (negative, whole ++ tail)) :
      numberOf text = some (.double (doubleOf negative x)) := by
    unfold numberOf
    rw [hminus]
    simp only
    rw [htake, hdrop, hwhole, hne, htail, hmagnitude]
    rfl
  refine ⟨hread ?_, hread rfl⟩
  cases whole with
  | nil => exact absurd hwhole (by decide)
  | cons c whole =>
    have hc : c ≠ 0x2d := by
      rintro rfl
      exact absurd (hdigits 0x2d List.mem_cons_self) (by decide)
    rw [List.cons_append, minusOf, if_neg hc]

theorem Leading.isWhole (h : Leading ds) (zeros : Bytes)
    (hzeros : ∀ c ∈ zeros, decimal.isDigit c = true) : JsonText.isWhole (ds ++ zeros) = true := by
  obtain ⟨c, rest, rfl, hc⟩ := h.first
  have hall : ∀ c' ∈ c :: (rest ++ zeros), decimal.isDigit c' = true := by
    intro c' hc'
    rw [← List.cons_append] at hc'
    exact (List.mem_append.mp hc').elim (h.digits c') (hzeros c')
  have hfirst : (c != 0x30) = true := bne_iff_ne.mpr hc
  rw [List.cons_append, JsonText.isWhole, List.all_eq_true.mpr hall, hfirst]
  rfl

theorem isExponent_formatD (k : ℤ) : isExponent (0x65 :: formatD k) = true := by
  rw [isExponent, signOf_formatD]
  simp only
  rw [List.all_eq_true.mpr isDigit_digits, Bool.and_true]
  have hne := digits_ne_nil k.natAbs
  cases hdigits : digits k.natAbs with
  | nil => exact absurd hdigits hne
  | cons c rest => rfl

/-- A point, some digits, and what follows. -/
theorem isTail_point {part rest : Bytes} (hpart : ∀ c ∈ part, decimal.isDigit c = true) (hne : part ≠ [])
    (hrest : NoDigit rest) (hexponent : rest = [] ∨ isExponent rest = true) :
    isTail (0x2e :: (part ++ rest)) = true := by
  obtain ⟨htake, hdrop⟩ := hrest.takeWhile hpart
  rw [isTail, if_pos rfl, htake, hdrop, Bool.and_eq_true, Bool.or_eq_true]
  refine ⟨?_, hexponent.imp (fun h => by rw [h]; rfl) id⟩
  cases part with
  | nil => exact absurd rfl hne
  | cons c part => rfl

theorem noDigit_point {rest : Bytes} : NoDigit (0x2e :: rest) := by
  rintro c ⟨⟩
  decide

theorem noDigit_nil : NoDigit [] := fun _ h => nomatch h

theorem isDigit_zeros (j : ℕ) : ∀ c ∈ List.replicate j (0x30 : UInt8), decimal.isDigit c = true := by
  intro c hc
  rw [List.eq_of_mem_replicate hc]
  decide

theorem Leading.take (h : Leading ds) {j : ℕ} (hj : 0 < j) : Leading (ds.take j) := by
  obtain ⟨c, rest, hds, hc⟩ := h.first
  obtain ⟨j, rfl⟩ := Nat.exists_eq_succ_of_ne_zero hj.ne'
  exact ⟨fun c hc => h.digits c (List.mem_of_mem_take hc), c, rest.take j, by rw [hds]; rfl, hc⟩

theorem Leading.ne_nil (h : Leading ds) : ds ≠ [] := by
  obtain ⟨c, rest, hds, -⟩ := h.first
  exact hds ▸ List.cons_ne_nil c rest

/-- Digits with a point among them. -/
theorem readsAs_point (whole part rest : Bytes) (hwhole : isWhole whole = true)
    (hdigits : ∀ c ∈ whole, decimal.isDigit c = true) (hpart : ∀ c ∈ part, decimal.isDigit c = true)
    (hne : part ≠ []) (hrest : NoDigit rest) (hexponent : rest = [] ∨ isExponent rest = true) :
    ReadsAs (whole ++ 0x2e :: (part ++ rest)) (decimal.value (whole ++ part) /
      (10 : ℚ) ^ part.length * (10 : ℚ) ^ decimal.exponent rest) := by
  have hne' : whole ≠ [] := by
    rintro rfl
    exact absurd hwhole (by decide)
  exact readsAs_of hwhole hdigits noDigit_point (isTail_point hpart hne hrest hexponent)
    (magnitude_point hdigits hne' hpart hrest)

theorem bytes_point : bytes ".0" = [0x2e, 0x30] := by decide

/-- Wherever the point goes, the text is read as the digits with their weight. -/
theorem layout_reads (h : Leading ds) (kk : ℤ) :
    ReadsAs (layout ds kk) (decimal.value ds * (10 : ℚ) ^ (kk - ds.length)) := by
  have hlength : 0 < ds.length := List.length_pos_of_ne_nil h.ne_nil
  have hpart {j : ℕ} : ∀ c ∈ ds.drop j, decimal.isDigit c = true := fun c hc =>
    h.digits c (List.mem_of_mem_drop hc)
  have hten {j : ℕ} : (10 : ℚ) ^ j ≠ 0 := by positivity
  unfold layout
  split
  · next hbig =>
    -- zeros behind the digits, and one behind the point
    generalize hj : kk.toNat - ds.length = j
    have hzeros := isDigit_zeros j
    have hreads := readsAs_point _ [0x30] [] (h.isWhole _ hzeros)
      (fun c hc => (List.mem_append.mp hc).elim (h.digits c) (hzeros c)) (isDigit_zeros 1) (by decide)
      noDigit_nil (.inl rfl)
    have hvalue : decimal.value [0x30] = 0 := rfl
    rw [value_append, value_append, value_zeros, hvalue, List.length_replicate, Style.exponent] at hreads
    have hkk : kk - ds.length = j := by omega
    rw [hkk, zpow_natCast]
    convert hreads using 1
    · rw [bytes_point]
      rfl
    · push_cast
      rw [List.length_singleton]
      field_simp
      simp
  · next hbig =>
    split
    · next hmiddle =>
      have hreads := readsAs_point _ (ds.drop kk.toNat) []
        ((h.take (j := kk.toNat) (by omega)).isWhole [] (isDigit_zeros 0))
        (by rw [List.append_nil]; exact (h.take (by omega)).digits) hpart
        (by rw [ne_eq, List.drop_eq_nil_iff]; omega) noDigit_nil (.inl rfl)
      rw [List.append_nil, List.append_nil, List.take_append_drop, List.length_drop,
        Style.exponent] at hreads
      have hkk : kk - ds.length = -((ds.length - kk.toNat : ℕ) : ℤ) := by omega
      rw [hkk, zpow_neg, zpow_natCast, ← div_eq_mul_inv]
      convert hreads using 1
      simp
    · split
      · next hsmall =>
        have hreads := readsAs_point [0x30] (List.replicate (-kk).toNat 0x30 ++ ds) []
          (by decide) (isDigit_zeros 1)
          (fun c hc => (List.mem_append.mp hc).elim (isDigit_zeros _ c) (h.digits c))
          (List.append_ne_nil_of_right_ne_nil _ h.ne_nil) noDigit_nil (.inl rfl)
        have hvalue : decimal.value [0x30] = 0 := rfl
        rw [List.append_nil, value_append, value_append, value_zeros, hvalue, List.length_append,
          List.length_replicate, Style.exponent] at hreads
        have hkk : kk - ds.length = -(((-kk).toNat + ds.length : ℕ) : ℤ) := by omega
        rw [hkk, zpow_neg, zpow_natCast, ← div_eq_mul_inv]
        convert hreads using 1
        · rw [List.append_assoc]
          rfl
        · simp
      · split
        · next hone =>
          have hreads := readsAs_of (List.append_nil ds ▸ h.isWhole [] (isDigit_zeros 0)) h.digits
            (noDigit_exponent (s := formatD (kk - 1))) (isExponent_formatD _)
            (magnitude_whole h.digits h.ne_nil noDigit_exponent (by simp))
          rw [exponent_formatD] at hreads
          rw [hone]
          exact hreads
        · next hmore =>
          have hreads := readsAs_point _ (ds.drop 1) _ ((h.take Nat.one_pos).isWhole [] (isDigit_zeros 0))
            (by rw [List.append_nil]; exact (h.take Nat.one_pos).digits) hpart
            (by rw [ne_eq, List.drop_eq_nil_iff]; omega) (noDigit_exponent (s := formatD (kk - 1)))
            (.inr (isExponent_formatD _))
          rw [List.append_nil, List.take_append_drop, List.length_drop, exponent_formatD] at hreads
          have hkk : kk - ds.length = -((ds.length - 1 : ℕ) : ℤ) + (kk - 1) := by omega
          rw [hkk, zpow_add₀ (by norm_num), zpow_neg, zpow_natCast, ← mul_assoc, ← div_eq_mul_inv]
          exact hreads

/-! ## Floats -/

theorem jsonPositive_reads (ha : 0 < a) (hexact : toDouble (ofRat a) = ofRat a) :
    ∃ r, ReadsAs (jsonPositive a) r ∧ toDouble (ofRat r) = ofRat a := by
  obtain ⟨p, hsci, hreads⟩ := sci_reads ha hexact
  obtain ⟨hlow, hhigh, -⟩ := scientific_spec ha (Nat.succ_pos p)
  have hmatch := sciMatch_formatE (p := p) ha
  generalize (scientific (p + 1) a).1 = n at hreads hlow hhigh hmatch
  generalize (scientific (p + 1) a).2 = k at hreads hmatch
  rw [Nat.succ_sub_one] at hlow
  have hn : 0 < n := (Nat.pow_pos (by decide)).trans_le hlow
  obtain ⟨ds, hds, hleading, hvalue⟩ := exists_stripped (k := k) hn (length_digits hlow hhigh)
  rw [hvalue] at hreads
  refine ⟨_, ?_, hreads⟩
  unfold jsonPositive
  rw [hsci, hmatch]
  simp only
  rw [hds]
  exact layout_reads hleading (k + 1)

/-- What is read next to a double, with its sign, is the double. -/
theorem doubleOf_eq {v : Double} (hread : toDouble (ofRat x) = ofRat a)
    (hvalue : v.value = ofRat (if negative then -a else a))
    (hzero : v.minusZero = (negative && a = 0)) : doubleOf negative x = v := by
  have hsigned : toDouble (ofRat (if negative then -x else x)) = ofRat (if negative then -a else a) := by
    cases negative with
    | false => exact hread
    | true => exact toDouble_neg hread
  refine Double.ext (hsigned.trans hvalue.symm) ?_
  show (negative && _) = _
  rw [hzero, hsigned]
  cases negative with
  | false => rfl
  | true =>
    rw [Bool.true_and, Bool.true_and, decide_eq_decide]
    constructor
    · intro h
      simpa using ofRat_inj h
    · intro h
      rw [h]
      rfl

/-- A float with a value is found again from its text, in every bit. -/
theorem numberOf_jsonFloat (v : Double) (hx : rational v.value = some x) :
    numberOf (jsonFloat v) = some (.double v) := by
  have hvalue : v.value = ofRat x := eq_ofRat_of_rational hx
  have hexact : toDouble (ofRat x) = ofRat x := hvalue ▸ v.exact
  unfold jsonFloat
  rw [hx]
  simp only
  by_cases hzero : x = 0
  · subst hzero
    have hreads := readsAs_point [0x30] [0x30] [] (by decide) (isDigit_zeros 1)
      (isDigit_zeros 1) (by decide) noDigit_nil (.inl rfl)
    have hnone : decimal.value ([0x30] ++ [0x30]) = 0 := rfl
    rw [hnone, Nat.cast_zero, zero_div, zero_mul] at hreads
    rw [if_pos rfl]
    cases hsign : v.minusZero with
    | true =>
      have htext : (if true = true then bytes "-0.0" else bytes "0.0") =
          0x2d :: ([0x30] ++ 0x2e :: ([0x30] ++ [])) := by decide
      rw [htext, hreads.negative, doubleOf_eq hexact (by simpa using hvalue) (by simpa using hsign)]
    | false =>
      have htext : (if false = true then bytes "-0.0" else bytes "0.0") =
          [0x30] ++ 0x2e :: ([0x30] ++ []) := by decide
      rw [htext, hreads.positive, doubleOf_eq hexact (by simpa using hvalue) (by simpa using hsign)]
  · rw [if_neg hzero]
    have hsign : v.minusZero = false := by
      by_contra hminus
      exact hzero (ofRat_inj (hvalue.symm.trans (v.zero (eq_true_of_ne_false hminus))))
    split
    · next hneg =>
      have hnegated : toDouble (ofRat (-x)) = ofRat (-x) := toDouble_neg hexact
      obtain ⟨r, hreads, hr⟩ := jsonPositive_reads (neg_pos.mpr hneg) hnegated
      rw [hreads.negative, doubleOf_eq hr (by simpa using hvalue) (by simpa [hzero] using hsign)]
    · next hneg =>
      have hpos : 0 < x := lt_of_le_of_ne (not_lt.mp hneg) (Ne.symm hzero)
      obtain ⟨r, hreads, hr⟩ := jsonPositive_reads hpos hexact
      rw [hreads.positive, doubleOf_eq hr (by simpa using hvalue) (by simpa using hsign)]

/-- NaN and the infinities are not kept. -/
theorem jsonFloat_null (v : Double) (hx : rational v.value = none) : jsonFloat v = bytes "null" := by
  unfold jsonFloat
  rw [hx]

theorem text_jsonFloat (v : Double) :
    Text (if (rational v.value).isSome then .double v else .null) (jsonFloat v) := by
  cases hx : rational v.value with
  | none => exact jsonFloat_null v hx ▸ Text.null
  | some x => exact Text.number (numberOf_jsonFloat v hx)

/-- What is read of a float's text is the float, with the sign of a zero. -/
theorem read_jsonFloat (v : Double) :
    read (jsonFloat v) = some (if (rational v.value).isSome then .double v else .null) := by
  have hread := read_text blank_nil (text_jsonFloat v) blank_nil
  rwa [List.append_nil, List.nil_append] at hread

end Json
end Bg3le
