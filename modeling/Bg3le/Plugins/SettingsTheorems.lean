import Bg3le.Library.Separator
import Bg3le.Plugins.Settings
import Mathlib.Order.WithBot

/-!
# Settings over a restart

A setting whose value came from a number that it takes gets the same value from the number that
its text says. The reader pairs the ids with the numbers as they were written, except for an id
with a quote in it: the reader never sees that one.
-/

namespace Bg3le
namespace Plugins

open NumberText Rounding

variable {s t : Setting} {settings : List Setting} {v d : Number} {id : Bytes}

/-! ## Numbers into a range -/

/-- `std::clamp` of what is a number. -/
def into (low high x : Extended) : Extended := if x < low then low else if high < x then high else x

section

variable {low high x y : Extended}

/-- Between two ends, `clamp` moves a number into them. -/
theorem clamp_some : clamp (some x) (some low) (some high) = some (into low high x) := by
  simp only [clamp, less, into, decide_eq_true_eq]
  split_ifs <;> rfl

/-- It is not below the lower end. -/
theorem low_le_into (h : low ≤ high) : low ≤ into low high x := by
  unfold into
  split_ifs with hlow hhigh
  · exact le_rfl
  · exact h
  · exact not_lt.mp hlow

/-- Nor above the upper one. -/
theorem into_le_high (h : low ≤ high) : into low high x ≤ high := by
  unfold into
  split_ifs with hlow hhigh
  · exact h
  · exact le_rfl
  · exact not_lt.mp hhigh

/-- Rounded to the same as something in the range, it is still when brought into the range. -/
theorem round_into {β : Type*} [PartialOrder β] {r : Extended → β} (hr : Monotone r)
    (h : low ≤ high) (hsame : r y = r (into low high x)) :
    r (into low high y) = r (into low high x) := by
  nth_rewrite 1 [into]
  split_ifs with hlow hhigh
  · exact le_antisymm (hr (low_le_into h)) (hsame ▸ hr hlow.le)
  · exact le_antisymm (hsame ▸ hr hhigh.le) (hr (into_le_high h))
  · exact hsame

/-- A number within the ends stays. -/
theorem into_into (h : low ≤ high) : into low high (into low high x) = into low high x :=
  round_into (r := id) monotone_id h rfl

end

/-- A range that counts has two ends. -/
theorem exists_range (h : less s.min s.max = true) : ∃ low high : Extended,
    s.min = some low ∧ s.max = some high ∧ low < high := by
  unfold less at h
  split at h
  · next low high hmin hmax => exact ⟨low, high, hmin, hmax, of_decide_eq_true h⟩
  · exact absurd h Bool.false_ne_true

/-- What a setting makes of a number that is one. -/
theorem clamped_cases (s : Setting) :
    (less s.min s.max = false ∧ ∀ v, s.clamped v = v) ∨
      (less s.min s.max = true ∧ ∃ low high : Extended, s.min = some low ∧ s.max = some high ∧
        low ≤ high ∧ ∀ v : Number, s.clamped v = v.map (into low high)) := by
  unfold Setting.clamped
  cases hrange : less s.min s.max with
  | false => exact .inl ⟨rfl, fun _ => rfl⟩
  | true =>
    obtain ⟨low, high, hmin, hmax, hlt⟩ := exists_range hrange
    refine .inr ⟨rfl, low, high, hmin, hmax, hlt.le, fun v => ?_⟩
    rw [if_pos rfl, hmin, hmax]
    cases v with
    | none => rfl
    | some x => exact clamp_some

/-- Clamping twice is clamping once. -/
theorem clamped_clamped (s : Setting) (v : Number) : s.clamped (s.clamped v) = s.clamped v := by
  rcases clamped_cases s with ⟨-, hall⟩ | ⟨-, low, high, -, -, hle, hinto⟩
  · rw [hall]
  · rw [hinto, hinto, Option.map_map]
    exact congrArg (Option.map · v) (funext fun _ => into_into hle)

/-! ## Numbers that a setting takes -/

/-- The number that is written has a rounding within the range, as far as the range is not
outside the type: the variable of a bool is 1 only if 0 is not the largest number, and the
variable of an int holds the rounding. -/
def Setting.Takes (s : Setting) (v : Number) : Prop :=
  less s.min s.max = true →
    match s.value with
    | .bool _ => s.max = ofRat 0 → s.clamped v = ofRat 0
    | .int _ => ∃ x, s.clamped v = ofRat x ∧ -2 ^ 31 ≤ nearestAway x ∧ nearestAway x < 2 ^ 31
    | .float _ => True

/-- The value is within the range, and 0 or 1 for a bool. -/
def Setting.Within (s : Setting) : Prop :=
  (∀ i, s.value = .bool i → i = 0 ∨ i = 1) ∧
    (less s.min s.max = true → readValue s ≠ none ∧
      less (readValue s) s.min = false ∧ less s.max (readValue s) = false)

/-- The text of a float reads back as the float. -/
def Setting.ReadsBack (s : Setting) : Prop :=
  ∀ x, s.value = .float x → (strtod (formatG 9 x.value)).map toSingle = some x

/-- The value is one that writing leaves. -/
def Setting.Held (s : Setting) : Prop := ∃ v, s.Takes v ∧ writeValue s v = s

/-- The value written last counts. -/
@[simp] theorem writeValue_writeValue (s : Setting) (v w : Number) :
    writeValue (writeValue s v) w = writeValue s w := by
  cases s with
  | mk id value min max => cases value <;> rfl

/-- A value that a setting takes is held by it. -/
theorem held_writeValue (h : s.Takes v) : (writeValue s v).Held := by
  refine ⟨v, ?_, writeValue_writeValue s v v⟩
  cases s with
  | mk id value min max => cases value <;> exact h

/-- `lroundf` gives the nearest integer, the halves away from zero. -/
theorem lround_ofRat {x : ℚ} (hlow : -2 ^ 31 ≤ nearestAway x) (hhigh : nearestAway x < 2 ^ 31) :
    (lround (ofRat x)).toInt = nearestAway x := by
  unfold lround
  rw [rational_ofRat]
  dsimp only
  rw [if_pos (by omega), Int32.toInt_ofInt_of_le hlow hhigh]

/-- An integer is its own. -/
theorem lround_intCast (i : Int32) : lround (ofRat i.toInt) = i := by
  have hlow := i.minValue_le_toInt
  have hhigh := i.toInt_lt
  rw [← Int32.toInt_inj, lround_ofRat] <;> rw [nearestAway_intCast]
  · exact hlow
  · exact hhigh

/-- A value within the range is not clamped. -/
theorem clamped_of_within (h : s.Within) : s.clamped (readValue s) = readValue s := by
  rcases clamped_cases s with ⟨-, hall⟩ | ⟨hrange, low, high, hmin, hmax, -, hinto⟩
  · exact hall _
  · obtain ⟨hsome, hlow, hhigh⟩ := h.2 hrange
    obtain ⟨x, hx⟩ := Option.ne_none_iff_exists'.mp hsome
    rw [hx, hmin] at hlow
    rw [hx, hmax] at hhigh
    rw [hinto, hx, Option.map_some, into, if_neg (of_decide_eq_false hlow),
      if_neg (of_decide_eq_false hhigh)]

/-- So it is held. -/
theorem held_of_within (h : s.Within) : s.Held := by
  have hclamped := clamped_of_within h
  obtain ⟨hbool, hrange⟩ := h
  cases s with
  | mk id value min max =>
    cases value with
    | bool i =>
      refine ⟨ofRat i.toInt, fun hless hmax => ?_, ?_⟩
      · rw [show Setting.clamped _ (ofRat i.toInt) = ofRat i.toInt from hclamped]
        rcases hbool i rfl with rfl | rfl
        · rfl
        · -- 1 is above the largest number
          obtain ⟨-, -, hhigh⟩ := hrange hless
          rw [hmax] at hhigh
          exact absurd (show less (ofRat 0) (ofRat 1) = false from hhigh) (by decide)
      · unfold writeValue
        rw [show Setting.clamped _ (ofRat i.toInt) = ofRat i.toInt from hclamped]
        rcases hbool i rfl with rfl | rfl <;> rfl
    | int i =>
      refine ⟨ofRat i.toInt, fun _ => ⟨i.toInt, hclamped, ?_⟩, ?_⟩
      · rw [nearestAway_intCast]
        exact ⟨i.minValue_le_toInt, i.toInt_lt⟩
      · unfold writeValue
        rw [show Setting.clamped _ (ofRat i.toInt) = ofRat i.toInt from hclamped]
        dsimp only
        rw [lround_intCast]
    | float x =>
      refine ⟨x.value, fun _ => trivial, ?_⟩
      unfold writeValue
      rw [show Setting.clamped _ x.value = x.value from hclamped]
      dsimp only
      rw [toSingle_value]

/-- The number that the text of the value says. -/
def numberOf (s : Setting) : Option Number :=
  match s.value with
  | .bool i => some (ofRat (if i = 0 then 0 else 1))
  | .int i => some (ofRat i.toInt)
  | .float x => strtod (formatG 9 x.value)

/-- A bool that was not cleared is not cleared by the number 1. -/
theorem clamped_one (hmax : less s.min s.max = true → s.max = ofRat 0 → s.clamped v = ofRat 0)
    (hset : s.clamped v ≠ ofRat 0) : s.clamped (ofRat 1) ≠ ofRat 0 := by
  rcases clamped_cases s with ⟨-, hall⟩ | ⟨hrange, low, high, hmin, hhigh, -, hinto⟩
  · rw [hall]
    decide
  · rw [hinto]
    intro heq
    have heq : into low high ((1 : ℚ) : WithTop ℚ) = ((0 : ℚ) : WithTop ℚ) := Option.some.inj heq
    unfold into at heq
    split_ifs at heq with hone hone'
    · rw [heq] at hone
      exact absurd hone (by decide)
    · exact hset (hmax hrange (hhigh.trans (congrArg some heq)))
    · exact absurd heq (by decide)

theorem rounded_eq {x : Extended} {y : ℚ}
    (h : x.map (WithTop.map nearestAway) =
      WithBot.map (WithTop.map nearestAway) ((y : WithTop ℚ) : Extended)) :
    ∃ z : ℚ, x = ((z : WithTop ℚ) : Extended) ∧ nearestAway z = nearestAway y := by
  induction x using WithBot.recBotCoe with
  | bot => exact absurd h (WithBot.bot_ne_coe)
  | coe x =>
    have h := WithBot.coe_injective h
    induction x using WithTop.recTopCoe with
    | top => exact absurd h WithTop.top_ne_coe
    | coe z => exact ⟨z, rfl, WithTop.coe_injective h⟩

/-- The rounding that an int holds, brought into the range, is rounded to itself. -/
theorem lround_clamped (hrange : less s.min s.max = true → ∃ x, s.clamped v = ofRat x ∧
      -2 ^ 31 ≤ nearestAway x ∧ nearestAway x < 2 ^ 31) :
    lround (s.clamped (ofRat (lround (s.clamped v)).toInt)) = lround (s.clamped v) := by
  rcases clamped_cases s with ⟨-, hall⟩ | ⟨hless, low, high, -, -, hle, hinto⟩
  · rw [hall, hall, lround_intCast]
  · obtain ⟨x, hx, hlow, hhigh⟩ := hrange hless
    have hround := lround_ofRat hlow hhigh
    rw [hx, hround, hinto]
    rw [hinto] at hx
    obtain ⟨y, rfl, hy⟩ := Option.map_eq_some_iff.mp hx
    -- the integers with infinities, where rounding is monotone throughout
    have hmono : Monotone (WithBot.map (WithTop.map nearestAway)) :=
      nearestAway_mono.withTop_map.withBot_map
    have hsame := round_into (x := y) (y := ((nearestAway x : ℚ) : WithTop ℚ)) hmono hle (by
      rw [hy]
      show ((nearestAway (nearestAway x : ℚ) : WithTop ℤ) : WithBot (WithTop ℤ)) = _
      rw [nearestAway_intCast]
      rfl)
    rw [hy] at hsame
    obtain ⟨z, hz, hround'⟩ := rounded_eq hsame
    rw [show Option.map (into low high) (ofRat (nearestAway x : ℚ)) = ofRat z from congrArg some hz,
      ← Int32.toInt_inj, lround_ofRat (hround' ▸ hlow) (hround' ▸ hhigh), hround', hround]

theorem toSingle_clamped (hsame : toSingle d = toSingle (s.clamped v)) :
    toSingle (s.clamped d) = toSingle (s.clamped v) := by
  rcases clamped_cases s with ⟨-, hall⟩ | ⟨-, low, high, -, -, hle, hinto⟩
  · rwa [hall]
  · rw [hinto] at hsame ⊢
    rw [hinto]
    have hvalue := congrArg Single.value hsame
    rw [Single.ext_iff]
    cases d with
    | none =>
      cases v with
      | none => rfl
      | some x => exact absurd hvalue (Option.some_ne_none _).symm
    | some y =>
      cases v with
      | none => exact absurd hvalue (Option.some_ne_none _)
      | some x =>
        exact congrArg some (round_into (binary32.convert_mono _) hle (Option.some.inj hvalue))

/-- A setting that reads back is as it was after its own number is written. -/
theorem writeValue_numberOf (hheld : s.Held) (hreads : s.ReadsBack) :
    ∃ d, numberOf s = some d ∧ writeValue s d = s := by
  obtain ⟨v, htakes, hwrite⟩ := hheld
  have htwice := clamped_clamped s v
  cases s with
  | mk id value min max =>
    cases value with
    | bool i =>
      refine ⟨_, rfl, ?_⟩
      unfold writeValue at hwrite ⊢
      simp only [Setting.mk.injEq, Variable.bool.injEq, true_and, and_true] at hwrite ⊢
      by_cases hzero : Setting.clamped ⟨id, .bool i, min, max⟩ v = ofRat 0
      · rw [if_neg (not_not.mpr hzero)] at hwrite
        rw [hzero] at htwice
        subst hwrite
        exact if_neg (not_not.mpr htwice)
      · rw [if_pos hzero] at hwrite
        subst hwrite
        exact if_pos (clamped_one htakes hzero)
    | int i =>
      refine ⟨_, rfl, ?_⟩
      unfold writeValue at hwrite ⊢
      simp only [Setting.mk.injEq, Variable.int.injEq, true_and, and_true] at hwrite ⊢
      rw [← hwrite]
      exact lround_clamped htakes
    | float x =>
      obtain ⟨d, hd, hsame⟩ := Option.map_eq_some_iff.mp (hreads x rfl)
      refine ⟨d, hd, ?_⟩
      unfold writeValue at hwrite ⊢
      simp only [Setting.mk.injEq, Variable.float.injEq, true_and, and_true] at hwrite ⊢
      rw [← hwrite] at hsame ⊢
      exact toSingle_clamped hsame

/-! ## The text of the file -/

variable {c : UInt8} {before after rest : Bytes}

/-- A text is cut at the first place of a byte. -/
theorem cutAt_append (h : c ∉ before) : cutAt c (before ++ c :: after) = some (before, after) := by
  unfold cutAt
  rw [if_pos (by simp), Separator.before_of_split h, Separator.after_of_split h]

/-- Without the byte it is not cut. -/
theorem cutAt_none (h : c ∉ rest) : cutAt c rest = none := by
  unfold cutAt
  rw [if_neg (by simpa using h)]

/-- A value is written with the characters of a number or as a word. -/
theorem mem_valueText (h : c ∈ valueText s) : isPrinted c ∨ c ∈ bytes "true" ∨ c ∈ bytes "false" := by
  unfold valueText at h
  split at h
  · split_ifs at h
    · exact .inr (.inl h)
    · exact .inr (.inr h)
  · exact .inl (printed_formatD _ c h)
  · exact .inl (printed_formatG 9 _ c h)

/-- A character that no value has. -/
theorem not_mem_valueText (hprinted : ¬ isPrinted c) (htrue : c ∉ bytes "true")
    (hfalse : c ∉ bytes "false") : c ∉ valueText s :=
  fun h => (mem_valueText h).elim hprinted fun h => h.elim htrue hfalse

/-- A word without a byte is found before the byte. -/
theorem prefix_before {word text : Bytes} (h : word <+: text ++ c :: rest) (hc : c ∉ word) :
    word <+: text := by
  rcases List.prefix_or_prefix_of_prefix h (List.prefix_append text (c :: rest)) with h' | h'
  · exact h'
  · obtain ⟨more, rfl⟩ := h'
    cases more with
    | nil => simp
    | cons b more =>
      obtain ⟨rfl, -⟩ := List.cons_prefix_cons.mp ((List.prefix_append_right_inj text).mp h)
      exact absurd (by simp) hc

/-- A word with a character that printed numbers do not have is not one. -/
theorem not_prefix_printed {word text : Bytes} {b : UInt8} (htext : Printed text) (hb : b ∈ word)
    (hprinted : ¬ isPrinted b) (hc : c ∉ word) : ¬ word <+: text ++ c :: rest :=
  fun h => hprinted (htext b ((prefix_before h hc).subset hb))

/-- The blank before a value is skipped, and a NUL after it ends the text. -/
theorem text_after_blank {text : Bytes} (hne : text ≠ [])
    (htext : ∀ c ∈ text, c ≠ 0 ∧ ¬ isBlank c) :
    ((0x20 :: (text ++ rest)).takeWhile (· ≠ 0)).dropWhile isBlank =
      text ++ rest.takeWhile (· ≠ 0) := by
  rw [List.takeWhile_cons_of_pos (by decide),
    List.takeWhile_append_of_pos fun c hc => decide_eq_true (htext c hc).1,
    List.dropWhile_cons_of_pos (by decide)]
  obtain ⟨b, tail, rfl⟩ := List.exists_cons_of_ne_nil hne
  exact List.dropWhile_cons_of_neg (htext b List.mem_cons_self).2

/-- A printed number is read up to its end. -/
theorem readNumber_printed {text : Bytes} (htext : Printed text) (hnumber : strtod text = some d)
    (hc : c = 0x2c ∨ c = 0x0a) : readNumber (0x20 :: (text ++ c :: rest)) = some d := by
  have hne : text ≠ [] := by
    rintro rfl
    exact absurd hnumber (Option.some_ne_none d).symm
  have hplain : ∀ c ∈ text, c ≠ 0 ∧ ¬ isBlank c := fun c hin => by
    constructor <;> intro hbad
    · exact absurd (hbad ▸ htext c hin) (by decide)
    · simp only [isBlank, decide_eq_true_eq] at hbad
      rcases hbad with rfl | rfl | rfl | rfl <;> exact absurd (htext _ hin) (by decide)
  have hword : c ∉ bytes "true" ∧ c ∉ bytes "false" ∧ c ≠ 0 ∧ ¬ isToken c := by
    rcases hc with rfl | rfl <;> decide
  obtain ⟨htrue, hfalse, hzero, htoken⟩ := hword
  unfold readNumber
  rw [text_after_blank hne hplain,
    List.takeWhile_cons_of_pos (p := fun c => decide (c ≠ 0)) (decide_eq_true hzero)]
  dsimp only
  rw [if_neg (not_prefix_printed (b := 0x72) htext (by decide) (by decide) htrue),
    if_neg (not_prefix_printed (b := 0x6c) htext (by decide) (by decide) hfalse),
    strtod_append hne (fun c hin => isToken_of_isPrinted (htext c hin)) htoken, hnumber]

theorem readNumber_true : readNumber (0x20 :: (bytes "true" ++ rest)) = some (ofRat 1) := by
  unfold readNumber
  rw [text_after_blank (by decide) (by decide +kernel)]
  exact if_pos (List.prefix_append _ _)

theorem readNumber_false : readNumber (0x20 :: (bytes "false" ++ rest)) = some (ofRat 0) := by
  unfold readNumber
  rw [text_after_blank (by decide) (by decide +kernel)]
  dsimp only
  rw [if_neg, if_pos (List.prefix_append _ _)]
  intro h
  exact absurd (List.cons_prefix_cons.mp h).1 (by decide)

/-- What a value reads as is where its text ends. -/
theorem readNumber_valueText (hnumber : numberOf s = some d) (hc : c = 0x2c ∨ c = 0x0a) :
    readNumber (0x20 :: (valueText s ++ c :: rest)) = some d := by
  cases s with
  | mk id value min max =>
    cases value with
    | bool i =>
      obtain rfl := Option.some.inj hnumber
      unfold valueText readValue
      by_cases hi : i = 0
      · subst hi
        exact readNumber_false
      · have hset : ofRat (i.toInt : ℚ) ≠ ofRat 0 := fun heq => hi <| by
          have hrat := congrArg rational heq
          rw [rational_ofRat, rational_ofRat, Option.some.injEq, Int.cast_eq_zero] at hrat
          exact Int32.toInt_inj.mp hrat
        dsimp only
        rw [if_pos hset, if_neg hi, readNumber_true]
    | int i =>
      have habs : |i.toInt| < 2 ^ 53 := by
        have hlow : -2 ^ 31 ≤ i.toInt := i.minValue_le_toInt
        have hhigh := i.toInt_lt
        rw [abs_lt]
        omega
      exact readNumber_printed (printed_formatD i.toInt) ((strtod_formatD habs).trans hnumber) hc
    | float x => exact readNumber_printed (printed_formatG 9 x.value) hnumber hc

/-- What the file says of these settings. -/
def pairs (settings : List Setting) : Saved :=
  settings.flatMap fun s => ((numberOf s).map (Prod.mk s.id)).toList

/-- A line of the file is read as its setting and number. -/
theorem readEntries_line {n : ℕ} (hbefore : 0x22 ∉ before) (hid : 0x22 ∉ s.id)
    (hnumber : numberOf s = some d) (hc : c = 0x2c ∨ c = 0x0a) :
    readEntries (n + 1) (before ++ (line s ++ c :: rest)) =
      (s.id, d) :: readEntries n (0x20 :: (valueText s ++ c :: rest)) := by
  have htext : before ++ (line s ++ c :: rest) = (before ++ [0x20, 0x20]) ++
      0x22 :: (s.id ++ 0x22 :: ([] ++ 0x3a :: (0x20 :: (valueText s ++ c :: rest)))) := by
    unfold line
    simp [bytes]
  have hskip : 0x22 ∉ before ++ [0x20, 0x20] := by
    rw [List.mem_append, not_or]
    exact ⟨hbefore, by decide⟩
  rw [htext, readEntries, cutAt_append hskip]
  dsimp only
  rw [cutAt_append hid]
  dsimp only
  rw [cutAt_append List.not_mem_nil]
  dsimp only
  rw [readNumber_valueText hnumber hc]
  rfl

/-- What has no quote has no setting. -/
theorem readEntries_quoteless {n : ℕ} (h : 0x22 ∉ rest) : readEntries n rest = [] := by
  cases n with
  | zero => rfl
  | succ n => rw [readEntries, cutAt_none h]

/-- The lines are read one in a round, each after the value of the one before. -/
theorem readEntries_lines {n : ℕ} (hids : ∀ s ∈ settings, 0x22 ∉ s.id)
    (hnumbers : ∀ s ∈ settings, ∃ d, numberOf s = some d) (hbefore : 0x22 ∉ before)
    (hn : settings.length ≤ n) :
    readEntries n (before ++ (lines settings ++ [0x7d, 0x0a])) = pairs settings := by
  induction settings generalizing n before with
  | nil =>
    rw [lines, List.nil_append, readEntries_quoteless]
    · rfl
    · rw [List.mem_append, not_or]
      exact ⟨hbefore, by decide⟩
  | cons s settings ih =>
    obtain ⟨m, rfl⟩ := Nat.exists_eq_succ_of_ne_zero (Nat.ne_zero_of_lt hn)
    obtain ⟨hid, hids⟩ := List.forall_mem_cons.mp hids
    obtain ⟨⟨d, hd⟩, hnumbers⟩ := List.forall_mem_cons.mp hnumbers
    have hvalue : 0x22 ∉ valueText s := not_mem_valueText (by decide) (by decide) (by decide)
    have hpairs : pairs (s :: settings) = (s.id, d) :: pairs settings := by
      rw [pairs, List.flatMap_cons, hd]
      rfl
    rw [hpairs]
    cases settings with
    | nil =>
      rw [lines, List.append_assoc]
      show readEntries (m + 1) (before ++ (line s ++ 0x0a :: [0x7d, 0x0a])) = _
      rw [readEntries_line hbefore hid hd (.inr rfl), readEntries_quoteless]
      · rfl
      · simp [hvalue]
    | cons next settings =>
      have hvalue' : 0x22 ∉ 0x20 :: (valueText s ++ [0x2c, 0x0a]) := by simp [hvalue]
      have hrest := ih hids hnumbers hvalue' (Nat.succ_le_succ_iff.mp hn)
      rw [lines, List.append_assoc, List.append_assoc]
      show readEntries (m + 1) (before ++ (line s ++ 0x2c :: 0x0a :: _)) = _
      rw [readEntries_line hbefore hid hd (.inl rfl), ← hrest]
      simp

/-- The file that was saved is read as the settings it was saved from. -/
theorem readSettings_saveSettings {p : Plugin} (hids : ∀ s ∈ p.settings, 0x22 ∉ s.id)
    (hnumbers : ∀ s ∈ p.settings, ∃ d, numberOf s = some d) :
    readSettings (saveSettings p) = pairs p.settings := by
  have hlines (settings : List Setting) : settings.length ≤ (lines settings).length := by
    induction settings using lines.induct with
    | case1 => exact le_rfl
    | case2 s => simp [lines, bytes]
    | case3 s next rest ih =>
      rw [lines]
      simp only [List.length_append, List.length_cons] at ih ⊢
      have hsep : (bytes ",\n").length = 2 := rfl
      omega
  unfold readSettings saveSettings
  rw [List.append_assoc]
  refine readEntries_lines hids hnumbers (by decide) ?_
  have hle := hlines p.settings
  simp only [List.length_append]
  omega

/-- No key that is read has a quote in it. -/
theorem quote_not_mem_key {n : ℕ} {text : Bytes} {entry : Bytes × Number}
    (h : entry ∈ readEntries n text) : 0x22 ∉ entry.1 := by
  induction n generalizing text with
  | zero => exact absurd h List.not_mem_nil
  | succ n ih =>
    unfold readEntries at h
    split at h
    · exact absurd h List.not_mem_nil
    split at h
    · exact absurd h List.not_mem_nil
    next key rest hcut =>
    split at h
    · exact absurd h List.not_mem_nil
    rcases List.mem_append.mp h with h | h
    · rw [Option.mem_toList, Option.map_eq_some_iff] at h
      obtain ⟨v, -, rfl⟩ := h
      unfold cutAt at hcut
      split_ifs at hcut
      obtain ⟨rfl, -⟩ := Prod.mk.inj (Option.some.inj hcut)
      exact Separator.notMem_before 0x22 _
    · exact ih h

/-! ## The map of the file -/

theorem Saved.find_eq_none {saved : Saved} (h : ∀ entry ∈ saved, entry.1 ≠ id) :
    saved.find id = none := by
  rw [Saved.find, List.lookup_eq_none_iff]
  intro entry hentry
  simpa using (h entry (List.mem_reverse.mp hentry)).symm

/-- Each pair is of a setting. -/
theorem mem_pairs {entry : Bytes × Number} (h : entry ∈ pairs settings) :
    ∃ s ∈ settings, s.id = entry.1 := by
  obtain ⟨s, hs, hentry⟩ := List.mem_flatMap.mp h
  rw [Option.mem_toList, Option.map_eq_some_iff] at hentry
  obtain ⟨d, -, rfl⟩ := hentry
  exact ⟨s, hs, rfl⟩

/-- Each setting has its own number in the file. -/
theorem find_pairs (hnodup : (settings.map Setting.id).Nodup) (hs : s ∈ settings)
    (hnumber : numberOf s = some d) : Saved.find (pairs settings) s.id = some d := by
  obtain ⟨before, after, rfl⟩ := List.append_of_mem hs
  have hpairs : pairs (before ++ s :: after) = pairs before ++ (s.id, d) :: pairs after := by
    simp [pairs, hnumber]
  rw [List.map_append, List.map_cons, List.nodup_append, List.nodup_cons] at hnodup
  rw [Saved.find, hpairs, List.lookup_eq_some_iff]
  refine ⟨(pairs after).reverse, (pairs before).reverse, by simp, fun entry hentry => ?_⟩
  obtain ⟨t, ht, hid⟩ := mem_pairs (List.mem_reverse.mp hentry)
  rw [← hid]
  simpa using fun heq : s.id = t.id => hnodup.2.1.1 (heq ▸ List.mem_map_of_mem ht)

/-! ## Sessions -/

/-- What of a setting writing does not change. -/
def Setting.kind (s : Setting) : Bytes × SettingType × Number × Number :=
  (s.id, s.value.type, s.min, s.max)

theorem id_of_kind (h : s.kind = t.kind) : s.id = t.id := congrArg Prod.fst h

@[simp] theorem kind_writeValue (s : Setting) (v : Number) : (writeValue s v).kind = s.kind := by
  cases s with
  | mk id value min max => cases value <;> rfl

/-- Settings of one kind become the same by the same value. -/
theorem writeValue_of_kind (h : s.kind = t.kind) (v : Number) : writeValue s v = writeValue t v := by
  obtain ⟨id, value, min, max⟩ := s
  obtain ⟨id', value', min', max'⟩ := t
  simp only [Setting.kind, Prod.mk.injEq] at h
  obtain ⟨rfl, htype, rfl, rfl⟩ := h
  cases value <;> cases value' <;> first | rfl | exact nomatch htype

/-- They take the same values. -/
theorem takes_of_kind (h : s.kind = t.kind) : s.Takes v ↔ t.Takes v := by
  obtain ⟨id, value, min, max⟩ := s
  obtain ⟨id', value', min', max'⟩ := t
  simp only [Setting.kind, Prod.mk.injEq] at h
  obtain ⟨rfl, htype, rfl, rfl⟩ := h
  cases value <;> cases value' <;> first | rfl | exact nomatch htype

/-- Settings that `host_add_setting` all accepts. -/
def Accepted (registered : List Setting) : Prop :=
  (∀ s ∈ registered, s.id ≠ []) ∧ (registered.map Setting.id).Nodup

instance (registered : List Setting) : Decidable (Accepted registered) :=
  inferInstanceAs (Decidable (_ ∧ _))

/-- A registered setting with what the file says of it. -/
def restored (saved : Saved) (s : Setting) : Setting :=
  match saved.find s.id with
  | some v => writeValue s v
  | none => s

/-- What is in the file before a start. -/
def savedIn (file : Option Bytes) : Saved := (file.map readSettings).getD []

@[simp] theorem kind_restored (saved : Saved) (s : Setting) : (restored saved s).kind = s.kind := by
  unfold restored
  split
  · exact kind_writeValue s _
  · rfl

variable {name : Bytes} {file : Option Bytes} {registered : List Setting}

/-- The loop over what the plugin registers. -/
theorem foldl_hostAddSetting {p : Plugin} (hids : ∀ s ∈ registered, s.id ≠ [])
    (hnodup : ((p.settings ++ registered).map Setting.id).Nodup) :
    registered.foldl (fun p s => (hostAddSetting p s).2) p =
      { p with settings := p.settings ++ registered.map (restored p.saved) } := by
  induction registered generalizing p with
  | nil => simp
  | cons s registered ih =>
    obtain ⟨hid, hids⟩ := List.forall_mem_cons.mp hids
    have hnew : s.id ∉ p.settings.map Setting.id := fun hin => by
      rw [List.map_append, List.nodup_append] at hnodup
      exact hnodup.2.2 s.id hin s.id (by simp) rfl
    have hadd : (hostAddSetting p s).2 =
        { p with settings := p.settings ++ [restored p.saved s] } := by
      unfold hostAddSetting
      rw [if_neg (by simpa [hid] using hnew)]
      rfl
    rw [List.foldl_cons, hadd, ih hids]
    · simp
    · simpa [id_of_kind (kind_restored p.saved s)] using hnodup

/-- A plugin that is loaded has its settings as registered, with the saved values. -/
theorem settings_load (haccepted : Accepted registered) :
    (load name file registered).plugin.settings = registered.map (restored (savedIn file)) := by
  unfold load
  dsimp only
  rw [foldl_hostAddSetting haccepted.1 (by simpa using haccepted.2)]
  rfl

/-- The first setting of the id is written. -/
theorem writeFound_eq_some {settings' : List Setting} (h : writeFound id v settings = some settings') :
    ∃ before s after, settings = before ++ s :: after ∧ s.id = id ∧
      settings' = before ++ writeValue s v :: after := by
  induction settings generalizing settings' with
  | nil => exact absurd h (Option.some_ne_none _).symm
  | cons s rest ih =>
    unfold writeFound at h
    split_ifs at h with hid
    · exact ⟨[], s, rest, rfl, hid, (Option.some.inj h).symm⟩
    · obtain ⟨rest', hrest, rfl⟩ := Option.map_eq_some_iff.mp h
      obtain ⟨before, t, after, rfl, hid', rfl⟩ := ih hrest
      exact ⟨s :: before, t, after, rfl, hid', rfl⟩

/-- A session of a plugin that registered these settings: their values are held, and the file is
the last save. -/
structure Session.Good (registered : List Setting) (session : Session) : Prop where
  kinds : session.plugin.settings.map Setting.kind = registered.map Setting.kind
  held : ∀ s ∈ session.plugin.settings, s.Held
  file : session.plugin.settings ≠ [] → session.file = some (saveSettings session.plugin)

variable {session : Session}

/-- Every setting is a registered one with some value. -/
theorem Session.Good.exists_registered (h : session.Good registered)
    (hs : s ∈ session.plugin.settings) : ∃ t ∈ registered, t.kind = s.kind := by
  have hin : s.kind ∈ registered.map Setting.kind := h.kinds ▸ List.mem_map_of_mem hs
  exact List.mem_map.mp hin

/-- A plugin that is loaded holds all its values. -/
theorem good_load (haccepted : Accepted registered) (hwithin : ∀ s ∈ registered, s.Within)
    (hfile : ∀ s ∈ registered, ∀ v, (savedIn file).find s.id = some v → s.Takes v) :
    (load name file registered).Good registered where
  kinds := by
    rw [settings_load haccepted, List.map_map]
    exact List.map_congr_left fun s _ => kind_restored (savedIn file) s
  held := by
    rw [settings_load haccepted, List.forall_mem_map]
    intro s hs
    unfold restored
    split
    · next v hv => exact held_writeValue (hfile s hs v hv)
    · exact held_of_within (hwithin s hs)
  file hne := if_neg (show ¬ (load name file registered).plugin.settings.isEmpty by simpa using hne)

/-- So it does after a value is set. -/
theorem Session.Good.pluginSet (h : session.Good registered) {value : Argument}
    (hvalue : ∀ v, value.number? = some v → ∀ s ∈ registered, s.id = id → s.Takes v) :
    (pluginSet session id value).2.Good registered := by
  unfold Plugins.pluginSet
  split
  · exact h
  next v hv =>
  split
  · exact h
  next settings hsettings =>
  obtain ⟨before, s, after, heq, hid, rfl⟩ := writeFound_eq_some hsettings
  have hs : s ∈ session.plugin.settings := heq ▸ by simp
  obtain ⟨t, ht, hkind⟩ := h.exists_registered hs
  have htakes : s.Takes v :=
    (takes_of_kind hkind).mp (hvalue v hv t ht ((id_of_kind hkind).trans hid))
  refine ⟨?_, ?_, fun _ => rfl⟩
  · rw [← h.kinds, heq]
    simp
  · intro u hu
    have hheld := h.held
    rw [heq] at hheld
    rcases List.mem_append.mp hu with hu | hu
    · exact hheld u (List.mem_append_left _ hu)
    rcases List.mem_cons.mp hu with rfl | hu
    · exact held_writeValue htakes
    · exact hheld u (List.mem_append_right _ (List.mem_cons_of_mem s hu))

/-- So it does after any calls. -/
theorem Session.Good.afterCalls {calls : List (Bytes × Argument)} (h : session.Good registered)
    (hcalls : ∀ call ∈ calls, ∀ v, call.2.number? = some v →
      ∀ s ∈ registered, s.id = call.1 → s.Takes v) :
    (afterCalls session calls).Good registered := by
  induction calls generalizing session with
  | nil => exact h
  | cons call calls ih =>
    obtain ⟨hcall, hcalls⟩ := List.forall_mem_cons.mp hcalls
    exact ih (h.pluginSet hcall) hcalls

/-- Another value of the same type. -/
def another (s : Setting) : Setting :=
  { s with value := match s.value with
    | .bool i => .bool (if i = 0 then 1 else 0)
    | .int i => .int (if i = 0 then 1 else 0)
    | .float x => .float (toSingle (if x.value = none then ofRat 0 else none)) }

theorem kind_another (s : Setting) : (another s).kind = s.kind := by
  cases s with
  | mk id value min max => cases value <;> rfl

theorem another_ne (s : Setting) : another s ≠ s := by
  intro heq
  have hvalue := congrArg Setting.value heq
  cases s with
  | mk id value min max =>
    cases value with
    | bool i =>
      have hi := Variable.bool.inj hvalue
      split_ifs at hi with hzero
      · exact absurd (hi.trans hzero) (by decide)
      · exact hzero hi.symm
    | int i =>
      have hi := Variable.int.inj hvalue
      split_ifs at hi with hzero
      · exact absurd (hi.trans hzero) (by decide)
      · exact hzero hi.symm
    | float x =>
      have hx := congrArg Single.value (Variable.float.inj hvalue)
      split_ifs at hx with hnone
      · rw [hnone] at hx
        exact absurd hx (Option.some_ne_none _)
      · exact hnone hx.symm

/-- A function that depends on the settings' kinds gives back settings with the values. -/
theorem map_eq_of_kinds {again : List Setting} {f : Setting → Setting}
    (hkinds : again.map Setting.kind = settings.map Setting.kind)
    (hf : ∀ s ∈ settings, ∀ t, t.kind = s.kind → f t = s) : again.map f = settings := by
  induction settings generalizing again with
  | nil => simpa using hkinds
  | cons s settings ih =>
    obtain ⟨hs, hf⟩ := List.forall_mem_cons.mp hf
    cases again with
    | nil => exact absurd hkinds.symm (List.cons_ne_nil _ _)
    | cons t again =>
      obtain ⟨hkind, hkinds⟩ := List.cons_eq_cons.mp hkinds
      rw [List.map_cons, hs t hkind, ih hkinds hf]

/-- The next start with the file that was saved last gives every setting its value, whatever the
plugin's variables hold when it registers them again, exactly if no id has a double quote. -/
theorem restart_restores_iff (name : Bytes) (file : Option Bytes) (registered : List Setting)
    (calls : List (Bytes × Argument)) (haccepted : Accepted registered)
    (hwithin : ∀ s ∈ registered, s.Within)
    (hfile : ∀ s ∈ registered, ∀ v, (savedIn file).find s.id = some v → s.Takes v)
    (hcalls : ∀ call ∈ calls, ∀ v, call.2.number? = some v →
      ∀ s ∈ registered, s.id = call.1 → s.Takes v)
    (hreads : ∀ s ∈ (afterCalls (load name file registered) calls).plugin.settings, s.ReadsBack) :
    (∀ again : List Setting, again.map Setting.kind = registered.map Setting.kind →
      (load name (afterCalls (load name file registered) calls).file again).plugin.settings =
        (afterCalls (load name file registered) calls).plugin.settings) ↔
      ∀ s ∈ registered, 0x22 ∉ s.id := by
  have hload : (load name file registered).Good registered := good_load haccepted hwithin hfile
  have hgood := hload.afterCalls hcalls
  generalize afterCalls (load name file registered) calls = last at hgood hreads ⊢
  have hids : last.plugin.settings.map Setting.id = registered.map Setting.id := by
    have hfirst := congrArg (List.map Prod.fst) hgood.kinds
    rwa [List.map_map, List.map_map] at hfirst
  have haccept {again : List Setting}
      (hkinds : again.map Setting.kind = registered.map Setting.kind) : Accepted again := by
    have hfirst : again.map Setting.id = registered.map Setting.id := by
      have hfirst := congrArg (List.map Prod.fst) hkinds
      rwa [List.map_map, List.map_map] at hfirst
    refine ⟨fun s hs => ?_, hfirst ▸ haccepted.2⟩
    have hin : s.id ∈ registered.map Setting.id := hfirst ▸ List.mem_map_of_mem hs
    obtain ⟨t, ht, hid⟩ := List.mem_map.mp hin
    exact hid ▸ haccepted.1 t ht
  constructor
  · intro hrestores s hs hquote
    -- a variable that holds something else when it is registered again stays so
    obtain ⟨u, hu, hkind⟩ : ∃ u ∈ last.plugin.settings, u.kind = s.kind := by
      have hin : s.kind ∈ last.plugin.settings.map Setting.kind :=
        hgood.kinds ▸ List.mem_map_of_mem hs
      exact List.mem_map.mp hin
    have hkinds : (last.plugin.settings.map another).map Setting.kind =
        registered.map Setting.kind := by
      rw [List.map_map, ← hgood.kinds]
      exact List.map_congr_left fun s _ => kind_another s
    have hsame := hrestores _ hkinds
    rw [settings_load (haccept hkinds), List.map_map] at hsame
    have hself := List.map_inj_left.mp (hsame.trans (List.map_id _).symm) u hu
    have hnone : (savedIn last.file).find (another u).id = none := by
      rw [savedIn, hgood.file (List.ne_nil_of_mem hu), Option.map_some, Option.getD_some]
      refine Saved.find_eq_none fun entry hentry heq => quote_not_mem_key hentry ?_
      rw [heq, id_of_kind (kind_another u), id_of_kind hkind]
      exact hquote
    simp only [Function.comp_apply, restored, hnone] at hself
    exact another_ne u hself
  · intro hquotes again hkinds
    rw [settings_load (haccept hkinds)]
    refine map_eq_of_kinds (hkinds.trans hgood.kinds.symm) fun s hs t hkind => ?_
    obtain ⟨d, hd, hback⟩ := writeValue_numberOf (hgood.held s hs) (hreads s hs)
    have hread := readSettings_saveSettings (p := last.plugin) (fun u hu => by
      obtain ⟨w, hw, hkind⟩ := hgood.exists_registered hu
      exact id_of_kind hkind ▸ hquotes w hw) fun u hu => by
      obtain ⟨e, he, -⟩ := writeValue_numberOf (hgood.held u hu) (hreads u hu)
      exact ⟨e, he⟩
    have hfind : (savedIn last.file).find t.id = some d := by
      rw [savedIn, hgood.file (List.ne_nil_of_mem hs), Option.map_some, Option.getD_some, hread,
        id_of_kind hkind]
      exact find_pairs (hids ▸ haccepted.2) hs hd
    simp only [restored, hfind]
    rw [writeValue_of_kind hkind, hback]

/-- A speed and a field of view. -/
def camera (speed : Int32) (fov : ℚ) : List Setting :=
  [⟨bytes "speed", .int speed, ofRat 0, ofRat 10⟩,
    ⟨bytes "fov", .float (toSingle (ofRat fov)), ofRat 0, ofRat 1⟩]

def cameraCalls : List (Bytes × Argument) :=
  [(bytes "speed", .number (ofRat 7)), (bytes "fov", .number (ofRat (7 / 10)))]

/-- Both are set, and start again with what was set. -/
theorem restart_restores_iff_camera :
    (load [] (afterCalls (load [] none (camera 3 (1 / 2))) cameraCalls).file
      (camera 4 1)).plugin.settings = camera 7 (7 / 10) := by
  have hlast : (afterCalls (load [] none (camera 3 (1 / 2))) cameraCalls).plugin.settings =
      camera 7 (7 / 10) := by
    decide +kernel
  have hcases {s : Setting} {speed : Int32} {fov : ℚ} (hs : s ∈ camera speed fov) :
      s = ⟨bytes "speed", .int speed, ofRat 0, ofRat 10⟩ ∨
        s = ⟨bytes "fov", .float (toSingle (ofRat fov)), ofRat 0, ofRat 1⟩ := by
    simpa [camera] using hs
  rw [← hlast]
  refine (restart_restores_iff [] none (camera 3 (1 / 2)) cameraCalls (by decide +kernel)
    ?_ ?_ ?_ ?_).mpr (by decide +kernel) (camera 4 1) rfl
  · intro s hs
    rcases hcases hs with rfl | rfl <;> exact ⟨nofun, fun _ => by decide +kernel⟩
  · intro s hs v hv
    exact absurd hv (Option.some_ne_none v).symm
  · intro call hcall v hv s hs hid
    have hcall : call = (bytes "speed", .number (ofRat 7)) ∨
        call = (bytes "fov", .number (ofRat (7 / 10))) := by
      simpa [cameraCalls] using hcall
    rcases hcall with rfl | rfl <;> obtain rfl := Option.some.inj hv <;>
      rcases hcases hs with rfl | rfl
    · exact fun _ => ⟨7, by decide +kernel, by decide +kernel, by decide +kernel⟩
    · exact absurd hid (by decide)
    · exact absurd hid (by decide)
    · exact fun _ => trivial
  · rw [hlast]
    intro s hs x hx
    rcases hcases hs with rfl | rfl
    · exact nomatch hx
    · obtain rfl := Variable.float.inj hx
      decide +kernel

/-! ## A quote in an id -/

/-- A bool that is off. -/
def quoted : Setting := ⟨[0x61, 0x22, 0x62], .bool 0, ofRat 0, ofRat 1⟩

/-- Switched on, it is off again after a restart. -/
theorem quoted_not_restored : ¬ ∀ (name : Bytes) (file : Option Bytes) (registered : List Setting)
    (calls : List (Bytes × Argument)), Accepted registered → (∀ s ∈ registered, s.Within) →
    (∀ s ∈ registered, ∀ v, (savedIn file).find s.id = some v → s.Takes v) →
    (∀ call ∈ calls, ∀ v, call.2.number? = some v →
      ∀ s ∈ registered, s.id = call.1 → s.Takes v) →
    (∀ s ∈ (afterCalls (load name file registered) calls).plugin.settings, s.ReadsBack) →
    (load name (afterCalls (load name file registered) calls).file registered).plugin.settings =
      (afterCalls (load name file registered) calls).plugin.settings := by
  intro h
  have hsame := h [] none [quoted] [(quoted.id, .boolean true)] (by decide +kernel) ?_ ?_ ?_ ?_
  · exact absurd hsame (by decide +kernel)
  · intro s hs
    obtain rfl := List.mem_singleton.mp hs
    refine ⟨fun i hi => .inl (Variable.bool.inj hi).symm, fun _ => by decide +kernel⟩
  · intro s hs v hv
    exact absurd hv (Option.some_ne_none v).symm
  · intro call _ v _ s hs _ _
    obtain rfl := List.mem_singleton.mp hs
    exact fun hmax => absurd hmax (by decide +kernel)
  · intro s hs x hx
    have hlast : (afterCalls (load [] none [quoted]) [(quoted.id, .boolean true)]).plugin.settings =
        [{ quoted with value := .bool 1 }] := by
      decide +kernel
    rw [hlast] at hs
    obtain rfl := List.mem_singleton.mp hs
    exact nomatch hx

end Plugins
end Bg3le
