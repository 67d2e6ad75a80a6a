import Bg3le.Library.JsonText

/-!
# Reading JSON text

The reader finds the document of every text, so that no text has two.
-/

namespace JsonText

open NumberText

variable {text rest t w s u b : List UInt8} {d : Document} {fuel : ℕ} {c : UInt8}

/-! ## Blanks -/

theorem blank_nil : Blank [] := fun _ hc => absurd hc List.not_mem_nil

theorem isBlank_of_mem (hw : Blank w) : w.dropWhile isBlank = [] :=
  List.dropWhile_eq_nil_iff.mpr hw

/-- Blanks before a text are skipped, and no more. -/
theorem dropWhile_blank (hw : Blank w) (hc : isBlank c = false) :
    (w ++ c :: rest).dropWhile isBlank = c :: rest := by
  rw [List.dropWhile_append_of_pos hw, List.dropWhile_cons_of_neg (by rw [hc]; exact Bool.false_ne_true)]

theorem isNumeric_of_isBlank (hc : isBlank c = true) : isNumeric c = false := by
  simp only [isBlank, Bool.or_eq_true, beq_iff_eq] at hc
  rcases hc with ((rfl | rfl) | rfl) | rfl <;> decide

theorem isBlank_of_isNumeric (hc : isNumeric c = true) : isBlank c = false := by
  by_contra hblank
  rw [Bool.not_eq_false] at hblank
  exact absurd (hc.symm.trans (isNumeric_of_isBlank hblank)) (by decide)

/-! ## Strings -/

/-- A code unit is written with four digits. -/
theorem length_of_codeUnit {n : ℕ} (h : codeUnit u = some n) : u.length = 4 := by
  unfold codeUnit at h
  split at h
  · assumption
  · cases h

/-- What is behind `\u` is read with four characters, or with ten where four are not enough. -/
theorem unicode_cases (h : unicode u = some b) :
    u.length = 4 ∨ u.length = 10 ∧ unicode (u.take 4) = none := by
  by_cases hfour : u.length = 4
  · exact .inl hfour
  · unfold unicode at h
    rw [if_neg hfour] at h
    split at h
    · obtain ⟨high, hhigh, h⟩ := Option.bind_eq_some_iff.mp h
      obtain ⟨low, hlow, h⟩ := Option.bind_eq_some_iff.mp h
      split at h
      · next hpair =>
        have hrest := length_of_codeUnit hlow
        rw [List.length_drop] at hrest
        have htake : (u.take 4).length = 4 := length_of_codeUnit hhigh
        refine .inr ⟨by omega, ?_⟩
        have hsurrogate : 0xd800 ≤ high ∧ high < 0xe000 := by omega
        rw [unicode, if_pos htake, hhigh, Option.bind_some, if_pos hsurrogate]
      · cases h
    · cases h

/-- A string's characters read back up to its closing quote. -/
theorem readString_chars (h : Chars s t) (hfuel : t.length < fuel) :
    readString fuel (t ++ 0x22 :: rest) = some (s, rest) := by
  induction h generalizing fuel with
  | nil =>
    obtain ⟨fuel, rfl⟩ := Nat.exists_eq_add_of_lt hfuel
    rfl
  | @plain c s t hc hquote hback h ih =>
    obtain ⟨fuel, rfl⟩ := Nat.exists_eq_succ_of_ne_zero (Nat.ne_zero_of_lt hfuel)
    rw [List.length_cons] at hfuel
    rw [List.cons_append, readString, if_neg hquote, if_neg hback, if_neg (UInt8.not_lt.mpr hc),
      ih (by omega)]
    rfl
  | @short b c s t hc h ih =>
    obtain ⟨fuel, rfl⟩ := Nat.exists_eq_succ_of_ne_zero (Nat.ne_zero_of_lt hfuel)
    simp only [List.length_cons] at hfuel
    -- a short escape is not read as one of a code unit
    have hletter : (c :: (t ++ 0x22 :: rest)).head? ≠ some 0x75 := by
      intro hhead
      obtain rfl : c = 0x75 := Option.some.inj hhead
      cases hc
    rw [List.cons_append, List.cons_append, readString, if_neg (by decide), if_pos rfl, if_neg hletter,
      List.head?_cons, Option.bind_some, hc, Option.bind_some, List.drop_one, List.tail_cons,
      ih (by omega)]
    rfl
  | @unicode b u s t hu h ih =>
    obtain ⟨fuel, rfl⟩ := Nat.exists_eq_succ_of_ne_zero (Nat.ne_zero_of_lt hfuel)
    simp only [List.length_cons, List.length_append] at hfuel
    rw [List.cons_append, List.cons_append, readString, if_neg (by decide), if_pos rfl,
      if_pos (List.head?_cons ..), List.append_assoc, List.drop_one, List.tail_cons]
    have hdrop (k : ℕ) (hk : u.length = k) :
        (0x75 :: (u ++ (t ++ 0x22 :: rest))).drop (k + 1) = t ++ 0x22 :: rest := by
      rw [List.drop_succ_cons, ← hk, List.drop_left]
    -- one code unit, or a pair of surrogates
    rcases unicode_cases hu with hlen | ⟨hlen, hshort⟩
    · rw [List.take_left' hlen, hu]
      simp only
      rw [hdrop 4 hlen, ih (by omega)]
      rfl
    · rw [List.take_left' hlen, hu, List.take_append_of_le_length (by omega), hshort]
      simp only
      rw [hdrop 10 hlen, ih (by omega)]
      rfl

/-! ## Numbers -/

theorem isNumeric_of_isDigit (hc : decimal.isDigit c = true) : isNumeric c = true := by
  rw [isNumeric, hc]
  rfl

theorem isNumeric_of_isExponent (h : isExponent t = true) : ∀ c ∈ t, isNumeric c = true := by
  cases t with
  | nil => exact nofun
  | cons c rest =>
    simp only [isExponent, Bool.and_eq_true, beq_iff_eq] at h
    obtain ⟨⟨hletter, -⟩, hdigits⟩ := h
    intro c' hc'
    rcases List.mem_cons.mp hc' with rfl | hc'
    · rw [isNumeric, hletter]
      simp
    · have hrest : c' ∈ (signOf rest).2 ∨ c' = 0x2d ∨ c' = 0x2b := by
        unfold signOf
        split
        · rcases List.mem_cons.mp hc' with rfl | hc'
          · exact .inr (.inl rfl)
          · exact .inl hc'
        · rcases List.mem_cons.mp hc' with rfl | hc'
          · exact .inr (.inr rfl)
          · exact .inl hc'
        · exact .inl hc'
      rcases hrest with hmem | rfl | rfl
      · exact isNumeric_of_isDigit (List.all_eq_true.mp hdigits c' hmem)
      · decide
      · decide

theorem isNumeric_of_isTail (h : isTail t = true) : ∀ c ∈ t, isNumeric c = true := by
  cases t with
  | nil => exact nofun
  | cons c rest =>
    by_cases hpoint : c = 0x2e
    · rw [isTail, if_pos hpoint] at h
      simp only [Bool.and_eq_true, Bool.or_eq_true, List.isEmpty_iff] at h
      intro c' hc'
      rcases List.mem_cons.mp hc' with rfl | hc'
      · rw [hpoint]
        decide
      · rw [← List.takeWhile_append_dropWhile (p := decimal.isDigit) (l := rest)] at hc'
        rcases List.mem_append.mp hc' with hc' | hc'
        · exact isNumeric_of_isDigit (List.mem_takeWhile_imp hc')
        · rcases h.2 with hnone | hexponent
          · exact absurd (hnone ▸ hc') List.not_mem_nil
          · exact isNumeric_of_isExponent hexponent c' hc'
    · rw [isTail, if_neg hpoint] at h
      exact isNumeric_of_isExponent h

/-- A number's text is not empty and holds numeric bytes only. -/
theorem isNumeric_of_numberOf (h : numberOf t = some d) : t ≠ [] ∧ ∀ c ∈ t, isNumeric c = true := by
  have hminus : t = (minusOf t).2 ∨ t = 0x2d :: (minusOf t).2 := by
    cases t with
    | nil => exact .inl rfl
    | cons c rest =>
      by_cases hc : c = 0x2d
      · rw [minusOf, if_pos hc, hc]
        exact .inr rfl
      · rw [minusOf, if_neg hc]
        exact .inl rfl
  unfold numberOf at h
  simp only at h
  generalize (minusOf t).1 = negative at h
  generalize (minusOf t).2 = rest at hminus h
  split at h
  · cases h
  · next hwhole =>
    have hrest : rest ≠ [] := by
      rintro rfl
      exact hwhole rfl
    have htail : (rest.dropWhile decimal.isDigit) = [] ∨ isTail (rest.dropWhile decimal.isDigit) := by
      split at h
      · next hnone => exact .inl (List.isEmpty_iff.mp hnone)
      · split at h
        · next htail => exact .inr htail
        · cases h
    have hnumeric : ∀ c ∈ rest, isNumeric c = true := by
      intro c hc
      rw [← List.takeWhile_append_dropWhile (p := decimal.isDigit) (l := rest)] at hc
      rcases List.mem_append.mp hc with hc | hc
      · exact isNumeric_of_isDigit (List.mem_takeWhile_imp hc)
      · rcases htail with hnone | htail
        · exact absurd (hnone ▸ hc) List.not_mem_nil
        · exact isNumeric_of_isTail htail c hc
    rcases hminus with rfl | rfl
    · exact ⟨hrest, hnumeric⟩
    · refine ⟨List.cons_ne_nil _ _, fun c hc => ?_⟩
      rcases List.mem_cons.mp hc with rfl | hc
      · decide
      · exact hnumeric c hc

/-! ## Documents -/

/-- No number goes on here. -/
def Ends (rest : List UInt8) : Prop := ∀ c, rest.head? = some c → isNumeric c = false

/-- A number's text ends where what follows is not numeric. -/
theorem Ends.takeWhile (h : Ends rest) (ht : ∀ c ∈ t, isNumeric c = true) :
    (t ++ rest).takeWhile isNumeric = t ∧ (t ++ rest).dropWhile isNumeric = rest := by
  rw [List.takeWhile_append_of_pos ht, List.dropWhile_append_of_pos ht]
  cases rest with
  | nil => exact ⟨List.append_nil t, rfl⟩
  | cons c rest =>
    have hc := h c rfl
    rw [List.takeWhile_cons_of_neg (by rw [hc]; exact Bool.false_ne_true),
      List.dropWhile_cons_of_neg (by rw [hc]; exact Bool.false_ne_true)]
    exact ⟨List.append_nil t, rfl⟩

theorem Ends.blank (hw : Blank w) (hrest : Ends rest) : Ends (w ++ rest) := by
  cases w with
  | nil => exact hrest
  | cons c w =>
    rintro c' ⟨⟩
    exact isNumeric_of_isBlank (hw c List.mem_cons_self)

theorem ends_cons (hc : isNumeric c = false) : Ends (c :: rest) := by
  rintro c' ⟨⟩
  exact hc

/-- How a text of a document begins. -/
theorem Text.starts (h : Text d t) : ∃ c t', t = c :: t' ∧ isBlank c = false ∧ c ≠ 0x5d := by
  cases h with
  | @number d t h =>
    obtain ⟨hne, hnumeric⟩ := isNumeric_of_numberOf h
    obtain ⟨c, t', rfl⟩ := List.exists_cons_of_ne_nil hne
    have hc := hnumeric c List.mem_cons_self
    refine ⟨c, t', rfl, isBlank_of_isNumeric hc, ?_⟩
    rintro rfl
    exact absurd hc (by decide)
  | _ => exact ⟨_, _, rfl, by decide, by decide⟩

/-- The text of an array's items does not start with its end. -/
theorem Items.starts {ds : List Document} (h : Items ds t) (rest : List UInt8) :
    ((t ++ rest).dropWhile isBlank).head? ≠ some 0x5d := by
  have hne {w : List UInt8} {d : Document} {t : List UInt8} (r : List UInt8) (hw : Blank w)
      (ht : Text d t) : ((w ++ (t ++ r)).dropWhile isBlank).head? ≠ some 0x5d := by
    obtain ⟨c, t', rfl, hc, hclose⟩ := ht.starts
    rw [List.cons_append, dropWhile_blank hw hc]
    exact fun h => hclose (Option.some.inj h)
  cases h with
  | last hw ht hw' =>
    rw [List.append_assoc, List.append_assoc]
    exact hne _ hw ht
  | cons hw ht hw' hr =>
    rw [List.append_assoc, List.append_assoc]
    exact hne _ hw ht

/-- The text of an object's members does not start with its end. -/
theorem Members.starts {ms : List (List UInt8 × Document)} (h : Members ms t) (rest : List UInt8) :
    ((t ++ rest).dropWhile isBlank).head? ≠ some 0x7d := by
  have hne {v : List UInt8} (r : List UInt8) (hv : Blank v) :
      ((v ++ 0x22 :: r).dropWhile isBlank).head? ≠ some 0x7d := by
    rw [dropWhile_blank hv (by decide)]
    exact fun h => absurd (Option.some.inj h) (by decide)
  cases h with
  | last hv =>
    rw [List.append_assoc]
    exact hne _ hv
  | cons hv =>
    rw [List.append_assoc]
    exact hne _ hv

theorem readWord_append {word : List UInt8} : readWord word (word ++ rest) d = some (d, rest) := by
  rw [readWord, if_pos (List.prefix_append word rest), List.drop_left]

/-- A document is read by its first character. -/
theorem readValue_eq (h : text.dropWhile isBlank = c :: rest) :
    readValue (fuel + 1) text =
      if c = 0x22 then (readString (rest.length + 1) rest).map fun r => (.string r.1, r.2)
      else if c = 0x5b then
        if (rest.dropWhile isBlank).head? = some 0x5d then
          some (.array [], (rest.dropWhile isBlank).drop 1)
        else (readItems fuel rest).map fun r => (.array r.1, r.2)
      else if c = 0x7b then
        if (rest.dropWhile isBlank).head? = some 0x7d then
          some (.object [], (rest.dropWhile isBlank).drop 1)
        else (readMembers fuel rest).map fun r => (.object r.1, r.2)
      else if c = 0x6e then readWord [0x75, 0x6c, 0x6c] rest .null
      else if c = 0x74 then readWord [0x72, 0x75, 0x65] rest (.boolean true)
      else if c = 0x66 then readWord [0x61, 0x6c, 0x73, 0x65] rest (.boolean false)
      else (numberOf ((c :: rest).takeWhile isNumeric)).map fun d =>
        (d, (c :: rest).dropWhile isNumeric) := by
  rw [readValue, h]

/-- A number reads back with blanks before it. -/
theorem readValue_number (h : numberOf t = some d) (hskip : text.dropWhile isBlank = t ++ rest)
    (hrest : Ends rest) : readValue (fuel + 1) text = some (d, rest) := by
  obtain ⟨hne, hnumeric⟩ := isNumeric_of_numberOf h
  obtain ⟨htake, hdrop⟩ := hrest.takeWhile hnumeric
  rw [← hskip] at htake hdrop
  obtain ⟨c, t', rfl⟩ := List.exists_cons_of_ne_nil hne
  have hc := hnumeric c List.mem_cons_self
  have hother {c' : UInt8} (hc' : isNumeric c' = false) : c ≠ c' := by
    rintro rfl
    exact absurd (hc.symm.trans hc') (by decide)
  rw [List.cons_append] at hskip
  rw [readValue_eq hskip, if_neg (hother (by decide)), if_neg (hother (by decide)),
    if_neg (hother (by decide)), if_neg (hother (by decide)), if_neg (hother (by decide)),
    if_neg (hother (by decide)), ← hskip, htake, hdrop, h]
  rfl

/-- A string reads back with blanks before it. -/
theorem readValue_string (h : Chars s t)
    (hskip : text.dropWhile isBlank = 0x22 :: (t ++ 0x22 :: rest)) :
    readValue (fuel + 1) text = some (.string s, rest) := by
  rw [readValue_eq hskip, if_pos rfl, readString_chars h (by simp only [List.length_append]; omega)]
  rfl

mutual

/-- Every document reads back from its text; the induction is on how the text is made. -/
theorem readValue_text {d : Document} {t : List UInt8} (h : Text d t) {fuel : ℕ} {w rest : List UInt8}
    (hw : Blank w) (hfuel : t.length < fuel) (hrest : Ends rest) :
    readValue fuel (w ++ (t ++ rest)) = some (d, rest) := by
  obtain ⟨fuel, rfl⟩ := Nat.exists_eq_succ_of_ne_zero (Nat.ne_zero_of_lt hfuel)
  obtain ⟨c, t', ht, hc, -⟩ := h.starts
  have hskip : (w ++ (t ++ rest)).dropWhile isBlank = t ++ rest := by
    rw [ht, List.cons_append]
    exact dropWhile_blank hw hc
  -- every branch reads after the blanks; the first byte then decides which one
  clear ht hc
  generalize w ++ (t ++ rest) = input at hskip
  match h with
  | .null =>
    rw [readValue_eq hskip, if_neg (by decide), if_neg (by decide), if_neg (by decide), if_pos rfl]
    exact readWord_append
  | .trueWord =>
    rw [readValue_eq hskip, if_neg (by decide), if_neg (by decide), if_neg (by decide),
      if_neg (by decide), if_pos rfl]
    exact readWord_append
  | .falseWord =>
    rw [readValue_eq hskip, if_neg (by decide), if_neg (by decide), if_neg (by decide),
      if_neg (by decide), if_neg (by decide), if_pos rfl]
    exact readWord_append
  | .number h => exact readValue_number h hskip hrest
  | .string h =>
    refine readValue_string h (hskip.trans ?_)
    rw [List.cons_append, List.append_assoc]
    rfl
  | .empty hw =>
    rw [List.cons_append, List.append_assoc] at hskip
    rw [readValue_eq hskip, if_neg (by decide), if_pos rfl, List.singleton_append,
      dropWhile_blank hw (by decide)]
    rfl
  | .array h =>
    rw [List.cons_append, List.append_assoc] at hskip
    rw [List.length_cons, List.length_append, List.length_singleton] at hfuel
    rw [readValue_eq hskip, if_neg (by decide), if_pos rfl, if_neg (h.starts _)]
    have hitems := readItems_text h rest (by omega : _ < fuel)
    rw [List.singleton_append, hitems]
    rfl
  | .emptyObject hw =>
    rw [List.cons_append, List.append_assoc] at hskip
    rw [readValue_eq hskip, if_neg (by decide), if_neg (by decide), if_pos rfl, List.singleton_append,
      dropWhile_blank hw (by decide)]
    rfl
  | .object h =>
    rw [List.cons_append, List.append_assoc] at hskip
    rw [List.length_cons, List.length_append, List.length_singleton] at hfuel
    rw [readValue_eq hskip, if_neg (by decide), if_neg (by decide), if_pos rfl, if_neg (h.starts _)]
    have hmembers := readMembers_text h rest (by omega : _ < fuel)
    rw [List.singleton_append, hmembers]
    rfl

/-- The items of an array read back up to its end. -/
theorem readItems_text {ds : List Document} {t : List UInt8} (h : Items ds t) {fuel : ℕ}
    (rest : List UInt8) (hfuel : t.length + 1 < fuel) :
    readItems fuel (t ++ 0x5d :: rest) = some (ds, rest) := by
  obtain ⟨fuel, rfl⟩ := Nat.exists_eq_succ_of_ne_zero (Nat.ne_zero_of_lt hfuel)
  match h with
  | .last hw ht hw' =>
    simp only [List.length_append] at hfuel
    have hvalue := readValue_text ht hw (by omega : _ < fuel)
      (Ends.blank hw' (ends_cons (by decide) : Ends (0x5d :: rest)))
    rw [readItems, List.append_assoc, List.append_assoc, hvalue, Option.bind_some,
      dropWhile_blank hw' (by decide)]
    rfl
  | .cons (r := r) hw ht hw' hr =>
    simp only [List.length_append, List.length_cons] at hfuel
    have hvalue := readValue_text ht hw (by omega : _ < fuel)
      (Ends.blank hw' (ends_cons (by decide) : Ends (0x2c :: (r ++ 0x5d :: rest))))
    have hitems := readItems_text hr rest (by omega : _ < fuel)
    rw [readItems, List.append_assoc, List.append_assoc, List.append_assoc, List.cons_append, hvalue,
      Option.bind_some, dropWhile_blank hw' (by decide)]
    simp only
    rw [if_neg (by decide), if_pos trivial, hitems]
    rfl

/-- The members of an object read back up to its end. -/
theorem readMembers_text {ms : List (List UInt8 × Document)} {t : List UInt8} (h : Members ms t) {fuel : ℕ}
    (rest : List UInt8) (hfuel : t.length + 1 < fuel) :
    readMembers fuel (t ++ 0x7d :: rest) = some (ms, rest) := by
  obtain ⟨fuel, rfl⟩ := Nat.exists_eq_succ_of_ne_zero (Nat.ne_zero_of_lt hfuel)
  match h with
  | @Members.last s d v k x w t w' hv hk hx hw ht hw' =>
    simp only [List.length_append, List.length_cons] at hfuel
    have hvalue := readValue_text ht hw (by omega : _ < fuel)
      (Ends.blank hw' (ends_cons (by decide) : Ends (0x7d :: rest)))
    rw [readMembers, List.append_assoc, List.cons_append, dropWhile_blank hv (by decide), List.head?_cons,
      if_pos rfl, List.drop_one, List.tail_cons, List.append_assoc, List.cons_append,
      readString_chars hk (by simp only [List.length_append, List.length_cons]; omega), Option.bind_some,
      List.append_assoc, List.cons_append, dropWhile_blank hx (by decide), List.head?_cons, if_pos rfl,
      List.drop_one, List.tail_cons, List.append_assoc, List.append_assoc, hvalue, Option.bind_some,
      dropWhile_blank hw' (by decide)]
    rfl
  | .cons (r := r) hv hk hx hw ht hw' hr =>
    simp only [List.length_append, List.length_cons] at hfuel
    have hvalue := readValue_text ht hw (by omega : _ < fuel)
      (Ends.blank hw' (ends_cons (by decide) : Ends (0x2c :: (r ++ 0x7d :: rest))))
    have hmembers := readMembers_text hr rest (by omega : _ < fuel)
    rw [readMembers, List.append_assoc, List.cons_append, dropWhile_blank hv (by decide), List.head?_cons,
      if_pos rfl, List.drop_one, List.tail_cons, List.append_assoc, List.cons_append,
      readString_chars hk (by simp only [List.length_append, List.length_cons]; omega), Option.bind_some,
      List.append_assoc, List.cons_append, dropWhile_blank hx (by decide), List.head?_cons, if_pos rfl,
      List.drop_one, List.tail_cons, List.append_assoc, List.append_assoc, List.append_assoc,
      List.cons_append, hvalue, Option.bind_some, dropWhile_blank hw' (by decide)]
    simp only
    rw [if_neg (by decide), if_pos trivial, hmembers]
    rfl

end

/-- A whole text is read as its document. -/
theorem read_text {v w : List UInt8} (hv : Blank v) (h : Text d t) (hw : Blank w) :
    read (v ++ (t ++ w)) = some d := by
  have hends : Ends w := by
    have hblank := Ends.blank hw (nofun : Ends [])
    rwa [List.append_nil] at hblank
  have hlength : t.length < (v ++ (t ++ w)).length + 1 := by
    simp only [List.length_append]
    omega
  rw [read, readValue_text h hv hlength hends, Option.bind_some, isBlank_of_mem hw]
  rfl

/-- A text has one document. -/
theorem Text.unique {d' : Document} (h : Text d t) (h' : Text d' t) : d = d' := by
  have hread := read_text blank_nil h blank_nil
  exact Option.some.inj (hread.symm.trans (read_text blank_nil h' blank_nil))

end JsonText
