import Bg3le.Install.LaunchOptions

/-!
# When removing the wrapper restores the launch options

The wrapper is inserted before `%command%` wherever that stands, but removed with the whole run of
non-space text around its name. So text glued to `%command%` survives only where the wrapper's
path is quoted and has its name after a space.
-/

namespace Bg3le
namespace Install

/-- Not whitespace: the class `\S`. -/
def nonSpace (c : ℕ) : Bool := !isSpace c

/-- The text without a space between it and the first `%command%`. -/
def gluedText (options : Str) : Str :=
  match commandRegex.search options with
  | some (before, _) => before.rtakeWhile nonSpace
  | none => []

/-! ## The wrapper's name -/

theorem wrapperName_ne_nil : wrapperName ≠ [] := by decide

theorem nonSpace_of_mem_wrapperName : ∀ c ∈ wrapperName, nonSpace c := by decide

theorem quote_not_mem_wrapperName : 34 ∉ wrapperName := by decide

theorem space_not_mem_wrapperName : 32 ∉ wrapperName := by decide

theorem suffix_of_append_cons {w a b : Str} {c : ℕ} (h : w <:+ a ++ c :: b) (hc : c ∉ w) :
    w <:+ b := by
  obtain ⟨x, hx⟩ := h
  rcases List.append_eq_append_iff.mp hx with ⟨y, rfl, hy⟩ | ⟨y, rfl, hy⟩
  · exact absurd (by rw [hy]; simp) hc
  · cases y with
    | nil => exact absurd (by rw [List.nil_append] at hy; rw [← hy]; simp) hc
    | cons d y => exact ⟨y, (List.cons.inj hy).2.symm⟩

/-- A text with the name after a character the name has not has it in the rest. -/
theorem wrapperName_infix_cons {c : ℕ} {s : Str} (hc : c ∉ wrapperName)
    (h : wrapperName <:+: c :: s) : wrapperName <:+: s := by
  rcases List.infix_cons_iff.mp h with h | h
  · obtain ⟨rest, hrest⟩ := h
    obtain ⟨d, name, hname⟩ := List.exists_cons_of_ne_nil wrapperName_ne_nil
    rw [hname] at hrest hc
    exact absurd (List.cons.inj hrest).1 fun h => hc (by simp [h])
  · exact h

/-! ## Where the pattern matches -/

theorem mem_ends_plainWrapper {u rest : Str} :
    rest ∈ plainWrapper.ends u ↔ ∃ z, u = z ++ (wrapperName ++ rest) ∧ ∀ c ∈ z, nonSpace c := by
  rw [plainWrapper, Regex.ends_seq, List.mem_flatMap]
  constructor
  · rintro ⟨s, hs, hrest⟩
    obtain ⟨z, rfl, hz⟩ := Regex.mem_manyEnds.mp hs
    rw [Regex.mem_ends_lit.mp hrest]
    exact ⟨z, rfl, hz⟩
  · rintro ⟨z, rfl, hz⟩
    exact ⟨_, Regex.mem_manyEnds.mpr ⟨z, rfl, hz⟩, Regex.mem_ends_lit.mpr rfl⟩

theorem of_mem_ends_quotedWrapper {u rest : Str} (h : rest ∈ quotedWrapper.ends u) :
    ∃ y, u = 34 :: y ++ (wrapperName ++ 34 :: rest) ∧ 34 ∉ y := by
  rw [quotedWrapper, Regex.ends_seq, List.mem_flatMap] at h
  obtain ⟨s, hs, h⟩ := h
  obtain ⟨c, rfl, hc⟩ := Regex.mem_ends_char.mp hs
  rw [Regex.ends_seq, List.mem_flatMap] at h
  obtain ⟨s', hs', h⟩ := h
  obtain ⟨y, rfl, hy⟩ := Regex.mem_manyEnds.mp hs'
  rw [Regex.ends_seq, List.mem_flatMap] at h
  obtain ⟨s'', hs'', h⟩ := h
  obtain rfl := Regex.mem_ends_lit.mp hs''
  obtain ⟨d, rfl, hd⟩ := Regex.mem_ends_char.mp h
  obtain rfl : c = 34 := by simpa using hc
  obtain rfl : d = 34 := by simpa using hd
  exact ⟨y, rfl, fun hmem => by simpa using hy 34 hmem⟩

theorem first_wrapperRegex (u : Str) :
    wrapperRegex.first u =
      ((quotedWrapper.first u).or (plainWrapper.first u)).map (·.dropWhile isSpace) := by
  rw [wrapperRegex, Regex.first_seq_many, Regex.first_alt]

/-- Neither branch matches a text without the name. -/
theorem first_wrapperRegex_eq_none {u : Str} (h : ¬ wrapperName <:+: u) :
    wrapperRegex.first u = none := by
  have hquoted : quotedWrapper.first u = none := by
    rw [← Regex.ends_eq_nil_iff, List.eq_nil_iff_forall_not_mem]
    intro rest hrest
    obtain ⟨y, rfl, -⟩ := of_mem_ends_quotedWrapper hrest
    exact h (List.infix_append' ..)
  have hplain : plainWrapper.first u = none := by
    rw [← Regex.ends_eq_nil_iff, List.eq_nil_iff_forall_not_mem]
    intro rest hrest
    obtain ⟨z, rfl, -⟩ := mem_ends_plainWrapper.mp hrest
    exact h (List.infix_append' ..)
  rw [first_wrapperRegex, hquoted, hplain]
  rfl

theorem remove_eq_self {u : Str} (h : ¬ wrapperName <:+: u) : wrapperRegex.remove u = u := by
  have hkept := Regex.remove_append_of_none (r := wrapperRegex) (s := []) (x := u) fun a y b hu =>
    first_wrapperRegex_eq_none (fun hname => h ?_)
  · simpa [Regex.remove, Regex.removeFrom] using hkept
  · rw [hu]
    rw [List.append_nil] at hname
    exact hname.trans (List.suffix_append a _).isInfix

/-- A run of non-space text at the start of a text does not reach past a space. -/
theorem prefix_of_nonSpace {p a s : Str} {c : ℕ} (h : p <+: a ++ c :: s) (hc : isSpace c = true)
    (hp : ∀ d ∈ p, nonSpace d) : p <+: a := by
  obtain ⟨x, hx⟩ := h
  rcases List.append_eq_append_iff.mp hx with ⟨y, rfl, -⟩ | ⟨y, rfl, hy⟩
  · exact List.prefix_append _ _
  · cases y with
    | nil => simp
    | cons d y =>
      obtain rfl := (List.cons.inj hy).1
      exact absurd (hp c (by simp)) (by simp [nonSpace, hc])

/-! ## Text before the wrapper -/

section
variable {before found wrapper : Str}

/-- No match with quotes reaches from before a plain wrapper over it. -/
theorem quotedWrapper_before_plain (hbefore : ¬ wrapperName <:+: before)
    (hfound : ¬ wrapperName <:+: found) (hwrapper : 34 ∉ wrapper) :
    quotedWrapper.first (before ++ (wrapper ++ 32 :: found)) = none := by
  rw [← Regex.ends_eq_nil_iff, List.eq_nil_iff_forall_not_mem]
  intro rest hrest
  obtain ⟨y, hu, -⟩ := of_mem_ends_quotedWrapper hrest
  have hu : before ++ (wrapper ++ 32 :: found) = (34 :: y ++ wrapperName) ++ 34 :: rest := by
    rw [hu, List.append_assoc]
  -- where the closing quote of the match stands
  rcases List.append_eq_append_iff.mp hu with ⟨c, hc, hu⟩ | ⟨c, rfl, -⟩
  · rcases List.append_eq_append_iff.mp hu with ⟨d, rfl, hd⟩ | ⟨d, rfl, hd⟩
    · cases d with
      | nil => simp at hd
      | cons a d =>
        obtain ⟨rfl, hmore⟩ : 32 = a ∧ found = d ++ 34 :: rest := by simpa using hd
        have hname : wrapperName <:+ before ++ (wrapper ++ 32 :: d) := ⟨_, hc⟩
        rw [← List.append_assoc] at hname
        have hd' := suffix_of_append_cons hname space_not_mem_wrapperName
        exact hfound (hd'.isInfix.trans (hmore ▸ List.infix_append_left))
    · cases d with
      | nil => simp at hd
      | cons a d =>
        obtain ⟨rfl, -⟩ := List.cons.inj hd
        exact hwrapper (by simp)
  · exact hbefore ((List.suffix_append _ wrapperName).isInfix.trans List.infix_append_left)

/-- No match with quotes reaches from before a quoted wrapper to its opening quote. -/
theorem quotedWrapper_before_quote {more : Str} (hne : before ≠ [])
    (hbefore : ¬ wrapperName <:+: before) :
    quotedWrapper.first (before ++ 34 :: more) = none := by
  rw [← Regex.ends_eq_nil_iff, List.eq_nil_iff_forall_not_mem]
  intro rest hrest
  obtain ⟨y, hu, hy⟩ := of_mem_ends_quotedWrapper hrest
  obtain ⟨a, before, rfl⟩ := List.exists_cons_of_ne_nil hne
  have hu : before ++ 34 :: more = (y ++ wrapperName) ++ 34 :: rest := by
    simpa using (List.cons.inj hu).2
  rcases List.append_eq_append_iff.mp hu with ⟨c, hc, hu⟩ | ⟨c, rfl, -⟩
  · cases c with
    | nil =>
      rw [List.append_nil] at hc
      exact hbefore (by rw [← hc]; exact (List.suffix_append (a :: y) _).isInfix)
    | cons d c =>
      obtain rfl := (List.cons.inj hu).1
      have hmem : 34 ∈ y ++ wrapperName := by rw [hc]; simp
      rcases List.mem_append.mp hmem with h | h
      · exact hy h
      · exact quote_not_mem_wrapperName h
  · refine hbefore (List.IsInfix.trans ?_ (List.suffix_cons a _).isInfix)
    rw [List.append_assoc]
    exact List.infix_append' ..

/-- A plain match does not start before a space that the name does not. -/
theorem plainWrapper_before_space {c : ℕ} {s : Str} (hbefore : ¬ wrapperName <:+: before)
    (hc : isSpace c = true) : plainWrapper.first (before ++ c :: s) = none := by
  rw [← Regex.ends_eq_nil_iff, List.eq_nil_iff_forall_not_mem]
  intro rest hrest
  obtain ⟨z, hu, hz⟩ := mem_ends_plainWrapper.mp hrest
  have hprefix : z ++ wrapperName <+: before := by
    have hu : z ++ wrapperName <+: before ++ c :: s := ⟨rest, by rw [hu, List.append_assoc]⟩
    refine prefix_of_nonSpace hu hc fun d hd => ?_
    rcases List.mem_append.mp hd with hd | hd
    · exact hz d hd
    · exact nonSpace_of_mem_wrapperName d hd
  exact hbefore ((List.suffix_append z _).isInfix.trans hprefix.isInfix)

/-- Before a quoted wrapper, a plain match needs the name in the path's first run. -/
theorem plainWrapper_before_quote {more : Str} (hbefore : ¬ wrapperName <:+: before)
    (hwrapper : ¬ wrapperName <:+: wrapper.takeWhile nonSpace) (hname : wrapperName <:+ wrapper) :
    plainWrapper.first (before ++ 34 :: (wrapper ++ more)) = none := by
  rw [← Regex.ends_eq_nil_iff, List.eq_nil_iff_forall_not_mem]
  intro rest hrest
  obtain ⟨z, hu, hz⟩ := mem_ends_plainWrapper.mp hrest
  have hu : before ++ 34 :: (wrapper ++ more) = (z ++ wrapperName) ++ rest := by
    rw [hu, List.append_assoc]
  have hrun : ∀ d ∈ z ++ wrapperName, nonSpace d := fun d hd =>
    (List.mem_append.mp hd).elim (hz d) (nonSpace_of_mem_wrapperName d)
  rcases List.append_eq_append_iff.mp hu with ⟨c, hc, hu⟩ | ⟨c, rfl, -⟩
  · cases c with
    | nil =>
      rw [List.append_nil] at hc
      exact hbefore (by rw [← hc]; exact (List.suffix_append z _).isInfix)
    | cons d c =>
      obtain ⟨rfl, hmore⟩ : 34 = d ∧ wrapper ++ more = c ++ rest := by simpa using hu
      have hnamec : wrapperName <:+ c :=
        suffix_of_append_cons ⟨z, hc⟩ quote_not_mem_wrapperName
      have hrunc : ∀ d ∈ c, nonSpace d := fun d hd => hrun d (by rw [hc]; simp [hd])
      rcases List.append_eq_append_iff.mp hmore with ⟨e, rfl, -⟩ | ⟨e, rfl, -⟩
      · -- the run covers the whole path, which then is its own first run
        have hpath : wrapper.takeWhile nonSpace = wrapper :=
          List.takeWhile_eq_self_iff.mpr fun d hd => hrunc d (by simp [hd])
        rw [hpath] at hwrapper
        exact hwrapper hname.isInfix
      · rw [List.takeWhile_append_of_pos hrunc] at hwrapper
        exact hwrapper (hnamec.isInfix.trans List.infix_append_left)
  · exact hbefore ((List.suffix_append z _).isInfix.trans List.infix_append_left)

/-! ## What is removed -/

theorem dropWhile_isSpace_cons {c : ℕ} {s : Str} (hc : isSpace c = false) :
    (c :: s).dropWhile isSpace = c :: s :=
  List.dropWhile_cons_of_neg (by simp [hc])

theorem dropWhile_isSpace_append {a s : Str} {c : ℕ} (hc : isSpace c = false) :
    (a ++ c :: s).dropWhile isSpace = a.dropWhile isSpace ++ c :: s := by
  rw [List.dropWhile_append, dropWhile_isSpace_cons hc]
  split_ifs with h
  · rw [List.isEmpty_iff.mp h, List.nil_append]
  · rfl

/-- A pattern that begins with the name matches only a text that begins with it. -/
theorem prefix_of_ends_lit {u : Str} (h : (Regex.lit wrapperName).ends u ≠ []) :
    wrapperName <+: u := by
  obtain ⟨rest, hrest⟩ := List.exists_mem_of_ne_nil _ h
  exact ⟨rest, (Regex.mem_ends_lit.mp hrest).symm⟩

theorem prefix_of_ends_lit_seq {r : Regex ℕ} {u : Str}
    (h : (Regex.seq (.lit wrapperName) r).ends u ≠ []) : wrapperName <+: u := by
  refine prefix_of_ends_lit fun hnil => h ?_
  rw [Regex.ends_seq, hnil, List.flatMap_nil]

/-- A plain wrapper goes with the text glued to it and the space after it. -/
theorem first_wrapperRegex_plain {glued : Str} {c : ℕ} (hglued : ∀ d ∈ glued, nonSpace d)
    (hbefore : ¬ wrapperName <:+: glued) (hfound : ¬ wrapperName <:+: c :: found)
    (hc : isSpace c = false) (hquote : 34 ∉ wrapper) (hname : wrapperName <:+ wrapper)
    (hwrapper : ∀ d ∈ wrapper, nonSpace d) :
    wrapperRegex.first (glued ++ (wrapper ++ 32 :: c :: found)) = some (c :: found) := by
  have hquoted := quotedWrapper_before_plain hbefore hfound hquote
  obtain ⟨path, rfl⟩ := hname
  have hplain : plainWrapper.first (glued ++ path ++ (wrapperName ++ 32 :: c :: found)) =
      some (32 :: c :: found) := by
    refine Regex.first_many_word (fun u => prefix_of_ends_lit) nonSpace_of_mem_wrapperName
      wrapperName_ne_nil ?_ (Regex.first_lit_append _ _) fun d hd => ?_
    · intro d hd
      obtain rfl : 32 = d := by simpa using hd
      decide
    · rcases List.mem_append.mp hd with hd | hd
      · exact hglued d hd
      · exact hwrapper d (by simp [hd])
  rw [first_wrapperRegex, hquoted, Option.none_or]
  simp only [List.append_assoc] at hplain ⊢
  rw [hplain, Option.map_some, List.dropWhile_cons_of_pos (by decide), dropWhile_isSpace_cons hc]

/-- A quoted wrapper goes with its quotes and the space after it. -/
theorem first_wrapperRegex_quoted {c : ℕ} (hc : isSpace c = false) (hquote : 34 ∉ wrapper)
    (hname : wrapperName <:+ wrapper) :
    wrapperRegex.first (34 :: (wrapper ++ 34 :: 32 :: c :: found)) = some (c :: found) := by
  obtain ⟨path, rfl⟩ := hname
  have hquoted : quotedWrapper.first (34 :: (path ++ wrapperName ++ 34 :: 32 :: c :: found)) =
      some (32 :: c :: found) := by
    rw [quotedWrapper, Regex.first_char_seq (by decide), List.append_assoc]
    refine Regex.first_many_word (fun u => prefix_of_ends_lit_seq) (by decide)
      wrapperName_ne_nil (by simp) ?_ fun d hd => ?_
    · rw [Regex.first_lit_seq]
      rfl
    · simp only [bne_iff_ne, ne_eq]
      rintro rfl
      exact hquote (by simp [hd])
  rw [first_wrapperRegex, hquoted, Option.some_or, Option.map_some,
    List.dropWhile_cons_of_pos (by decide), dropWhile_isSpace_cons hc]

/-- The text up to the last space before `%command%` ends in that space. -/
theorem rdropWhile_split {lead a b : Str} {y : ℕ} (hlead : before.rdropWhile nonSpace = lead)
    (hsplit : lead = a ++ y :: b) : ∃ b' c, y :: b = b' ++ [c] ∧ isSpace c = true := by
  obtain ⟨b', c, hb⟩ := (List.eq_nil_or_concat' (y :: b)).resolve_left (by simp)
  refine ⟨b', c, hb, ?_⟩
  have hne : before.rdropWhile nonSpace ≠ [] := by rw [hlead, hsplit]; simp
  have hlast := List.rdropWhile_last_not nonSpace before hne
  simp only [hlead, hsplit, hb, ← List.append_assoc, List.getLast_concat] at hlast
  simpa [nonSpace] using hlast

/-- Nothing is removed from the text up to the last space before `%command%`. -/
theorem remove_lead {s : Str} (hbefore : ¬ wrapperName <:+: before)
    (hquoted : ∀ b, b <:+ before → b ≠ [] → quotedWrapper.first (b ++ s) = none) :
    wrapperRegex.remove (before ++ s) =
      before.rdropWhile nonSpace ++ wrapperRegex.remove (before.rtakeWhile nonSpace ++ s) := by
  have hbefore' := List.rdropWhile_append_rtakeWhile (p := nonSpace) (l := before)
  generalize hlead : before.rdropWhile nonSpace = lead at hbefore' ⊢
  generalize before.rtakeWhile nonSpace = glued at hbefore' ⊢
  subst hbefore'
  rw [List.append_assoc]
  refine Regex.remove_append_of_none fun a y b hsplit => ?_
  obtain ⟨b', c, hb, hc⟩ := rdropWhile_split hlead hsplit
  have hsuffix : y :: b ++ glued <:+ lead ++ glued := ⟨a, by rw [hsplit]; simp⟩
  have hplain : plainWrapper.first (y :: b ++ (glued ++ s)) = none := by
    rw [hb, List.append_assoc]
    refine plainWrapper_before_space (fun hname => hbefore ?_) hc
    refine hname.trans (List.IsInfix.trans ?_ hsuffix.isInfix)
    rw [hb, List.append_assoc]
    exact List.infix_append_left
  rw [first_wrapperRegex, ← List.append_assoc, hquoted _ hsuffix (by simp), List.append_assoc, hplain]
  rfl

/-- With a plain wrapper, the text glued to `%command%` is lost. -/
theorem remove_plain {c : ℕ} (hbefore : ¬ wrapperName <:+: before)
    (hfound : ¬ wrapperName <:+: c :: found) (hc : isSpace c = false) (hquote : 34 ∉ wrapper)
    (hname : wrapperName <:+ wrapper) (hwrapper : ∀ d ∈ wrapper, nonSpace d) :
    wrapperRegex.remove (before ++ (wrapper ++ 32 :: c :: found)) =
      before.rdropWhile nonSpace ++ c :: found := by
  have hglued : before.rtakeWhile nonSpace <:+ before := List.rtakeWhile_suffix ..
  have hrun : ∀ d ∈ before.rtakeWhile nonSpace, nonSpace d := fun d => List.mem_rtakeWhile_imp
  have hfirst := first_wrapperRegex_plain hrun (fun h => hbefore (h.trans hglued.isInfix)) hfound hc
    hquote hname hwrapper
  have hremove : wrapperRegex.remove
      ((before.rtakeWhile nonSpace ++ (wrapper ++ [32])) ++ c :: found) =
      wrapperRegex.remove (c :: found) :=
    Regex.remove_of_first (by simp) (by simpa using hfirst)
  rw [remove_lead hbefore fun b hb _ => quotedWrapper_before_plain
    (fun h => hbefore (h.trans hb.isInfix)) hfound hquote]
  simp only [List.append_assoc, List.singleton_append] at hremove
  rw [hremove, remove_eq_self hfound]

/-- A quoted wrapper that the pattern meets first with its opening quote goes alone. -/
theorem remove_quoted {c : ℕ} (hbefore : ¬ wrapperName <:+: before)
    (hfound : ¬ wrapperName <:+: c :: found) (hc : isSpace c = false) (hquote : 34 ∉ wrapper)
    (hname : wrapperName <:+ wrapper)
    (hcond : before.rtakeWhile nonSpace = [] ∨ ¬ wrapperName <:+: wrapper.takeWhile nonSpace) :
    wrapperRegex.remove (before ++ 34 :: (wrapper ++ 34 :: 32 :: c :: found)) =
      before ++ c :: found := by
  have hglued : before.rtakeWhile nonSpace <:+ before := List.rtakeWhile_suffix ..
  have hfirst : wrapperRegex.first (34 :: (wrapper ++ 34 :: 32 :: c :: found)) = some (c :: found) :=
    first_wrapperRegex_quoted hc hquote hname
  have hremove : wrapperRegex.remove (34 :: (wrapper ++ 34 :: 32 :: c :: found)) =
      wrapperRegex.remove (c :: found) := by
    have hsplit : 34 :: (wrapper ++ 34 :: 32 :: c :: found) =
        (34 :: (wrapper ++ [34, 32])) ++ c :: found := by simp
    rw [hsplit] at hfirst ⊢
    exact Regex.remove_of_first (by simp) hfirst
  rw [remove_lead hbefore fun b hb hne => quotedWrapper_before_quote hne
    fun h => hbefore (h.trans hb.isInfix)]
  rcases hcond with hnil | hcond
  · have hlead := List.rdropWhile_append_rtakeWhile (p := nonSpace) (l := before)
    rw [hnil, List.append_nil] at hlead
    rw [hnil, hlead, List.nil_append, hremove, remove_eq_self hfound]
  · rw [Regex.remove_append_of_none, hremove, remove_eq_self hfound, ← List.append_assoc,
      List.rdropWhile_append_rtakeWhile]
    intro a y b hsplit
    have hsuffix : y :: b <:+ before := List.IsSuffix.trans ⟨a, hsplit.symm⟩ hglued
    have hbefore' : ¬ wrapperName <:+: y :: b := fun h => hbefore (h.trans hsuffix.isInfix)
    rw [first_wrapperRegex, quotedWrapper_before_quote (by simp) hbefore',
      plainWrapper_before_quote hbefore' hcond hname]
    rfl

/-- A plain match before the closing quote ends before it. -/
theorem plain_match_split {w z e : Str} (hz : ∀ c ∈ z, nonSpace c) (h : w ++ 34 :: 32 :: found = z ++ (wrapperName ++ e)) :
    ∃ w', w = z ++ wrapperName ++ w' ∧ e = w' ++ 34 :: 32 :: found := by
  rw [← List.append_assoc] at h
  rcases List.append_eq_append_iff.mp h with ⟨c, hc, hrest⟩ | ⟨c, rfl, rfl⟩
  · have hrun : ∀ d ∈ c, nonSpace d := fun d hd =>
      (List.mem_append.mp (hc ▸ List.mem_append_right w hd)).elim (hz d)
        (nonSpace_of_mem_wrapperName d)
    match c with
    | [] =>
      rw [List.append_nil] at hc
      exact ⟨[], by simp [hc], by simpa using hrest.symm⟩
    | [a] =>
      obtain ⟨rfl, -⟩ := List.cons.inj hrest
      have hname := suffix_of_append_cons ⟨z, hc⟩ quote_not_mem_wrapperName
      exact absurd (List.suffix_nil.mp hname) wrapperName_ne_nil
    | a :: b :: c =>
      obtain ⟨-, hrest⟩ := List.cons.inj hrest
      obtain ⟨rfl, -⟩ := List.cons.inj hrest
      exact absurd (hrun 32 (by simp)) (by decide)
  · exact ⟨c, rfl, rfl⟩

/-- A match before the closing quote leaves that quote. -/
theorem first_wrapperRegex_keeps_quote {w e : Str}
    (hquoted : quotedWrapper.first (w ++ 34 :: 32 :: found) = none)
    (hplain : plainWrapper.first (w ++ 34 :: 32 :: found) = some e) :
    ∃ x w', wrapperName <:+: x ∧ w = x ++ w' ∧
      wrapperRegex.first (w ++ 34 :: 32 :: found) = some (w' ++ 34 :: 32 :: found) := by
  obtain ⟨z, hu, hz⟩ := mem_ends_plainWrapper.mp (List.mem_of_head? hplain)
  obtain ⟨w', rfl, rfl⟩ := plain_match_split hz hu
  have hsplit := List.takeWhile_append_dropWhile (p := isSpace) (l := w')
  refine ⟨z ++ wrapperName ++ w'.takeWhile isSpace, w'.dropWhile isSpace, List.infix_append _ _ _,
    by simp [hsplit], ?_⟩
  · rw [first_wrapperRegex, hquoted, hplain, Option.none_or, Option.map_some,
      dropWhile_isSpace_append (by decide)]

/-- However much is removed before it, the closing quote stays. -/
theorem remove_keeps_quote (hfound : ¬ wrapperName <:+: found) :
    ∀ w : Str, 34 ∉ w → ∃ l, wrapperRegex.remove (w ++ 34 :: 32 :: found) = l ++ 34 :: 32 :: found := by
  intro w
  induction hlen : w.length using Nat.strong_induction_on generalizing w with
  | _ n ih =>
    intro hquote
    cases w with
    | nil =>
      have hname : ¬ wrapperName <:+: 34 :: 32 :: found := fun h =>
        hfound (wrapperName_infix_cons space_not_mem_wrapperName
          (wrapperName_infix_cons quote_not_mem_wrapperName h))
      exact ⟨[], remove_eq_self hname⟩
    | cons c w =>
      have hc : c ≠ 34 := fun h => hquote (by simp [h])
      have hquoted : quotedWrapper.first (c :: w ++ 34 :: 32 :: found) = none := by
        rw [← Regex.ends_eq_nil_iff, List.eq_nil_iff_forall_not_mem]
        intro rest hrest
        obtain ⟨y, hu, -⟩ := of_mem_ends_quotedWrapper hrest
        exact hc (List.cons.inj hu).1
      cases hplain : plainWrapper.first (c :: w ++ 34 :: 32 :: found) with
      | none =>
        obtain ⟨l, hl⟩ := ih w.length (by simp at hlen; omega) w rfl fun h => hquote (by simp [h])
        have hfirst : wrapperRegex.first (c :: (w ++ 34 :: 32 :: found)) = none := by
          rw [← List.cons_append, first_wrapperRegex, hquoted, hplain]
          rfl
        refine ⟨c :: l, ?_⟩
        rw [List.cons_append, Regex.remove_cons_of_none hfirst, hl, List.cons_append]
      | some e =>
        obtain ⟨x, w', hname, hw, hfirst⟩ := first_wrapperRegex_keeps_quote hquoted hplain
        have hx : x ≠ [] := fun h => wrapperName_ne_nil (List.infix_nil.mp (h ▸ hname))
        have hpos := List.length_pos_of_ne_nil hx
        have hw' : w'.length < n := by rw [← hlen, hw, List.length_append]; omega
        rw [hw] at hfirst hquote ⊢
        obtain ⟨l, hl⟩ := ih _ hw' w' rfl fun h => hquote (List.mem_append_right x h)
        refine ⟨l, ?_⟩
        rw [List.append_assoc] at hfirst ⊢
        rw [Regex.remove_of_first hx hfirst, hl]

/-- Where the path has the name before its first space, the text glued to a quoted wrapper is lost
and the closing quote is left. -/
theorem remove_quoted_glued {c : ℕ} (hbefore : ¬ wrapperName <:+: before)
    (hfound : ¬ wrapperName <:+: c :: found) (hquote : 34 ∉ wrapper)
    (hglued : before.rtakeWhile nonSpace ≠ [])
    (hfirst : wrapperName <:+: wrapper.takeWhile nonSpace) :
    ∃ l, wrapperRegex.remove (before ++ 34 :: (wrapper ++ 34 :: 32 :: c :: found)) =
      before.rdropWhile nonSpace ++ (l ++ 34 :: 32 :: c :: found) := by
  have hsuffix : before.rtakeWhile nonSpace <:+ before := List.rtakeWhile_suffix ..
  have hrun : ∀ d ∈ before.rtakeWhile nonSpace, nonSpace d := fun d => List.mem_rtakeWhile_imp
  have hname : ¬ wrapperName <:+: before.rtakeWhile nonSpace := fun h =>
    hbefore (h.trans hsuffix.isInfix)
  have hlead := remove_lead (s := 34 :: (wrapper ++ 34 :: 32 :: c :: found)) hbefore fun b hb hne =>
    quotedWrapper_before_quote hne fun h => hbefore (h.trans hb.isInfix)
  rw [hlead]
  generalize before.rtakeWhile nonSpace = glued at hrun hname hglued ⊢
  have hquoted : quotedWrapper.first (glued ++ 34 :: (wrapper ++ 34 :: 32 :: c :: found)) = none :=
    quotedWrapper_before_quote hglued hname
  -- the pattern runs from the glued text over the opening quote to the name
  obtain ⟨e, hplain⟩ : ∃ e,
      plainWrapper.first (glued ++ 34 :: (wrapper ++ 34 :: 32 :: c :: found)) = some e := by
    obtain ⟨a, b, hab⟩ := hfirst
    have hpath : a ++ wrapperName ++ b ++ wrapper.dropWhile nonSpace = wrapper := by
      rw [hab, List.takeWhile_append_dropWhile]
    refine Option.isSome_iff_exists.mp (Regex.first_isSome_iff.mpr
      ⟨b ++ wrapper.dropWhile nonSpace ++ 34 :: 32 :: c :: found, ?_⟩)
    refine mem_ends_plainWrapper.mpr ⟨glued ++ 34 :: a, ?_, fun d hd => ?_⟩
    · conv_lhs => rw [← hpath]
      simp
    · rcases List.mem_append.mp hd with hd | hd
      · exact hrun d hd
      · rcases List.mem_cons.mp hd with rfl | hd
        · decide
        · have : d ∈ wrapper.takeWhile nonSpace := by rw [← hab]; simp [hd]
          exact List.mem_takeWhile_imp this
  have hsplit : glued ++ 34 :: (wrapper ++ 34 :: 32 :: c :: found) =
      (glued ++ 34 :: wrapper) ++ 34 :: 32 :: c :: found := by simp
  rw [hsplit] at hquoted hplain ⊢
  obtain ⟨x, w', hnamex, hw, hfirst⟩ := first_wrapperRegex_keeps_quote hquoted hplain
  have hx : x ≠ [] := fun h => wrapperName_ne_nil (List.infix_nil.mp (h ▸ hnamex))
  have hquote' : 34 ∉ w' := by
    rcases List.append_eq_append_iff.mp hw with ⟨b, rfl, hb⟩ | ⟨b, rfl, -⟩
    · cases b with
      | nil => exact absurd (by simpa using hnamex) hname
      | cons d b =>
        have hpath : wrapper = b ++ w' := (List.cons.inj hb).2
        exact fun h => hquote (by simp [hpath, h])
    · exact absurd (hnamex.trans List.infix_append_left) hname
  obtain ⟨l, hl⟩ := remove_keeps_quote hfound w' hquote'
  refine ⟨l, ?_⟩
  rw [hw, List.append_assoc] at hfirst ⊢
  rw [Regex.remove_of_first hx hfirst, hl]

end

/-! ## What is restored -/

theorem rdropWhile_append_of_not {a s : Str} (h : ∃ c ∈ s, isSpace c = false) :
    (a ++ s).rdropWhile isSpace = a ++ s.rdropWhile isSpace := by
  rw [List.rdropWhile, List.rdropWhile, List.reverse_append, List.dropWhile_append]
  split_ifs with hempty
  · obtain ⟨c, hc, hspace⟩ := h
    have hall := List.dropWhile_eq_nil_iff.mp (List.isEmpty_iff.mp hempty) c (by simpa using hc)
    simp [hspace] at hall
  · simp

/-- What stands before `%command%` is stripped on its left only. -/
theorem strip_append {a s : Str} {c : ℕ} (hc : isSpace c = false) :
    strip (a ++ c :: s) = a.dropWhile isSpace ++ (c :: s).rdropWhile isSpace := by
  rw [strip, dropWhile_isSpace_append hc, rdropWhile_append_of_not ⟨c, by simp, hc⟩]

/-- The text from a `%command%` on, in any case. -/
def FromCommand (found : Str) : Prop := ∃ x rest, found = x ++ rest ∧ lower x = command

theorem isSpace_of_lowerChar {c : ℕ} (h : lowerChar c ∈ command) : isSpace c = false := by
  unfold lowerChar at h
  split_ifs at h with hupper
  · simp [isSpace]
    omega
  · have hcommand : ∀ d ∈ command, isSpace d = false := by decide
    exact hcommand c h

theorem FromCommand.not_space {found : Str} (h : FromCommand found) :
    ∃ c s, found = c :: s ∧ isSpace c = false := by
  obtain ⟨x, rest, rfl, hx⟩ := h
  obtain ⟨c, x, rfl⟩ := List.exists_cons_of_ne_nil (l := x) (by rintro rfl; exact absurd hx (by decide))
  exact ⟨c, x ++ rest, rfl, isSpace_of_lowerChar (by rw [← hx]; simp [lower])⟩

theorem FromCommand.length_rdropWhile {found : Str} (h : FromCommand found) :
    command.length ≤ (found.rdropWhile isSpace).length := by
  obtain ⟨x, rest, rfl, hx⟩ := h
  obtain rfl | ⟨x, c, rfl⟩ := List.eq_nil_or_concat' x
  · exact absurd hx (by decide)
  have hc : isSpace c = false := isSpace_of_lowerChar (by rw [← hx]; simp [lower])
  have hlen : x.length + 1 = command.length := by rw [← hx]; simp [lower]
  have hkept : (c :: rest).rdropWhile isSpace ≠ [] := by
    intro hnil
    have := List.rdropWhile_eq_nil_iff.mp hnil c (by simp)
    simp [hc] at this
  have hpos := List.length_pos_of_ne_nil hkept
  rw [List.append_assoc, List.singleton_append, rdropWhile_append_of_not ⟨c, by simp, hc⟩,
    List.length_append]
  omega

theorem getLast?_dropWhile {a : Str} (h : a.dropWhile isSpace ≠ []) :
    (a.dropWhile isSpace).getLast? = a.getLast? := by
  have hsplit := List.takeWhile_append_dropWhile (p := isSpace) (l := a)
  conv_rhs => rw [← hsplit]
  rw [List.getLast?_append_of_ne_nil _ h]

/-- Text that ends in a space before `%command%` is never restored to text that does not. -/
theorem withoutCommand_ne {a a' found : Str} (hfound : FromCommand found)
    (ha : ∃ c ∈ a.getLast?, isSpace c = false) (ha' : ∀ c ∈ a'.getLast?, isSpace c = true) :
    withoutCommand (a' ++ found) ≠ withoutCommand (a ++ found) := by
  have hlen := hfound.length_rdropWhile
  obtain ⟨c, s, rfl, hc⟩ := hfound.not_space
  obtain ⟨last, hlast, hspace⟩ := ha
  have hne : a.dropWhile isSpace ≠ [] := by
    intro hnil
    have := List.dropWhile_eq_nil_iff.mp hnil last (List.mem_of_getLast? hlast)
    simp [hspace] at this
  have hpos := List.length_pos_of_ne_nil hne
  -- more than the command is left, so it is what is stripped
  have hstays : withoutCommand (a ++ c :: s) =
      a.dropWhile isSpace ++ (c :: s).rdropWhile isSpace := by
    rw [withoutCommand, strip_append hc, if_neg]
    intro h
    have := congrArg List.length h
    rw [lower, List.length_map, List.length_append] at this
    omega
  rw [hstays, withoutCommand, strip_append hc]
  split_ifs
  · intro h
    have := congrArg List.length h
    rw [List.length_nil, List.length_append] at this
    omega
  · intro h
    have hdrop := List.append_cancel_right h
    have hlast' : a'.getLast? = some last := by
      rw [← getLast?_dropWhile (hdrop ▸ hne), hdrop, getLast?_dropWhile hne, hlast]
    simp [ha' last hlast'] at hspace

theorem getLast?_rdropWhile (before : Str) :
    ∀ c ∈ (before.rdropWhile nonSpace).getLast?, isSpace c = true := by
  intro c hc
  have hne : before.rdropWhile nonSpace ≠ [] := by rintro hnil; simp [hnil] at hc
  have hlast := List.rdropWhile_last_not nonSpace before hne
  rw [List.getLast?_eq_getLast_of_ne_nil hne] at hc
  simpa [nonSpace, Option.some.inj hc] using hlast

theorem getLast?_of_rtakeWhile {before : Str} (h : before.rtakeWhile nonSpace ≠ []) :
    ∃ c ∈ before.getLast?, isSpace c = false := by
  have hsplit := List.rdropWhile_append_rtakeWhile (p := nonSpace) (l := before)
  refine ⟨(before.rtakeWhile nonSpace).getLast h, ?_, ?_⟩
  · conv_lhs => rw [← hsplit]
    rw [List.getLast?_append_of_ne_nil _ h, List.getLast?_eq_getLast_of_ne_nil h]
    rfl
  · simpa [nonSpace] using List.mem_rtakeWhile_imp (List.getLast_mem h)

/-- `%command%` is found where the options have it in any case. -/
theorem exists_search {options : Str} (h : command <:+: lower options) :
    ∃ before found, commandRegex.search options = some (before, found) ∧
      options = before ++ found ∧ FromCommand found := by
  obtain ⟨a, b, hab⟩ := h
  rw [lower, eq_comm, List.map_eq_append_iff] at hab
  obtain ⟨l, rest, rfl, hl, -⟩ := hab
  obtain ⟨pre, x, rfl, -, hx⟩ := List.map_eq_append_iff.mp hl
  have hmatch : (commandRegex.first (x ++ rest)).isSome :=
    Regex.first_isSome_iff.mpr ⟨rest, Regex.mem_ends_litBy.mpr ⟨x, rfl, hx⟩⟩
  obtain ⟨⟨before, found⟩, hsearch⟩ := Option.isSome_iff_exists.mp (Regex.search_isSome hmatch pre)
  rw [← List.append_assoc] at hsearch
  obtain ⟨hsplit, hfirst⟩ := Regex.search_eq_some hsearch
  obtain ⟨rest', hrest'⟩ := Regex.first_isSome_iff.mp hfirst
  exact ⟨before, found, hsearch, hsplit, (Regex.mem_ends_litBy.mp hrest').imp fun x hx =>
    ⟨rest', hx⟩⟩

/-- Uninstalling restores the launch options exactly when no text is glued to the first
`%command%`, or the wrapper's path has its name only after a space. -/
theorem removeWrapper_addWrapper_iff (options wrapper : Str) (hname : ¬ wrapperName <:+: options)
    (hcommand : command <:+: lower options) (hwrapper : wrapperName <:+ wrapper)
    (hquote : 34 ∉ wrapper) :
    removeWrapper (addWrapper options wrapper) =
        (if lower (strip options) = command then [] else strip options) ↔
      gluedText options = [] ∨ ¬ wrapperName <:+: wrapper.takeWhile nonSpace := by
  obtain ⟨before, found, hsearch, rfl, hfound⟩ := exists_search hcommand
  have hbefore : ¬ wrapperName <:+: before := fun h => hname (h.trans List.infix_append_left)
  have hfound' : ¬ wrapperName <:+: found := fun h => hname (h.trans List.infix_append_right)
  have hglued : gluedText (before ++ found) = before.rtakeWhile nonSpace := by
    rw [gluedText, hsearch]
  have hadd : addWrapper (before ++ found) wrapper = before ++ quote wrapper ++ py " " ++ found := by
    rw [addWrapper, if_neg hname, hsearch]
  obtain ⟨c, s, rfl, hc⟩ := hfound.not_space
  rw [hadd, hglued, removeWrapper]
  change withoutCommand _ = withoutCommand _ ↔ _
  -- a wrapper is quoted where it has a blank or a character that the shell reads
  by_cases hspecial : wrapper.any fun c => isSpace c || c ∈ [34, 39, 36, 96, 92]
  · have hremove : before ++ quote wrapper ++ py " " ++ c :: s =
        before ++ 34 :: (wrapper ++ 34 :: 32 :: c :: s) := by
      rw [quote, if_pos hspecial]
      simp [py]
    rw [hremove]
    constructor
    · intro h
      by_contra hcond
      rw [not_or, not_not] at hcond
      -- the text that is glued to the quote is taken for the front of the path, and goes with it
      obtain ⟨l, hl⟩ := remove_quoted_glued hbefore hfound' hquote hcond.1 hcond.2
      have hl' : wrapperRegex.remove (before ++ 34 :: (wrapper ++ 34 :: 32 :: c :: s)) =
          (before.rdropWhile nonSpace ++ (l ++ [34, 32])) ++ c :: s := by
        rw [hl]
        simp
      rw [hl'] at h
      refine withoutCommand_ne hfound (getLast?_of_rtakeWhile hcond.1) ?_ h
      intro d hd
      obtain rfl : 32 = d := by simpa using hd
      decide
    · intro hcond
      rw [remove_quoted hbefore hfound' hc hquote hwrapper hcond]
  · have hplain : ∀ d ∈ wrapper, nonSpace d := by
      intro d hd
      have hspace := List.any_eq_false.mp (eq_false_of_ne_true hspecial) d hd
      simp only [Bool.or_eq_true, not_or, Bool.not_eq_true] at hspace
      simp [nonSpace, hspace.1]
    have hremove : before ++ quote wrapper ++ py " " ++ c :: s =
        before ++ (wrapper ++ 32 :: c :: s) := by
      rw [quote, if_neg hspecial]
      simp [py]
    have hrun : wrapper.takeWhile nonSpace = wrapper := List.takeWhile_eq_self_iff.mpr hplain
    rw [hremove, remove_plain hbefore hfound' hc hquote hwrapper hplain, hrun]
    constructor
    · intro h
      refine .inl (by_contra fun hne => ?_)
      exact withoutCommand_ne hfound (getLast?_of_rtakeWhile hne) (getLast?_rdropWhile before) h
    · rintro (hnil | hcond)
      · have hlead := List.rdropWhile_append_rtakeWhile (p := nonSpace) (l := before)
        rw [hnil, List.append_nil] at hlead
        rw [hlead]
      · exact absurd hwrapper.isInfix hcond

/-! ## An assignment directly before `%command%` -/

def assignment : Str := py "F=%command%"

/-- The assignment goes with the wrapper, and the option is taken for `%command%` alone. -/
theorem removeWrapper_assignment :
    ¬ wrapperName <:+: assignment ∧ command <:+: lower assignment ∧ 34 ∉ wrapperName ∧
      removeWrapper (addWrapper assignment wrapperName) = [] ∧
      (if lower (strip assignment) = command then [] else strip assignment) = assignment := by
  decide +kernel

/-- Options that keep a space before `%command%` are restored. -/
theorem removeWrapper_addWrapper_spaced :
    removeWrapper (addWrapper (py "x %command%") wrapperName) =
        (if lower (strip (py "x %command%")) = command then [] else strip (py "x %command%")) ↔
      gluedText (py "x %command%") = [] ∨
        ¬ wrapperName <:+: wrapperName.takeWhile nonSpace :=
  removeWrapper_addWrapper_iff _ _ (by decide +kernel) (by decide +kernel) (by decide +kernel)
    (by decide +kernel)

end Install
end Bg3le
