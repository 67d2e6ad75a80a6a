import Bg3le.Install.AbreastTheorems

/-!
# The indentation of the app's block

The new lines of the app's block repeat the text in front of a closing brace. They are read as
meant only where that text is whitespace.
-/

namespace Bg3le
namespace Install

/-! ## Written strings -/

theorem unescape_escape (s : Str) : unescape (escape s) = s := by
  induction s with
  | nil => rfl
  | cons c s ih =>
    rw [escape]
    split
    · next hc =>
      rcases hc with rfl | rfl
      · rw [unescape, ih]
        · rfl
        · simp
      · rw [unescape, ih]
        · rfl
        · simp
    · next hc =>
      rw [unescape, ih]
      · intro s' h _
        exact hc (.inl h)
      · intro c' s' h _
        exact hc (.inl h)

theorem run_escape (s start : Str) :
    reader.run (.string start) (escape s ++ [34]) =
      some ([.string (unescape (start ++ escape s))], .plain) := by
  induction s generalizing start with
  | nil => simp [escape, Transducer.run, reader, Mode.next]
  | cons c s ih =>
    rw [escape]
    split
    · next hc =>
      have hslash : reader.step (.string start) 92 = some ([], .escape start) := rfl
      rw [List.cons_append, List.cons_append, Transducer.run_cons_silent hslash,
        Transducer.run_cons_silent (step_escape start c), ih]
      simp
    · next hc =>
      simp only [not_or] at hc
      rw [List.cons_append, Transducer.run_cons_silent (step_string hc.2 hc.1), ih]
      simp

/-- A string is read back as it was written. -/
theorem run_quoted (s : Str) :
    reader.run .plain (34 :: (escape s ++ [34])) = some ([.string s], .plain) := by
  have hstep : reader.step .plain 34 = some ([], .string []) := rfl
  rw [Transducer.run_cons_silent hstep, run_escape, List.nil_append, unescape_escape]

/-- What is written around a key and a value, between whitespace. -/
def quotedLine (key new : Str) : Str := key ++ (34 :: (escape new ++ [34]) ++ [10])

theorem run_quotedLine {key : Str} {out : List Lexeme}
    (hkey : reader.run .plain key = some (out, .plain)) (new : Str) :
    reader.run .plain (quotedLine key new) = some (out ++ [.string new], .plain) := by
  have hspace : reader.run .plain [10] = some ([], .plain) := rfl
  have hvalue := Transducer.run_append_some (run_quoted new) hspace
  rw [List.append_nil] at hvalue
  exact Transducer.run_append_some hkey hvalue

/-! ## Lines -/

/-- A line starts outside of comments. -/
theorem mode_of_lineStart {line : Str} {out : List Lexeme} {mode : Mode}
    (hline : line = [] ∨ ∃ before, line = before ++ [10])
    (h : reader.run .plain line = some (out, mode)) : mode = .plain ∨ ∃ raw, mode = .string raw := by
  rcases hline with rfl | ⟨before, rfl⟩
  · exact .inl (Prod.mk.inj (Option.some.inj h)).2.symm
  · obtain ⟨head, mid, tail, -, hnewline, -⟩ := Transducer.exists_of_run_append h
    obtain ⟨head', mid', tail', hstep, hend, -⟩ := Transducer.exists_of_run_cons hnewline
    obtain ⟨-, rfl⟩ := Prod.mk.inj (Option.some.inj hend)
    cases mid with
    | slash => exact absurd (step_slash_cases hstep).1 (by decide)
    | plain | comment => exact .inl (Prod.mk.inj (Option.some.inj hstep)).2.symm
    | string raw | escape raw => exact .inr ⟨_, (Prod.mk.inj (Option.some.inj hstep)).2.symm⟩

/-- Only a newline or the end of a token leads back out of a comment or a string. -/
theorem ne_plain_of_run {line : Str} (hline : ∀ c ∈ line, c ≠ 10) {mode last : Mode}
    (hmode : mode ≠ .plain) (h : reader.run mode line = some ([], last)) : last ≠ .plain := by
  induction line generalizing mode with
  | nil => exact (Prod.mk.inj (Option.some.inj h)).2 ▸ hmode
  | cons c line ih =>
    obtain ⟨head, mid, tail, hstep, htail, hout⟩ := Transducer.exists_of_run_cons h
    obtain ⟨rfl, rfl⟩ := List.append_eq_nil_iff.mp hout.symm
    refine ih (fun d hd => hline d (by simp [hd])) ?_ htail
    rintro rfl
    cases mode with
    | plain => exact hmode rfl
    | slash => exact absurd (step_slash_cases hstep).2.2 (by simp)
    | comment =>
      rw [step_comment, if_neg (hline c (by simp))] at hstep
      cases hstep
    | escape raw => cases hstep
    | string raw =>
      simp only [reader, Mode.next] at hstep
      split at hstep
      · cases hstep
      split at hstep <;> cases hstep

/-- A line without tokens or comments is whitespace. -/
theorem isSpace_of_run {line : Str} (hline : ∀ c ∈ line, c ≠ 10)
    (h : reader.run .plain line = some ([], .plain)) : ∀ c ∈ line, isSpace c := by
  induction line with
  | nil => simp
  | cons c line ih =>
    have hrest : ∀ d ∈ line, d ≠ 10 := fun d hd => hline d (by simp [hd])
    obtain ⟨head, mid, tail, hstep, htail, hout⟩ := Transducer.exists_of_run_cons h
    obtain ⟨rfl, rfl⟩ := List.append_eq_nil_iff.mp hout.symm
    rcases step_plain_cases hstep with ⟨hspace, -, rfl⟩ | ⟨-, -, rfl⟩ | ⟨-, -, rfl⟩ | ⟨-, h, -⟩ |
      ⟨-, h, -⟩
    · intro d hd
      rcases List.mem_cons.mp hd with rfl | hd
      · exact hspace
      · exact ih hrest htail d hd
    · exact absurd rfl (ne_plain_of_run hrest (by simp) htail)
    · exact absurd rfl (ne_plain_of_run hrest (by simp) htail)
    · cases h
    · cases h

/-- Only a quote opens a string. -/
theorem step_outside {mode mid : Mode} {c : ℕ} {head : List Lexeme} (hmode : mode.raw = none)
    (hc : c ≠ 34) (h : reader.step mode c = some (head, mid)) :
    (∀ text, .string text ∉ head) ∧ mid.raw = none := by
  cases mode with
  | plain =>
    rcases step_plain_cases h with ⟨-, rfl, rfl⟩ | ⟨-, rfl, rfl⟩ | ⟨hquote, -⟩ | ⟨-, rfl, rfl⟩ |
      ⟨-, rfl, rfl⟩
    · exact ⟨by simp, rfl⟩
    · exact ⟨by simp, rfl⟩
    · exact absurd hquote hc
    · exact ⟨by simp, rfl⟩
    · exact ⟨by simp, rfl⟩
  | slash =>
    obtain ⟨-, rfl, rfl⟩ := step_slash_cases h
    exact ⟨by simp, rfl⟩
  | comment =>
    obtain ⟨rfl, rfl⟩ := Prod.mk.inj (Option.some.inj (h.symm.trans (step_comment c)))
    exact ⟨by simp, by split <;> rfl⟩
  | string | escape => cases hmode

theorem step_backslash {mode mid : Mode} {head : List Lexeme} (hmode : mode.raw = none)
    (h : reader.step mode 92 = some (head, mid)) : head = [] ∧ mid = .comment := by
  cases mode with
  | plain => cases h
  | slash => cases h
  | comment =>
    obtain ⟨rfl, rfl⟩ := Prod.mk.inj (Option.some.inj h)
    exact ⟨rfl, rfl⟩
  | string | escape => cases hmode

/-- Outside of a string, the text of a value has no quote that opens one: a backslash stands
before each. -/
theorem run_escape_outside {s : Str} {mode last : Mode} {out : List Lexeme} (hmode : mode.raw = none)
    (h : reader.run mode (escape s) = some (out, last)) :
    (∀ text, .string text ∉ out) ∧ last.raw = none := by
  induction s generalizing mode out with
  | nil =>
    obtain ⟨rfl, rfl⟩ := Prod.mk.inj (Option.some.inj h)
    exact ⟨by simp, hmode⟩
  | cons c s ih =>
    rw [escape] at h
    split at h
    · next hc =>
      obtain ⟨head, mid, tail, hstep, htail, rfl⟩ := Transducer.exists_of_run_cons h
      obtain ⟨rfl, rfl⟩ := step_backslash hmode hstep
      have hcomment : reader.step .comment c = some ([], .comment) := by
        rcases hc with rfl | rfl <;> rfl
      rw [Transducer.run_cons_silent hcomment] at htail
      exact ih rfl htail
    · next hc =>
      simp only [not_or] at hc
      obtain ⟨head, mid, tail, hstep, htail, rfl⟩ := Transducer.exists_of_run_cons h
      obtain ⟨hhead, hmid⟩ := step_outside hmode hc.2 hstep
      obtain ⟨htail, hlast⟩ := ih hmid htail
      exact ⟨fun text => by simp [hhead text, htail text], hlast⟩

/-! ## The block -/

variable {braces braces' head tail : List Lexeme} {text text' : Str}

/-- Lexemes without strings before a string are those before the first string. -/
theorem prefix_of_no_string (hbraces : ∀ text, .string text ∉ braces)
    (h : braces ++ head = braces' ++ .string text :: tail) : braces <+: braces' := by
  rcases List.append_eq_append_iff.mp h with ⟨x, rfl, -⟩ | ⟨x, rfl, hx⟩
  · exact List.prefix_append _ _
  · cases x with
    | nil => simp
    | cons y x =>
      obtain rfl := (List.cons.inj hx).1
      exact absurd (by simp) (hbraces text)

/-- The first string of a list. -/
theorem first_string (hbraces : ∀ text, .string text ∉ braces)
    (hbraces' : ∀ text, .string text ∉ braces')
    (h : braces ++ .string text :: head = braces' ++ .string text' :: tail) : text = text' := by
  have hprefix := prefix_of_no_string hbraces h
  have hprefix' := prefix_of_no_string hbraces' h.symm
  have heq : braces = braces' :=
    hprefix.eq_of_length (Nat.le_antisymm hprefix.length_le hprefix'.length_le)
  rw [heq] at h
  exact Lexeme.string.inj (List.cons.inj (List.append_cancel_left h)).1

variable {name new key : Str} {after : List Lexeme}

/-- What the lines of the app's block are meant to add after its key, and the lexemes from the
closing brace of the apps block on. -/
def blockLexemes (name new : Str) (after : List Lexeme) : List Lexeme :=
  .openBrace :: .string name :: .string new :: .closeBrace :: .closeBrace :: after

/-- The lines of the app's block after its key, with the rest of the text. -/
def blockLines (indent key new rest : Str) : Str :=
  indent ++ ([9, 123, 10] ++ (indent ++ (quotedLine key new ++ (indent ++ ([9, 125, 10] ++
    (indent ++ rest))))))

/-- A string is not read across the end of a line where the value's key is meant. -/
theorem text_ne_name (hname : name.head? = some 76 ∧ 10 ∉ name)
    (hbraces : ∀ text, .string text ∉ braces)
    (h : braces ++ .string text :: head = blockLexemes name new after) :
    text.head? = some 76 ∧ 10 ∉ text := by
  have hfirst : braces ++ .string text :: head =
      [.openBrace] ++ .string name :: .string new :: .closeBrace :: .closeBrace :: after := h
  rw [first_string hbraces (by simp) hfirst]
  exact hname

/-- A reader inside a string emits what it has of the string, unless the text ends there. -/
theorem read_raw {mode : Mode} {s raw : Str} {out : List Lexeme} (hmode : mode.raw = some raw)
    (h : reader.read mode s = some out) :
    ∃ body rest, out = .string (unescape (raw ++ body)) :: rest := by
  obtain ⟨last, hrun, haccepting⟩ := Transducer.read_eq_some.mp h
  rcases run_raw hmode hrun with ⟨-, hlast⟩ | hout
  · cases last with
    | plain | slash | comment => exact absurd rfl hlast
    | string | escape => exact absurd haccepting (by simp [reader])
  · exact hout

/-- Two readers abreast over the indentation: where the first one is not outside strings at its
end, it has emitted no string. -/
theorem no_string_of_misread {out out' : List Lexeme} {mode : Mode} (hmode : mode ≠ .plain)
    (hname : name.head? = some 76 ∧ 10 ∉ name) (h : Misread out out' mode .plain)
    (hout : out ++ tail = blockLexemes name new after) : ∀ text, .string text ∉ out := by
  obtain ⟨braces, rest, rfl, hbraces, h⟩ := h
  rcases h with ⟨rfl, -⟩ | ⟨-, h⟩ | ⟨text, rest, rfl, htext⟩ | ⟨rfl, -⟩
  · simpa using hbraces
  · exact absurd h hmode
  · rw [List.append_assoc, List.cons_append] at hout
    exact absurd (text_ne_name hname hbraces hout).1 htext
  · simpa using hbraces

/-- The indentation leaves the reader in a string: that string takes in the next line. -/
theorem not_read_raw {mode : Mode} {raw s : Str} {out : List Lexeme}
    (hname : name.head? = some 76 ∧ 10 ∉ name) (hout : ∀ text, .string text ∉ out)
    (hmode : mode.raw = some raw) (h : reader.read mode ([9, 123, 10] ++ s) = some tail) :
    out ++ tail ≠ blockLexemes name new after := by
  have hline : ∃ line, reader.run mode [9, 123, 10] = some ([], .string (raw ++ line)) ∧
      10 ∈ line := by
    cases mode with
    | plain | slash | comment => cases hmode
    | string start =>
      obtain rfl := Option.some.inj hmode
      exact ⟨[9, 123, 10], by simp [Transducer.run, reader, Mode.next], by simp⟩
    | escape start =>
      obtain rfl := Option.some.inj hmode
      exact ⟨[92, 9, 123, 10], by simp [Transducer.run, reader, Mode.next], by simp⟩
  obtain ⟨line, hline, hnewline⟩ := hline
  rw [Transducer.read_append_silent hline] at h
  obtain ⟨body, rest, rfl⟩ := read_raw rfl h
  intro heq
  refine (text_ne_name hname hout heq).2 (newline_mem_unescape ?_)
  simp [hnewline]

/-- Reading the rest in a comment never adds lexemes that the reading outside of it lacks. -/
theorem not_read_rest {rest : Str} (hname : name.head? = some 76 ∧ 10 ∉ name)
    (hrest : reader.read .plain rest = some (.closeBrace :: after))
    (hbraces : ∀ text, .string text ∉ braces) (h : reader.read .comment rest = some tail) :
    braces ++ tail ≠ blockLexemes name new after := by
  intro heq
  obtain ⟨last, hrun, -⟩ := Transducer.read_eq_some.mp h
  obtain ⟨last', hrun', -⟩ := Transducer.read_eq_some.mp hrest
  have habreast : Abreast .comment .plain := trivial
  obtain ⟨more, tail, rfl, hmore, hmis⟩ := misread_of_abreast habreast hrun hrun'
  rw [← List.append_assoc] at heq
  have hno : ∀ text, .string text ∉ braces ++ more := fun text => by
    simp [hbraces text, hmore text]
  have hnil (htail : tail = []) : False := by
    rw [htail, List.append_nil] at heq
    exact hno name (heq ▸ by simp [blockLexemes])
  rcases hmis with ⟨htail, -⟩ | ⟨hsuffix, -⟩ | ⟨text, tail, rfl, htext⟩ | ⟨htail, -⟩
  · exact hnil htail
  · have hfirst : braces ++ more ++ tail =
        [.openBrace] ++ .string name :: .string new :: .closeBrace :: .closeBrace :: after := heq
    have hprefix := prefix_of_no_string hno hfirst
    have hlength := congrArg List.length heq
    have hfront := hprefix.length_le
    have hback := hsuffix.length_le
    simp only [blockLexemes, List.length_append, List.length_cons, List.length_nil] at *
    omega
  · exact absurd (text_ne_name hname hno heq).1 htext
  · exact hnil htail

/-- The indentation is a comment: then it hides every line of the block. -/
theorem not_read_comment {indent rest : Str} (hname : name.head? = some 76 ∧ 10 ∉ name)
    (hkey : ∀ c ∈ key, c ≠ 10) (hindent : reader.run .plain indent = some ([], .comment))
    (hrest : reader.read .plain rest = some (.closeBrace :: after)) :
    reader.read .plain (blockLines indent key new rest) ≠ some (blockLexemes name new after) := by
  intro h
  have hopen : reader.run .comment [9, 123, 10] = some ([], .plain) := rfl
  have hclose : reader.run .comment [9, 125, 10] = some ([], .plain) := rfl
  rw [blockLines, Transducer.read_append_silent hindent, Transducer.read_append_silent hopen,
    Transducer.read_append_silent hindent, quotedLine, List.append_assoc,
    Transducer.read_append_silent (run_comment hkey)] at h
  have hquote : reader.run .comment [34] = some ([], .comment) := rfl
  have hvalue : (34 :: (escape new ++ [34]) ++ [10]) ++
      (indent ++ ([9, 125, 10] ++ (indent ++ rest))) =
        [34] ++ (escape new ++ ([34, 10] ++ (indent ++ ([9, 125, 10] ++ (indent ++ rest))))) := by
    simp
  rw [hvalue, Transducer.read_append_silent hquote] at h
  obtain ⟨braces, mode, tail, hrun, hread, hout⟩ := Transducer.exists_of_read_append h
  obtain ⟨hbraces, hmode⟩ := run_escape_outside rfl hrun
  cases mode with
  | plain =>
    have hopen : reader.run .plain [34, 10] = some ([], .string [10]) := rfl
    rw [Transducer.read_append_silent hopen] at hread
    obtain ⟨body, more, rfl⟩ := read_raw rfl hread
    exact (text_ne_name hname hbraces hout.symm).2 (newline_mem_unescape (by simp))
  | slash => cases hread
  | comment =>
    have hnewline : reader.run .comment [34, 10] = some ([], .plain) := rfl
    rw [Transducer.read_append_silent hnewline, Transducer.read_append_silent hindent,
      Transducer.read_append_silent hclose, Transducer.read_append_silent hindent] at hread
    exact not_read_rest hname hrest hbraces hread hout.symm
  | string | escape => cases hmode

/-- A comment hides the opening brace, so the indentation before it has no lexemes. -/
theorem eq_nil_of_comment {indent s : Str} (hindent : reader.run .plain indent = some (head, .comment))
    (hno : ∀ text, .string text ∉ head)
    (h : reader.read .comment ([9, 123, 10] ++ (indent ++ s)) = some tail)
    (hout : head ++ tail = blockLexemes name new after) : head = [] := by
  have hopen : reader.run .comment [9, 123, 10] = some ([], .plain) := rfl
  rw [Transducer.read_append_silent hopen] at h
  obtain ⟨head', mode, tail, hrun, -, rfl⟩ := Transducer.exists_of_read_append h
  obtain ⟨rfl, -⟩ := Prod.mk.inj (Option.some.inj (hindent.symm.trans hrun))
  match head with
  | [] => rfl
  | [brace] =>
    obtain ⟨rfl, h⟩ := List.cons.inj hout
    cases (List.cons.inj h).1
  | brace :: second :: rest =>
    obtain ⟨rfl, h⟩ := List.cons.inj hout
    obtain rfl := (List.cons.inj h).1
    exact absurd (by simp) (hno name)

/-- The new lines are read as meant only where the indentation is whitespace. -/
theorem isSpace_of_read_blockLines {line indent rest : Str} {out out' : List Lexeme} {mode : Mode}
    (hname : name.head? = some 76 ∧ 10 ∉ name) (hkey : ∀ c ∈ key, c ≠ 10)
    (hrunKey : reader.run .plain key = some ([.string name], .plain))
    (hline : line = [] ∨ ∃ before, line = before ++ [10]) (hindent : ∀ c ∈ indent, c ≠ 10)
    (hrunLine : reader.run .plain line = some (out, mode))
    (hrunIndent : reader.run mode indent = some (out', .plain))
    (hrest : reader.read .plain rest = some (.closeBrace :: after))
    (h : reader.read .plain (blockLines indent key new rest) = some (blockLexemes name new after)) :
    ∀ c ∈ indent, isSpace c := by
  obtain ⟨head, mid, tail, hrun, htail, hout⟩ := Transducer.exists_of_read_append h
  have hopen : reader.run .plain [9, 123, 10] = some ([.openBrace], .plain) := rfl
  have hclose : reader.run .plain [9, 125, 10] = some ([.closeBrace], .plain) := rfl
  by_cases hmid : mid = .plain
  · -- each of the lines has the lexemes of the indentation once more
    subst hmid
    rw [blockLines, Transducer.read_append hrun, Transducer.read_append hopen,
      Transducer.read_append hrun, Transducer.read_append (run_quotedLine hrunKey new),
      Transducer.read_append hrun, Transducer.read_append hclose, Transducer.read_append hrun,
      hrest] at h
    have hlength := congrArg List.length (Option.some.inj h)
    simp only [blockLexemes, List.length_append, List.length_cons, List.length_nil] at hlength
    have hhead : head = [] := List.length_eq_zero_iff.mp (by omega)
    rw [hhead] at hrun
    exact isSpace_of_run hindent hrun
  · exfalso
    -- otherwise the line starts inside a string
    obtain ⟨raw, rfl⟩ : ∃ raw, mode = .string raw := by
      rcases mode_of_lineStart hline hrunLine with rfl | hmode
      · exact absurd (Prod.mk.inj (Option.some.inj (hrun.symm.trans hrunIndent))).2 hmid
      · exact hmode
    have habreast : Abreast .plain (.string raw) := trivial
    have hno := no_string_of_misread hmid hname (misread_of_abreast habreast hrun hrunIndent)
      hout.symm
    cases mid with
    | plain => exact hmid rfl
    | slash => cases htail
    | string start => exact not_read_raw hname hno rfl htail hout.symm
    | escape start => exact not_read_raw hname hno rfl htail hout.symm
    | comment =>
      rw [eq_nil_of_comment hrun hno htail hout.symm] at hrun
      exact not_read_comment hname hkey hrun hrest h

end Install
end Bg3le
