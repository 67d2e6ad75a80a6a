import Bg3le.Install.VdfTreeTheorems

/-!
# The characters of a KeyValues text

The tokens of a text are what the reader makes of it character by character, so a text is read in
parts.
-/

namespace Bg3le
namespace Install

/-! ## Characters -/

theorem run_spaces {s : Str} (h : ∀ c ∈ s, isSpace c) :
    reader.run .plain s = some ([], .plain) := by
  induction s with
  | nil => rfl
  | cons c s ih =>
    have hstep : reader.step .plain c = some ([], .plain) := by
      simp [reader, Mode.next, h c (by simp)]
    rw [Transducer.run_cons_silent hstep]
    exact ih fun d hd => h d (by simp [hd])

theorem run_comment {s : Str} (h : ∀ c ∈ s, c ≠ 10) :
    reader.run .comment s = some ([], .comment) := by
  induction s with
  | nil => rfl
  | cons c s ih =>
    have hstep : reader.step .comment c = some ([], .comment) := by
      simp [reader, Mode.next, h c (by simp)]
    rw [Transducer.run_cons_silent hstep]
    exact ih fun d hd => h d (by simp [hd])

/-- A newline ends a comment, and means nothing outside of one. -/
theorem run_comment_newline (s : Str) :
    reader.run .comment (10 :: s) = reader.run .plain (10 :: s) := by
  have hcomment : reader.step .comment 10 = some ([], .plain) := rfl
  have hplain : reader.step .plain 10 = some ([], .plain) := rfl
  rw [Transducer.run_cons_silent hcomment, Transducer.run_cons_silent hplain]

theorem read_comment_newline (s : Str) :
    reader.read .comment (10 :: s) = reader.read .plain (10 :: s) := by
  rw [Transducer.read, Transducer.read, run_comment_newline]

/-- A string up to its closing quote. -/
theorem run_stringBody {s raw rest : Str} (h : stringBody s = some (raw, rest)) (start : Str) :
    s = raw ++ 34 :: rest ∧
      reader.run (.string start) (raw ++ [34]) =
        some ([.string (unescape (start ++ raw))], .plain) := by
  induction s using stringBody.induct generalizing start raw with
  | case1 => cases h
  | case2 s =>
    rw [stringBody] at h
    obtain ⟨rfl, rfl⟩ := Prod.mk.inj (Option.some.inj h)
    exact ⟨rfl, by simp [Transducer.run, reader, Mode.next]⟩
  | case3 => cases h
  | case4 c s ih =>
    rw [stringBody] at h
    obtain ⟨⟨raw, rest⟩, hbody, heq⟩ := Option.map_eq_some_iff.mp h
    obtain ⟨rfl, rfl⟩ := Prod.mk.inj heq
    obtain ⟨rfl, hrun⟩ := ih hbody (start ++ [92, c])
    have hslash : reader.step (.string start) 92 = some ([], .escape start) := rfl
    have hescape : reader.step (.escape start) c = some ([], .string (start ++ [92, c])) := rfl
    refine ⟨rfl, ?_⟩
    rw [List.cons_append, List.cons_append, Transducer.run_cons_silent hslash,
      Transducer.run_cons_silent hescape, hrun]
    simp
  | case5 c s hquote hlast hslash ih =>
    have hc : c ≠ 34 := hquote
    have hc' : c ≠ 92 := by
      intro hc'
      cases s with
      | nil => exact hlast hc' rfl
      | cons d s => exact hslash d s hc' rfl
    rw [stringBody] at h
    · obtain ⟨⟨raw, rest⟩, hbody, heq⟩ := Option.map_eq_some_iff.mp h
      obtain ⟨rfl, rfl⟩ := Prod.mk.inj heq
      obtain ⟨rfl, hrun⟩ := ih hbody (start ++ [c])
      have hstep : reader.step (.string start) c = some ([], .string (start ++ [c])) := by
        simp [reader, Mode.next, hc, hc']
      refine ⟨rfl, ?_⟩
      rw [List.cons_append, Transducer.run_cons_silent hstep, hrun]
      simp
    all_goals assumption

/-- A string without a closing quote is not read. -/
theorem read_string_eq_none {s : Str} (h : stringBody s = none) (start : Str) :
    reader.read (.string start) s = none := by
  induction s using stringBody.induct generalizing start with
  | case1 => rfl
  | case2 s => simp [stringBody] at h
  | case3 => rfl
  | case4 c s ih =>
    rw [stringBody, Option.map_eq_none_iff] at h
    have hrun : reader.run (.string start) [92, c] = some ([], .string (start ++ [92, c])) := rfl
    exact (Transducer.read_append_silent hrun s).trans (ih h _)
  | case5 c s hquote hlast hslash ih =>
    have hc : c ≠ 34 := hquote
    have hc' : c ≠ 92 := by
      intro hc'
      cases s with
      | nil => exact hlast hc' rfl
      | cons d s => exact hslash d s hc' rfl
    rw [stringBody] at h
    · have hrun : reader.run (.string start) [c] = some ([], .string (start ++ [c])) := by
        simp [Transducer.run, reader, Mode.next, hc, hc']
      exact (Transducer.read_append_silent hrun s).trans (ih (Option.map_eq_none_iff.mp h) _)
    all_goals assumption

/-! ## Tokens -/

/-- The tokens of a match between two offsets. -/
def Match.tokens (start stop : ℕ) : Match → List Token
  | .skipped => []
  | .string raw => [.string start stop (unescape raw)]
  | .openBrace => [.openBrace start]
  | .closeBrace => [.closeBrace start]

theorem Match.tokens_eq_nil_or (found : Match) (start stop : ℕ) :
    found.tokens start stop = [] ∨ ∃ token, found.tokens start stop = [token] := by
  cases found with
  | skipped => exact .inl rfl
  | string | openBrace | closeBrace => exact .inr ⟨_, rfl⟩

def Match.lexemes : Match → List Lexeme
  | .skipped => []
  | .string raw => [.string (unescape raw)]
  | .openBrace => [.openBrace]
  | .closeBrace => [.closeBrace]

theorem Match.lexeme_tokens (found : Match) (start stop : ℕ) :
    (found.tokens start stop).map Token.lexeme = found.lexemes := by
  cases found <;> rfl

/-- What is matched is read to its end, or up to the newline after a comment. -/
structure MatchReads (found : Match) (text rest : Str) : Prop where
  ne_nil : text ≠ []
  run : ∃ mode, reader.run .plain text = some (found.lexemes, mode) ∧
    (mode = .plain ∨
      mode = .comment ∧ found.lexemes = [] ∧ (rest = [] ∨ ∃ rest', rest = 10 :: rest'))
  head : found.lexemes ≠ [] → ∃ c text', text = c :: text' ∧ c ≠ 10

namespace MatchReads

variable {found : Match} {text rest : Str}

theorem read (h : MatchReads found text rest) :
    reader.read .plain (text ++ rest) = (reader.read .plain rest).map (found.lexemes ++ ·) := by
  obtain ⟨mode, hrun, rfl | ⟨rfl, -, rfl | ⟨rest, rfl⟩⟩⟩ := h.run
  · exact Transducer.read_append hrun rest
  · rw [Transducer.read_append hrun]
    rfl
  · rw [Transducer.read_append hrun, read_comment_newline]

/-- A comment is over where a token starts. -/
theorem run_append (h : MatchReads found text rest) {a b : Str} {c : ℕ} {out : List Lexeme}
    (hrest : rest = a ++ c :: b) (hc : c ≠ 10) (ha : reader.run .plain a = some (out, .plain)) :
    reader.run .plain (text ++ a) = some (found.lexemes ++ out, .plain) := by
  obtain ⟨mode, hrun, rfl | ⟨rfl, -, rfl | ⟨rest, rfl⟩⟩⟩ := h.run
  · exact Transducer.run_append_some hrun ha
  · simp at hrest
  · cases a with
    | nil => exact absurd (List.cons.inj hrest).1.symm hc
    | cons d a =>
      obtain rfl := (List.cons.inj hrest).1
      rw [← run_comment_newline] at ha
      exact Transducer.run_append_some hrun ha

end MatchReads

theorem matchReads_of_matchToken {s rest : Str} {found : Match}
    (h : matchToken s = some (found, rest)) :
    ∃ text, s = text ++ rest ∧ MatchReads found text rest := by
  cases s with
  | nil => cases h
  | cons c s =>
  rw [matchToken] at h
  split at h
  · next hspace =>
    obtain ⟨rfl, rfl⟩ := Prod.mk.inj (Option.some.inj h)
    refine ⟨c :: s.takeWhile isSpace, by simp, by simp, ⟨.plain, ?_, .inl rfl⟩, by simp [Match.lexemes]⟩
    apply run_spaces
    intro d hd
    rcases List.mem_cons.mp hd with rfl | hd
    · exact hspace
    · exact List.mem_takeWhile_imp hd
  split at h
  -- a comment goes up to the line break, which is left for what follows
  · next hslash =>
    obtain ⟨rfl, rfl⟩ := Prod.mk.inj (Option.some.inj h)
    obtain ⟨rfl, hhead⟩ := hslash
    obtain ⟨d, s, rfl⟩ := List.exists_cons_of_ne_nil (l := s) (by rintro rfl; simp at hhead)
    obtain rfl : d = 47 := by simpa using hhead
    refine ⟨47 :: 47 :: s.takeWhile (· ≠ 10), by simp, by simp, ⟨.comment, ?_, .inr ⟨rfl, rfl, ?_⟩⟩,
      by simp [Match.lexemes]⟩
    · have hslash : reader.step .plain 47 = some ([], .slash) := rfl
      have hcomment : reader.step .slash 47 = some ([], .comment) := rfl
      rw [Transducer.run_cons_silent hslash, Transducer.run_cons_silent hcomment]
      apply run_comment
      intro c hc
      simpa using List.mem_takeWhile_imp hc
    · rw [List.tail_cons]
      cases hrest : s.dropWhile (· ≠ 10) with
      | nil => exact .inl rfl
      | cons c rest' =>
        have hc : c = 10 := by
          have hne : s.dropWhile (· ≠ 10) ≠ [] := by rw [hrest]; simp
          have hhead := List.head_dropWhile_not _ hne
          simp only [hrest, List.head_cons] at hhead
          simpa using hhead
        exact .inr ⟨rest', by rw [hc]⟩
  split at h
  · next hquote =>
    subst hquote
    obtain ⟨⟨raw, rest⟩, hbody, heq⟩ := Option.map_eq_some_iff.mp h
    obtain ⟨rfl, rfl⟩ := Prod.mk.inj heq
    obtain ⟨rfl, hrun⟩ := run_stringBody hbody []
    have hstep : reader.step .plain 34 = some ([], .string []) := rfl
    refine ⟨34 :: (raw ++ [34]), by simp, by simp, ⟨.plain, ?_, .inl rfl⟩, by simp⟩
    rw [Transducer.run_cons_silent hstep, hrun]
    rfl
  split at h
  · next hopen =>
    subst hopen
    obtain ⟨rfl, rfl⟩ := Prod.mk.inj (Option.some.inj h)
    exact ⟨[123], rfl, by simp, ⟨.plain, rfl, .inl rfl⟩, by simp⟩
  split at h
  · next hclose =>
    subst hclose
    obtain ⟨rfl, rfl⟩ := Prod.mk.inj (Option.some.inj h)
    exact ⟨[125], rfl, by simp, ⟨.plain, rfl, .inl rfl⟩, by simp⟩
  · cases h

theorem read_eq_none_of_matchToken {c : ℕ} {s : Str} (h : matchToken (c :: s) = none) :
    reader.read .plain (c :: s) = none := by
  rw [matchToken] at h
  split at h
  · cases h
  next hspace =>
  split at h
  · cases h
  next hslash =>
  split at h
  · next hquote =>
    subst hquote
    have hrun : reader.run .plain [34] = some ([], .string []) := rfl
    exact (Transducer.read_append_silent hrun s).trans
      (read_string_eq_none (Option.map_eq_none_iff.mp h) [])
  next hquote =>
  split at h
  · cases h
  next hopen =>
  split at h
  · cases h
  next hclose =>
  by_cases hc : c = 47
  · subst hc
    have hrun : reader.run .plain [47] = some ([], .slash) := rfl
    refine (Transducer.read_append_silent hrun s).trans ?_
    cases s with
    | nil => rfl
    | cons d s =>
      have hd : d ≠ 47 := by simpa using hslash
      have hstep : reader.step .slash d = none := by simp [reader, Mode.next, hd]
      rw [Transducer.read, Transducer.run_cons_none hstep]
  · have hstep : reader.step .plain c = none := by
      simp [reader, Mode.next, hspace, hc, hquote, hopen, hclose]
    rw [Transducer.read, Transducer.run_cons_none hstep]

theorem tokensFrom_cons (pos c : ℕ) (s : Str) :
    tokensFrom 0 pos (c :: s) =
      match matchToken (c :: s) with
      | none => .error (.at "unexpected text" pos)
      | some (found, rest) => do
        let tokens ← tokensFrom (s.length - rest.length) (pos + 1) s
        return match found with
          | .skipped => tokens
          | .string raw =>
            .string pos (pos + (s.length + 1 - rest.length)) (unescape raw) :: tokens
          | .openBrace => .openBrace pos :: tokens
          | .closeBrace => .closeBrace pos :: tokens := (rfl)

theorem tokensFrom_nil (pos : ℕ) : tokensFrom 0 pos [] = .ok [] := rfl

theorem tokensFrom_succ (skip pos c : ℕ) (s : Str) :
    tokensFrom (skip + 1) pos (c :: s) = tokensFrom skip (pos + 1) s := rfl

theorem tokensFrom_skip (text s : Str) (pos : ℕ) :
    tokensFrom text.length pos (text ++ s) = tokensFrom 0 (pos + text.length) s := by
  induction text generalizing pos with
  | nil => rfl
  | cons c text ih =>
    rw [List.length_cons, List.cons_append, tokensFrom_succ, ih]
    congr 1
    omega

/-- The loop goes on where a match ends. -/
theorem tokensFrom_of_matchToken {text rest : Str} {found : Match} (htext : text ≠ [])
    (h : matchToken (text ++ rest) = some (found, rest)) (pos : ℕ) :
    tokensFrom 0 pos (text ++ rest) =
      (found.tokens pos (pos + text.length) ++ ·) <$> tokensFrom 0 (pos + text.length) rest := by
  obtain ⟨c, text, rfl⟩ := List.exists_cons_of_ne_nil htext
  rw [List.cons_append] at h ⊢
  have hskip : (text ++ rest).length - rest.length = text.length := by simp
  have hstop : (text ++ rest).length + 1 - rest.length = (c :: text).length := by
    simp
    omega
  rw [tokensFrom_cons, h]
  simp only
  rw [hskip, hstop, tokensFrom_skip, List.length_cons, Nat.add_right_comm, Nat.add_assoc pos]
  cases tokensFrom 0 (pos + (text.length + 1)) rest with
  | error e => rfl
  | ok tokens => cases found <;> rfl

/-- A text's tokens have the lexemes that the reader emits. -/
theorem lexemes_tokensFrom (pos : ℕ) (s : Str) :
    (tokensFrom 0 pos s).toOption.map (·.map Token.lexeme) = reader.read .plain s := by
  induction hn : s.length using Nat.strong_induction_on generalizing s pos with
  | _ n ih =>
  subst hn
  cases s with
  | nil => rfl
  | cons c s =>
    cases hmatch : matchToken (c :: s) with
    | none =>
      rw [read_eq_none_of_matchToken hmatch, tokensFrom_cons, hmatch]
      rfl
    | some found =>
      obtain ⟨found, rest⟩ := found
      obtain ⟨text, htext, hreads⟩ := matchReads_of_matchToken hmatch
      rw [htext] at hmatch ih ⊢
      have hlt : rest.length < (text ++ rest).length := by
        have := List.length_pos_iff.mpr hreads.ne_nil
        simp
        omega
      rw [tokensFrom_of_matchToken hreads.ne_nil hmatch, hreads.read,
        ← ih _ hlt (pos + text.length) rest rfl]
      cases tokensFrom 0 (pos + text.length) rest with
      | error e => rfl
      | ok tokens => simp [Except.toOption, Match.lexeme_tokens]

/-- A token at its place in a text. -/
structure TokenAt (token : Token) (pos : ℕ) (before after : List Lexeme) (front text rest : Str) :
    Prop where
  run_front : reader.run .plain front = some (before, .plain)
  run_text : reader.run .plain text = some ([token.lexeme], .plain)
  read_rest : reader.read .plain rest = some after
  head : ∃ c text', text = c :: text' ∧ c ≠ 10
  offsets : ∃ found : Match,
    found.tokens (pos + front.length) (pos + front.length + text.length) = [token]

/-- What is before a token is read to the end of a token or of whitespace. -/
theorem exists_tokenAt {pos : ℕ} {s : Str} {before after : List Token} {token : Token}
    (h : tokensFrom 0 pos s = .ok (before ++ token :: after)) :
    ∃ front text rest, s = front ++ (text ++ rest) ∧
      TokenAt token pos (before.map Token.lexeme) (after.map Token.lexeme) front text rest := by
  -- on the length, since a match can take any number of characters
  induction hn : s.length using Nat.strong_induction_on generalizing s pos before with
  | _ n ih =>
  subst hn
  cases s with
  | nil =>
    rw [tokensFrom_nil] at h
    simp at h
  | cons c s =>
  cases hmatch : matchToken (c :: s) with
  | none =>
    rw [tokensFrom_cons, hmatch] at h
    cases h
  | some found =>
  obtain ⟨found, rest⟩ := found
  obtain ⟨text, htext, hreads⟩ := matchReads_of_matchToken hmatch
  rw [htext] at hmatch ih h ⊢
  have hlt : rest.length < (text ++ rest).length := by
    have := List.length_pos_iff.mpr hreads.ne_nil
    simp
    omega
  rw [tokensFrom_of_matchToken hreads.ne_nil hmatch] at h
  cases htokens : tokensFrom 0 (pos + text.length) rest with
  | error e =>
    rw [htokens] at h
    cases h
  | ok tokens =>
  rw [htokens] at h
  have heq : found.tokens pos (pos + text.length) ++ tokens = before ++ token :: after :=
    Except.ok.inj h
  have hlexemes := found.lexeme_tokens pos (pos + text.length)
  -- the token comes later: what was matched goes in front
  have hlater (before') (hbefore : before = found.tokens pos (pos + text.length) ++ before')
      (htoken : tokens = before' ++ token :: after) : ∃ front text' rest',
        text ++ rest = front ++ (text' ++ rest') ∧
        TokenAt token pos (before.map Token.lexeme) (after.map Token.lexeme) front text' rest' := by
    subst htoken
    obtain ⟨front, text', rest', rfl, hat⟩ := ih _ hlt htokens rfl
    obtain ⟨d, text'', rfl, hd⟩ := hat.head
    refine ⟨text ++ front, d :: text'', rest', by simp, ?_, hat.run_text, hat.read_rest,
      ⟨d, text'', rfl, hd⟩, ?_⟩
    · rw [hbefore, List.map_append, hlexemes]
      exact hreads.run_append rfl hd hat.run_front
    · simpa [Nat.add_assoc] using hat.offsets
  -- a match gives no token where it is blank or a comment, and else one
  rcases found.tokens_eq_nil_or pos (pos + text.length) with hnone | ⟨first, hone⟩
  · rw [hnone, List.nil_append] at heq
    exact hlater before (by rw [hnone, List.nil_append]) heq
  · rw [hone, List.singleton_append] at heq
    cases before with
    | nil =>
      obtain ⟨rfl, rfl⟩ := List.cons.inj heq
      rw [hone] at hlexemes
      have hne : found.lexemes ≠ [] := by
        rw [← hlexemes]
        simp
      obtain ⟨mode, hrun, rfl | ⟨-, hnil, -⟩⟩ := hreads.run
      · refine ⟨[], text, rest, rfl, rfl, ?_, ?_, hreads.head hne, found, by simpa using hone⟩
        · rw [hrun, ← hlexemes]
          rfl
        · rw [← lexemes_tokensFrom (pos + text.length), htokens]
          rfl
      · exact absurd hnil hne
    | cons second before =>
      rw [List.cons_append] at heq
      obtain ⟨rfl, htail⟩ := List.cons.inj heq
      exact hlater before (by rw [hone, List.singleton_append]) htail

/-! ## Denotation -/

/-- A text denotes the trees that its lexemes write. -/
theorem denotation_eq_some {text : Str} {trees : List Tree} :
    denotation text = some trees ↔ reader.read .plain text = some (flatten trees) := by
  rw [← lexemes_tokensFrom 0 text, denotation, parseVdf]
  cases tokensFrom 0 0 text with
  | error e => simp [bind, Except.bind, Except.toOption]
  | ok tokens =>
    simp only [bind, Except.bind, Except.toOption, Option.map_some, Option.some.injEq]
    constructor
    · intro h
      split at h
      · next nodes hparse =>
        rw [← Option.some.inj h]
        exact (parseTokens_eq_ok.mp hparse).lexemes
      · cases h
    · intro h
      obtain ⟨nodes, hreads, rfl⟩ := exists_reads_of_lexemes h
      rw [parseTokens_eq_ok.mpr hreads]

end Install
end Bg3le
