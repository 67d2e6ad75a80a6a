import Bg3le.Install.VdfReaderTheorems

/-!
# One text read from two modes

A reader outside strings and one inside a string see each other's strings as text. The first one
can emit a string that starts with a letter only where both are in the same mode.
-/

namespace Bg3le
namespace Install

variable {mode mode' : Mode} {s : Str} {out out' : List Lexeme} {c : ℕ}

/-! ## Steps -/

theorem step_plain_cases (h : reader.step .plain c = some (out, mode)) :
    (isSpace c ∧ out = [] ∧ mode = .plain) ∨ (c = 47 ∧ out = [] ∧ mode = .slash) ∨
      (c = 34 ∧ out = [] ∧ mode = .string []) ∨ (c = 123 ∧ out = [.openBrace] ∧ mode = .plain) ∨
      (c = 125 ∧ out = [.closeBrace] ∧ mode = .plain) := by
  simp only [reader, Mode.next] at h
  split at h
  · next hspace =>
    obtain ⟨rfl, rfl⟩ := Prod.mk.inj (Option.some.inj h)
    exact .inl ⟨hspace, rfl, rfl⟩
  repeat'
    split at h
    · next hc =>
      obtain ⟨rfl, rfl⟩ := Prod.mk.inj (Option.some.inj h)
      simp [hc]
  cases h

theorem step_slash_cases (h : reader.step .slash c = some (out, mode)) :
    c = 47 ∧ out = [] ∧ mode = .comment := by
  simp only [reader, Mode.next] at h
  split at h
  · next hc =>
    obtain ⟨rfl, rfl⟩ := Prod.mk.inj (Option.some.inj h)
    exact ⟨hc, rfl, rfl⟩
  · cases h

theorem step_comment (c : ℕ) :
    reader.step .comment c = some ([], if c = 10 then .plain else .comment) := rfl

theorem step_string {raw : Str} (hquote : c ≠ 34) (hslash : c ≠ 92) :
    reader.step (.string raw) c = some ([], .string (raw ++ [c])) := by
  simp [reader, Mode.next, hquote, hslash]

theorem step_escape (raw : Str) (c : ℕ) :
    reader.step (.escape raw) c = some ([], .string (raw ++ [92, c])) := rfl

theorem ne_of_isSpace (h : isSpace c) : c ≠ 34 ∧ c ≠ 47 ∧ c ≠ 92 ∧ c ≠ 123 ∧ c ≠ 125 ∧ c ≠ 76 := by
  refine ⟨?_, ?_, ?_, ?_, ?_, ?_⟩ <;> rintro rfl <;> exact absurd h (by decide)

/-! ## Inside a string -/

/-- The text of a string so far. -/
def Mode.raw : Mode → Option Str
  | .string raw | .escape raw => some raw
  | _ => none

/-- A string stays open, or is emitted with what was read of it. -/
theorem run_raw {raw : Str} (hmode : mode.raw = some raw)
    (h : reader.run mode s = some (out, mode')) :
    (out = [] ∧ mode'.raw ≠ none) ∨ ∃ body rest, out = .string (unescape (raw ++ body)) :: rest := by
  induction s generalizing mode raw out with
  | nil =>
    obtain ⟨rfl, rfl⟩ := Prod.mk.inj (Option.some.inj h)
    exact .inl ⟨rfl, by simp [hmode]⟩
  | cons c s ih =>
    obtain ⟨head, mid, tail, hstep, htail, rfl⟩ := Transducer.exists_of_run_cons h
    have hlater {more} (hraw : mid.raw = some (raw ++ more)) (hhead : head = []) :
        (head ++ tail = [] ∧ mode'.raw ≠ none) ∨
          ∃ body rest, head ++ tail = .string (unescape (raw ++ body)) :: rest := by
      subst hhead
      rcases ih hraw htail with hopen | ⟨body, rest, rfl⟩
      · exact .inl hopen
      · exact .inr ⟨more ++ body, rest, by simp⟩
    cases mode with
    | plain | slash | comment => cases hmode
    | escape start =>
      obtain rfl := Option.some.inj hmode
      obtain ⟨rfl, rfl⟩ := Prod.mk.inj (Option.some.inj (hstep.symm.trans (step_escape start c)))
      exact hlater rfl rfl
    | string start =>
      obtain rfl := Option.some.inj hmode
      simp only [reader, Mode.next] at hstep
      split at hstep
      · obtain ⟨rfl, rfl⟩ := Prod.mk.inj (Option.some.inj hstep)
        exact .inr ⟨[], tail, by simp⟩
      split at hstep
      · obtain ⟨rfl, rfl⟩ := Prod.mk.inj (Option.some.inj hstep)
        exact @hlater [] (by simp [Mode.raw]) rfl
      · obtain ⟨rfl, rfl⟩ := Prod.mk.inj (Option.some.inj hstep)
        exact hlater rfl rfl

theorem newline_mem_unescape (h : 10 ∈ s) : 10 ∈ unescape s := by
  induction s using unescape.induct with
  | case1 => exact h
  | case2 s ih => simp [unescape]
  | case3 c s hnewline ih =>
    rw [unescape]
    · have hs : 10 ∈ s := by
        rcases List.mem_cons.mp h with h | h
        · cases h
        · rcases List.mem_cons.mp h with rfl | h
          · exact absurd rfl hnewline
          · exact h
      exact List.mem_cons_of_mem _ (ih hs)
    · exact hnewline
  | case4 c s hslash hslash' ih =>
    rw [unescape]
    · rcases List.mem_cons.mp h with rfl | h
      · exact List.mem_cons_self
      · exact List.mem_cons_of_mem _ (ih h)
    · exact hslash
    · exact hslash'

/-- The first character of a string is the first one after its quote, but for an escape. -/
theorem head_unescape {d : ℕ} (hd : d ≠ 92) (s : Str) : (unescape (d :: s)).head? = some d := by
  rw [unescape]
  · rfl
  · intro s' h
    exact absurd h hd
  · intro c' s' h
    exact absurd h hd

/-! ## Two modes -/

/-- One reader is outside strings and the other one inside a string, or anywhere when the first is
in a comment. -/
def Abreast : Mode → Mode → Prop
  | .plain, .string _ | .slash, .string _ | .comment, _ => True
  | _, _ => False

/-- What the first of two readers abreast emits: no string until both are in the same mode, or
until it reads one that starts with what the other reads outside of strings. -/
def Misread (out out' : List Lexeme) (mode mode' : Mode) : Prop :=
  ∃ braces rest, out = braces ++ rest ∧ (∀ text, .string text ∉ braces) ∧
    ((rest = [] ∧ Abreast mode mode') ∨ (rest <:+ out' ∧ mode = mode') ∨
      (∃ text rest', rest = .string text :: rest' ∧ text.head? ≠ some 76) ∨
      (rest = [] ∧ mode.raw ≠ none))

theorem Misread.cons {head : Lexeme} (h : Misread out out' mode mode')
    (hhead : ∀ text, head ≠ .string text) : Misread (head :: out) out' mode mode' := by
  obtain ⟨braces, rest, rfl, hbraces, h⟩ := h
  refine ⟨head :: braces, rest, rfl, fun text => ?_, h⟩
  simp only [List.mem_cons, not_or]
  exact ⟨(hhead text).symm, hbraces text⟩

theorem Misread.append_right {more : List Lexeme} (h : Misread out out' mode mode') :
    Misread out (more ++ out') mode mode' := by
  obtain ⟨braces, rest, rfl, hbraces, h⟩ := h
  refine ⟨braces, rest, rfl, hbraces, ?_⟩
  rcases h with h | ⟨hsuffix, heq⟩ | h
  · exact .inl h
  · exact .inr (.inl ⟨hsuffix.trans (List.suffix_append more out'), heq⟩)
  · exact .inr (.inr h)

/-- The first reader opens a string where the other one closes its own. -/
theorem misread_of_quote {last last' : Mode} (h : reader.run (.string []) s = some (out, last))
    (h' : reader.run .plain s = some (out', last')) : Misread out out' last last' := by
  cases s with
  | nil =>
    obtain ⟨rfl, rfl⟩ := Prod.mk.inj (Option.some.inj h)
    exact ⟨[], [], rfl, by simp, .inr (.inr (.inr ⟨rfl, by simp [Mode.raw]⟩))⟩
  | cons d s =>
    obtain ⟨head, mid, tail, hstep, -, -⟩ := Transducer.exists_of_run_cons h'
    have hd : d ≠ 92 ∧ d ≠ 76 := by
      rcases step_plain_cases hstep with ⟨hspace, -⟩ | ⟨rfl, -⟩ | ⟨rfl, -⟩ | ⟨rfl, -⟩ | ⟨rfl, -⟩
      · exact ⟨(ne_of_isSpace hspace).2.2.1, (ne_of_isSpace hspace).2.2.2.2.2⟩
      all_goals decide
    by_cases hquote : d = 34
    · subst hquote
      have hclose : reader.step (.string []) 34 = some ([.string []], .plain) := rfl
      rw [Transducer.run_cons hclose] at h
      obtain ⟨⟨more, last⟩, -, heq⟩ := Option.map_eq_some_iff.mp h
      obtain ⟨rfl, rfl⟩ := Prod.mk.inj heq
      exact ⟨[], _, rfl, by simp, .inr (.inr (.inl ⟨[], more, rfl, by simp⟩))⟩
    · rw [Transducer.run_cons_silent (step_string hquote hd.1)] at h
      rcases run_raw rfl h with ⟨rfl, hraw⟩ | ⟨body, rest, rfl⟩
      · exact ⟨[], [], rfl, by simp, .inr (.inr (.inr ⟨rfl, hraw⟩))⟩
      · refine ⟨[], _, rfl, by simp, .inr (.inr (.inl ⟨_, rest, rfl, ?_⟩))⟩
        rw [List.nil_append, List.singleton_append, head_unescape hd.1]
        simp [hd.2]

/-- Two readers abreast over one text. -/
theorem misread_of_abreast {last last' : Mode} (habreast : Abreast mode mode')
    (h : reader.run mode s = some (out, last)) (h' : reader.run mode' s = some (out', last')) :
    Misread out out' last last' := by
  induction s generalizing mode mode' out out' with
  | nil =>
    obtain ⟨rfl, rfl⟩ := Prod.mk.inj (Option.some.inj h)
    obtain ⟨rfl, rfl⟩ := Prod.mk.inj (Option.some.inj h')
    exact ⟨[], [], rfl, by simp, .inl ⟨rfl, habreast⟩⟩
  | cons c s ih =>
    obtain ⟨head, mid, tail, hstep, htail, rfl⟩ := Transducer.exists_of_run_cons h
    obtain ⟨head', mid', tail', hstep', htail', rfl⟩ := Transducer.exists_of_run_cons h'
    have hlater (hmid : Abreast mid mid') : Misread tail (head' ++ tail') last last' :=
      (ih hmid htail htail').append_right
    match mode, mode', habreast with
    | .plain, .string raw, _ =>
      have hstring (hquote : c ≠ 34) (hslash : c ≠ 92) : mid' = .string (raw ++ [c]) :=
        (Prod.mk.inj (Option.some.inj (hstep'.symm.trans (step_string hquote hslash)))).2
      rcases step_plain_cases hstep with ⟨hspace, rfl, rfl⟩ | ⟨rfl, rfl, rfl⟩ | ⟨rfl, rfl, rfl⟩ |
        ⟨rfl, rfl, rfl⟩ | ⟨rfl, rfl, rfl⟩
      · obtain ⟨hquote, -, hslash, -⟩ := ne_of_isSpace hspace
        apply hlater
        rw [hstring hquote hslash]
        trivial
      · apply hlater
        rw [hstring (by decide) (by decide)]
        trivial
      · obtain ⟨rfl, rfl⟩ := Prod.mk.inj (Option.some.inj hstep')
        exact (misread_of_quote htail htail').append_right
      · refine Misread.cons (hlater ?_) (by simp)
        rw [hstring (by decide) (by decide)]
        trivial
      · refine Misread.cons (hlater ?_) (by simp)
        rw [hstring (by decide) (by decide)]
        trivial
    | .slash, .string raw, _ =>
      obtain ⟨rfl, rfl, rfl⟩ := step_slash_cases hstep
      exact hlater trivial
    | .comment, other, _ =>
      obtain ⟨rfl, rfl⟩ := Prod.mk.inj (Option.some.inj (hstep.symm.trans (step_comment c)))
      by_cases hc : c = 10
      · subst hc
        -- a comment is over: the readers meet unless the other one is in a string
        have hmeet (hmid : mid' = .plain) :
            Misread ([] ++ tail) (head' ++ tail') last last' := by
          subst hmid
          obtain ⟨rfl, rfl⟩ := Prod.mk.inj (Option.some.inj (htail.symm.trans htail'))
          exact ⟨[], tail, rfl, by simp, .inr (.inl ⟨List.suffix_append head' tail, rfl⟩)⟩
        cases other with
        | plain | comment =>
          obtain ⟨rfl, rfl⟩ := Prod.mk.inj (Option.some.inj hstep')
          exact hmeet rfl
        | slash => exact absurd (step_slash_cases hstep').1 (by decide)
        | string raw | escape raw =>
          obtain ⟨rfl, rfl⟩ := Prod.mk.inj (Option.some.inj hstep')
          exact hlater trivial
      · apply hlater
        rw [if_neg hc]
        trivial

end Install
end Bg3le
