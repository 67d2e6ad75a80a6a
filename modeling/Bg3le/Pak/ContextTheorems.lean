import Bg3le.Pak.AlikeTheorems
import Mathlib.Data.List.TakeWhile

/-!
# The tokens of a text in another case

Quotes and line breaks are no letters, so that a text has its tokens at the same places in every
case. Their contexts depend on where a line has `data "` or `id="` in it, in this case.
-/

namespace Bg3le
namespace Pak

variable {a b s s' pre pre' needle word : Bytes} {c q : UInt8} {k n p at_ skip start : ℕ}

/-- `"` or `'`. -/
def IsQuote (c : UInt8) : Prop := c = 34 ∨ c = 39

/-- What stands before the quote of a context. -/
def leadWords : List Bytes := [bytes "data ", bytes "id="]

/-- The contexts of both texts begin at the same places. -/
def SameLeads (s s' : Bytes) : Prop :=
  ∀ word ∈ leadWords, ∀ p, word ++ [34] <+: s.drop p ↔ word ++ [34] <+: s'.drop p

/-- A range of a text between quotes, with no quote inside, whose end is no lead. -/
structure Enclosed (s : Bytes) (start n : ℕ) : Prop where
  pos : 1 ≤ start
  before : ∃ q, IsQuote q ∧ s[start - 1]? = some q
  after : ∃ q, IsQuote q ∧ s[start + n]? = some q
  inside {k : ℕ} {q : UInt8} (hq : IsQuote q) (hk : start ≤ k) (hk' : k < start + n) : s[k]? ≠ some q
  noLead {word : Bytes} (hword : word ∈ leadWords) : iendsWith (slice s start n) word = false

theorem IsQuote.not_letter (h : IsQuote c) : ¬ (97 ≤ c ∧ c ≤ 122) ∧ ¬ (65 ≤ c ∧ c ≤ 90) := by
  rcases h with rfl | rfl <;> decide

theorem CaseEq.quote_iff (h : CaseEq s s') (hq : IsQuote q) (k : ℕ) :
    s[k]? = some q ↔ s'[k]? = some q :=
  h.getElem?_iff hq.not_letter.1 hq.not_letter.2 k

theorem Enclosed.of_caseEq (h : Enclosed s start n) (hcase : CaseEq s s') : Enclosed s' start n where
  pos := h.pos
  before := by
    obtain ⟨q, hq, hget⟩ := h.before
    exact ⟨q, hq, (hcase.quote_iff hq _).mp hget⟩
  after := by
    obtain ⟨q, hq, hget⟩ := h.after
    exact ⟨q, hq, (hcase.quote_iff hq _).mp hget⟩
  inside hq hk hk' hget := h.inside hq hk hk' ((hcase.quote_iff hq _).mpr hget)
  noLead hword := by
    rw [← (hcase.slice _ _).iendsWith]
    exact h.noLead hword

/-! ## Leads -/

theorem prefix_drop_iff : needle <+: s.drop p ↔
    ∀ j (hj : j < needle.length), s[p + j]? = some needle[j] := by
  rw [List.prefix_iff_getElem?]
  simp only [List.getElem?_drop]

theorem not_isQuote_of_mem_leadWords (hword : word ∈ leadWords) (hc : c ∈ word) : ¬ IsQuote c := by
  have hall : ∀ word ∈ leadWords, ∀ c ∈ word, c ≠ 34 ∧ c ≠ 39 := by decide +kernel
  rintro (rfl | rfl)
  · exact (hall word hword _ hc).1 rfl
  · exact (hall word hword _ hc).2 rfl

/-- A lead stays where only enclosed ranges change. -/
theorem lead_kept
    (hdiff : ∀ k, s[k]? ≠ s'[k]? → ∃ start n, Enclosed s start n ∧ start ≤ k ∧ k < start + n)
    (hword : word ∈ leadWords) (h : word ++ [34] <+: s.drop p) : word ++ [34] <+: s'.drop p := by
  rw [prefix_drop_iff] at h ⊢
  have hquote : s[p + word.length]? = some 34 := by
    rw [h _ (by simp)]
    simp
  have hget {j : ℕ} (hj : j < word.length) : s[p + j]? = some word[j] := by
    rw [h j (by rw [List.length_append]; omega), List.getElem_append_left hj]
  have hplain {j : ℕ} {q : UInt8} (hj : j < word.length) (hq : IsQuote q) : s[p + j]? ≠ some q := by
    rw [hget hj]
    intro heq
    exact not_isQuote_of_mem_leadWords hword (List.getElem_mem hj) (Option.some.inj heq ▸ hq)
  intro j hj
  rw [← h j hj]
  by_contra hne
  obtain ⟨start, n, henclosed, hstart, hstop⟩ := hdiff (p + j) (Ne.symm hne)
  have hjword : j < word.length := by
    rw [List.length_append, List.length_singleton] at hj
    by_contra hle
    obtain rfl : j = word.length := by omega
    exact henclosed.inside (.inl rfl) hstart hstop hquote
  -- no quote stands in the word, so that it ends where the range does
  obtain ⟨q, hq, hbefore⟩ := henclosed.before
  obtain ⟨q', hq', hafter⟩ := henclosed.after
  have hpos := henclosed.pos
  have hp : start ≤ p := by
    by_contra hlt
    apply hplain (j := start - 1 - p) (by omega) hq
    rwa [show p + (start - 1 - p) = start - 1 by omega]
  have hend : p + word.length ≤ start + n := by
    by_contra hlt
    apply hplain (j := start + n - p) (by omega) hq'
    rwa [show p + (start + n - p) = start + n by omega]
  have hend' : start + n ≤ p + word.length := by
    by_contra hlt
    exact henclosed.inside (.inl rfl) (by omega) (by omega) hquote
  have hlength : (slice s start n).length = n := by
    apply length_slice
    exact (List.getElem?_eq_some_iff.mp hafter).1.le
  have hends : (slice s start n).drop (n - word.length) = word := by
    apply List.ext_getElem?
    intro k
    rw [List.getElem?_drop, slice, List.getElem?_take]
    split
    · rw [List.getElem?_drop, show start + (n - word.length + k) = p + k by omega]
      by_cases hk : k < word.length
      · rw [hget hk, List.getElem?_eq_getElem hk]
      · omega
    · rw [List.getElem?_eq_none (by omega)]
  have hlead := henclosed.noLead hword
  unfold iendsWith at hlead
  rw [hlength, hends] at hlead
  simp [iequals] at hlead
  omega

theorem sameLeads (hcase : CaseEq s s')
    (hdiff : ∀ k, s[k]? ≠ s'[k]? → ∃ start n, Enclosed s start n ∧ start ≤ k ∧ k < start + n) :
    SameLeads s s' := by
  intro word hword p
  constructor
  · exact lead_kept hdiff hword
  · apply lead_kept _ hword
    intro k hk
    obtain ⟨start, n, henclosed, hrange⟩ := hdiff k (Ne.symm hk)
    exact ⟨start, n, henclosed.of_caseEq hcase, hrange⟩

/-- The leads of a line. -/
theorem SameLeads.line (h : SameLeads (pre ++ s) (pre' ++ s')) (hlength : pre.length = pre'.length)
    (start : ℕ) : SameLeads (pre.drop start) (pre'.drop start) := by
  have hline {pre s : Bytes} {word : Bytes} (p : ℕ) : word ++ [34] <+: (pre.drop start).drop p ↔
      word ++ [34] <+: (pre ++ s).drop (start + p) ∧ start + p + (word.length + 1) ≤ pre.length := by
    rw [List.drop_drop, prefix_drop_iff, prefix_drop_iff]
    constructor
    · intro hall
      have hlast := hall word.length (by simp)
      have hlt := (List.getElem?_eq_some_iff.mp hlast).1
      refine ⟨fun j hj => ?_, by omega⟩
      rw [List.getElem?_append_left, hall j hj]
      rw [List.length_append, List.length_singleton] at hj
      omega
    · rintro ⟨hall, hle⟩ j hj
      rw [← hall j hj, List.getElem?_append_left]
      rw [List.length_append, List.length_singleton] at hj
      omega
  intro word hword p
  rw [hline (s := s), hline (s := s'), h word hword, hlength]

/-! ## Contexts -/

theorem find_congr (hlength : a.length = b.length)
    (h : ∀ p, needle <+: a.drop p ↔ needle <+: b.drop p) : find needle a = find needle b := by
  induction a generalizing b with
  | nil =>
    obtain rfl := List.eq_nil_of_length_eq_zero hlength.symm
    rfl
  | cons c a ih =>
    match b with
    | [] => cases hlength
    | d :: b =>
      have hfirst := h 0
      rw [List.drop_zero, List.drop_zero] at hfirst
      unfold find
      rw [ih (Nat.succ.inj hlength) fun p => h (p + 1)]
      by_cases hc : needle <+: c :: a
      · rw [if_pos hc, if_pos (hfirst.mp hc)]
      · rw [if_neg hc, if_neg (mt hfirst.mpr hc)]

theorem CaseEq.idxOf? (h : CaseEq a b) (hlow : ¬ (97 ≤ c ∧ c ≤ 122)) (hhigh : ¬ (65 ≤ c ∧ c ≤ 90)) :
    a.idxOf? c = b.idxOf? c := by
  have hmap (s : Bytes) : (s.map lower).idxOf? c = s.idxOf? c := by
    induction s with
    | nil => rfl
    | cons d s ih =>
      rw [List.map_cons, List.idxOf?_cons, List.idxOf?_cons, ih]
      have hiff : lower d = c ↔ d = c := by
        constructor
        · exact lower_eq_of_not_letter hlow
        · rintro rfl
          exact lower_self hhigh
      simp only [beq_iff_eq, hiff]
  rw [← hmap a, ← hmap b, h]

/-- The contexts at the end of two lines. -/
theorem context_caseEq (h : CaseEq a b) (hleads : SameLeads a b) : CaseEq (context a) (context b) := by
  have hfield (word : Bytes) (hword : word ∈ leadWords) :
      Option.Rel CaseEq
        (do let p ← find (word ++ [34]) a
            let stop ← (a.drop (p + (word ++ [34]).length)).idxOf? 34
            return (a.drop (p + (word ++ [34]).length)).take stop)
        (do let p ← find (word ++ [34]) b
            let stop ← (b.drop (p + (word ++ [34]).length)).idxOf? 34
            return (b.drop (p + (word ++ [34]).length)).take stop) := by
    rw [find_congr h.length_eq (hleads word hword)]
    cases find (word ++ [34]) b with
    | none => exact .none
    | some p =>
      have hrest := h.drop (p + (word ++ [34]).length)
      simp only [Option.bind_eq_bind, Option.bind_some]
      rw [hrest.idxOf? (by decide) (by decide)]
      cases (b.drop (p + (word ++ [34]).length)).idxOf? 34 with
      | none => exact .none
      | some stop => exact .some (hrest.take stop)
  have hdata := hfield (bytes "data ") (by decide)
  have hid := hfield (bytes "id=") (by decide)
  have hor {x y x' y' : Option Bytes} (hx : Option.Rel CaseEq x x') (hy : Option.Rel CaseEq y y') :
      CaseEq ((x.or y).getD []) ((x'.or y').getD []) := by
    cases hx with
    | some hx => exact hx
    | none =>
      cases hy with
      | some hy => exact hy
      | none => rfl
  exact hor hdata hid

/-! ## Tokens -/

theorem quoted_caseEq (h : CaseEq s s') (hq : IsQuote q) :
    Option.Rel (fun body body' : Bytes => body.length = body'.length) (quoted q s) (quoted q s') := by
  have hlength (s : Bytes) : (((s.map lower).take 256).takeWhile fun c => c ≠ q ∧ c ≠ 10).length =
      ((s.take 256).takeWhile fun c => c ≠ q ∧ c ≠ 10).length := by
    have hiff {d : UInt8} (hlow : ¬ (97 ≤ d ∧ d ≤ 122)) (hhigh : ¬ (65 ≤ d ∧ d ≤ 90)) (c : UInt8) :
        lower c = d ↔ c = d := by
      constructor
      · exact lower_eq_of_not_letter hlow
      · rintro rfl
        exact CaseEq.lower_self hhigh
    rw [← List.map_take, List.takeWhile_map, List.length_map]
    congr 2
    funext c
    simp only [Function.comp_apply, ne_eq, hiff hq.not_letter.1 hq.not_letter.2,
      hiff (d := 10) (by decide) (by decide)]
  have heq : ((s.take 256).takeWhile fun c => c ≠ q ∧ c ≠ 10).length =
      ((s'.take 256).takeWhile fun c => c ≠ q ∧ c ≠ 10).length := by
    rw [← hlength s, ← hlength s', h]
  unfold quoted
  simp only [heq]
  have hiff := h.quote_iff hq ((s'.take 256).takeWhile fun c => c ≠ q ∧ c ≠ 10).length
  split
  · next hget =>
    rw [if_pos (hiff.mp hget)]
    exact .some heq
  · next hget =>
    rw [if_neg (mt hiff.mpr hget)]
    exact .none

/-- The tokens of two texts that are the same up to case, from the same place on. -/
theorem textTokens_alike (pre pre' : Bytes) (start : ℕ)
    (hcase : CaseEq (pre ++ s) (pre' ++ s')) (hlength : pre.length = pre'.length)
    (hleads : SameLeads (pre ++ s) (pre' ++ s')) (hstart : start ≤ pre.length) :
    List.Forall₂ LsfString.Alike (textTokens skip (pre.drop start) at_ s)
      (textTokens skip (pre'.drop start) at_ s') := by
  -- along the text; the line so far starts at `start` of what was read
  induction s generalizing pre pre' s' skip at_ start with
  | nil =>
    have hnil := hcase.length_eq
    rw [List.length_append, List.length_append, hlength] at hnil
    obtain rfl : s' = [] := List.eq_nil_of_length_eq_zero (by simpa using hnil.symm)
    cases skip <;> exact .nil
  | cons c s ih =>
    match s' with
    | [] =>
      have hnil := hcase.length_eq
      simp only [List.length_append, List.length_cons, List.length_nil] at hnil
      omega
    | c' :: s' =>
      have hnext : CaseEq ((pre ++ [c]) ++ s) ((pre' ++ [c']) ++ s') := by simpa using hcase
      have hleads' : SameLeads ((pre ++ [c]) ++ s) ((pre' ++ [c']) ++ s') := by simpa using hleads
      have hlength' : (pre ++ [c]).length = (pre' ++ [c']).length := by simp [hlength]
      have hdrop : pre.drop start ++ [c] = (pre ++ [c]).drop start :=
        (List.drop_append_of_le_length hstart).symm
      have hdrop' : pre'.drop start ++ [c'] = (pre' ++ [c']).drop start :=
        (List.drop_append_of_le_length (hlength ▸ hstart)).symm
      have hstep (skip : ℕ) : List.Forall₂ LsfString.Alike
          (textTokens skip (pre.drop start ++ [c]) (at_ + 1) s)
          (textTokens skip (pre'.drop start ++ [c']) (at_ + 1) s') := by
        rw [hdrop, hdrop']
        exact ih _ _ start hnext hlength' hleads' (by rw [List.length_append]; omega)
      have hrest : CaseEq s s' := by
        have := hcase.drop (pre.length + 1)
        rw [List.drop_length_add_append, hlength, List.drop_length_add_append] at this
        exact this
      -- letters apart, both texts have the same byte here
      have hchar {d : UInt8} (hlow : ¬ (97 ≤ d ∧ d ≤ 122)) (hhigh : ¬ (65 ≤ d ∧ d ≤ 90)) :
          c = d ↔ c' = d := by
        have := hcase.getElem?_iff hlow hhigh pre.length
        rw [List.getElem?_append_right le_rfl, List.getElem?_append_right (by omega)] at this
        simpa [hlength] using this
      cases skip with
      | succ skip => exact hstep skip
      | zero =>
        unfold textTokens
        -- a new line begins, and with it a new context
        by_cases hline : c = 10
        · rw [if_pos hline, if_pos ((hchar (by decide) (by decide)).mp hline)]
          have hnil : (pre ++ [c]).drop (pre.length + 1) = [] := by simp
          have hnil' : (pre' ++ [c']).drop (pre.length + 1) = [] := by simp [hlength]
          have htokens : List.Forall₂ LsfString.Alike
              (textTokens 0 ((pre ++ [c]).drop (pre.length + 1)) (at_ + 1) s)
              (textTokens 0 ((pre' ++ [c']).drop (pre.length + 1)) (at_ + 1) s') :=
            ih _ _ _ hnext hlength' hleads' (by simp)
          rwa [hnil, hnil'] at htokens
        · rw [if_neg hline, if_neg (mt (hchar (by decide) (by decide)).mpr hline)]
          have h34 := hchar (d := 34) (by decide) (by decide)
          have h39 := hchar (d := 39) (by decide) (by decide)
          by_cases hquote : c ≠ 34 ∧ c ≠ 39
          · rw [if_pos hquote, if_pos ⟨mt h34.mpr hquote.1, mt h39.mpr hquote.2⟩]
            exact hstep 0
          · have hq : IsQuote c := by
              unfold IsQuote
              by_contra hne
              exact hquote (not_or.mp hne)
            obtain rfl : c' = c := by
              rcases hq with rfl | rfl
              · exact h34.mp rfl
              · exact h39.mp rfl
            rw [if_neg hquote, if_neg hquote]
            have hquoted := quoted_caseEq hrest hq
            generalize quoted c' s = body at hquoted ⊢
            generalize quoted c' s' = body' at hquoted ⊢
            cases hquoted with
            | none => exact hstep 0
            | some hbody =>
              simp only [← hbody]
              refine .cons ⟨rfl, rfl, ?_⟩ (hstep _)
              apply context_caseEq _ (hleads.line hlength start)
              have := hcase.take pre.length
              rw [List.take_left, hlength, List.take_left] at this
              exact this.drop start

/-- A token stands between quotes. -/
theorem textTokens_quotes (pre : Bytes) (hat : pre.length = at_) {t : LsfString}
    (ht : t ∈ textTokens skip a at_ s) : 1 ≤ t.offset ∧ ∃ q, IsQuote q ∧
      (pre ++ s)[t.offset - 1]? = some q ∧ (pre ++ s)[t.offset + t.length]? = some q := by
  induction s generalizing pre skip a at_ with
  | nil => cases skip <;> exact absurd ht List.not_mem_nil
  | cons c s ih =>
    -- a token found further on has its quotes there
    have hstep {skip : ℕ} {a : Bytes} (ht : t ∈ textTokens skip a (at_ + 1) s) := by
      have := ih (pre ++ [c]) (by simp [hat]) ht
      rwa [List.append_assoc, List.singleton_append] at this
    cases skip with
    | succ skip => exact hstep ht
    | zero =>
      unfold textTokens at ht
      split at ht
      · exact hstep ht
      · split at ht
        · exact hstep ht
        · next hquote =>
          have hq : IsQuote c := by
            unfold IsQuote
            by_contra hne
            exact hquote (not_or.mp hne)
          split at ht
          · exact hstep ht
          -- a token found here is between the quote it starts with and the next one
          · next body hbody =>
            rcases List.mem_cons.mp ht with rfl | ht
            · refine ⟨Nat.le_add_left 1 at_, c, hq, ?_, ?_⟩
              · rw [Nat.add_sub_cancel, ← hat, List.getElem?_append_right le_rfl, Nat.sub_self]
                rfl
              · unfold quoted at hbody
                simp only at hbody
                split at hbody
                · next hget =>
                  obtain rfl := Option.some.inj hbody
                  have hplace (n : ℕ) : (pre ++ c :: s)[at_ + 1 + n]? = s[n]? := by
                    rw [List.getElem?_append_right (by omega),
                      show at_ + 1 + n - pre.length = n + 1 by omega, List.getElem?_cons_succ]
                  exact (hplace _).trans hget
                · cases hbody
            · exact hstep ht

end Pak
end Bg3le
