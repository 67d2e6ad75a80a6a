import Mathlib.Data.List.Basic

/-!
# Regular expressions as a backtracking matcher tries them

A pattern is matched from a place in the text by trying its ways in order: the left branch of an
alternation first, and a repeated class as far as it goes before it is given back. What counts is
the first way that succeeds.
-/

/-- Patterns in which only single classes are repeated. -/
inductive Regex (α : Type*) where
  | empty
  | char (p : α → Bool)
  /-- A class, repeated greedily. -/
  | many (p : α → Bool)
  | seq (r s : Regex α)
  | alt (r s : Regex α)

namespace Regex

variable {α β : Type*}

/-- A literal text, read through `f`: characters match when `f` makes them the same. -/
def litBy [BEq β] (f : α → β) : List β → Regex α
  | [] => empty
  | k :: word => seq (char fun c => f c == k) (litBy f word)

/-- A literal text. -/
def lit [BEq α] (word : List α) : Regex α := litBy id word

/-- What a repeated class can leave of the text, the longest match first. -/
def manyEnds (p : α → Bool) : List α → List (List α)
  | [] => [[]]
  | c :: s => if p c then manyEnds p s ++ [c :: s] else [c :: s]

/-- What a match from the start of the text can leave of it, in the order the ways are tried. -/
def ends : Regex α → List α → List (List α)
  | empty, s => [s]
  | char _, [] => []
  | char p, c :: s => if p c then [s] else []
  | many p, s => manyEnds p s
  | seq r t, s => (ends r s).flatMap (ends t)
  | alt r t, s => ends r s ++ ends t s

/-- What the match leaves of the text, where the pattern matches at its start. -/
def first (r : Regex α) (s : List α) : Option (List α) := (ends r s).head?

/-- The text before the first match, and the text from that match on. -/
def search (r : Regex α) : List α → Option (List α × List α)
  | [] => if (first r []).isSome then some ([], []) else none
  | c :: s =>
    if (first r (c :: s)).isSome then some ([], c :: s)
    else (search r s).map fun (before, found) => (c :: before, found)

/-- Deletes matches from left to right, after `skip` characters of the last one. An empty match
deletes nothing. -/
def removeFrom (r : Regex α) : ℕ → List α → List α
  | _, [] => []
  | skip + 1, _ :: s => removeFrom r skip s
  | 0, c :: s =>
    match (ends r (c :: s)).find? (·.length ≤ s.length) with
    | some rest => removeFrom r (s.length - rest.length) s
    | none => c :: removeFrom r 0 s

/-- Deletes every match. -/
def remove (r : Regex α) (s : List α) : List α := removeFrom r 0 s

/-! ## Ways to match -/

@[simp] theorem ends_seq (r t : Regex α) (s : List α) :
    ends (seq r t) s = (ends r s).flatMap (ends t) := by
  simp only [ends]

@[simp] theorem ends_alt (r t : Regex α) (s : List α) : ends (alt r t) s = ends r s ++ ends t s := by
  simp only [ends]

@[simp] theorem ends_many (p : α → Bool) (s : List α) : ends (many p) s = manyEnds p s := by
  simp only [ends]

theorem mem_manyEnds {p : α → Bool} {s rest : List α} :
    rest ∈ manyEnds p s ↔ ∃ x, s = x ++ rest ∧ ∀ c ∈ x, p c := by
  induction s with
  | nil =>
    constructor
    · intro h
      obtain rfl : rest = [] := by simpa [manyEnds] using h
      exact ⟨[], rfl, by simp⟩
    · rintro ⟨x, hx, -⟩
      obtain ⟨-, rfl⟩ := List.append_eq_nil_iff.mp hx.symm
      simp [manyEnds]
  | cons a s ih =>
    constructor
    · intro h
      unfold manyEnds at h
      split_ifs at h with ha
      · rcases List.mem_append.mp h with h | h
        · obtain ⟨x, rfl, hx⟩ := ih.mp h
          exact ⟨a :: x, rfl, by simpa [ha] using hx⟩
        · exact ⟨[], (List.mem_singleton.mp h).symm, by simp⟩
      · exact ⟨[], (List.mem_singleton.mp h).symm, by simp⟩
    · rintro ⟨x, hx, hp⟩
      unfold manyEnds
      cases x with
      | nil => split_ifs <;> simp [hx]
      | cons b x =>
        obtain ⟨rfl, hs⟩ := List.cons.inj hx
        rw [if_pos (hp a (by simp))]
        exact List.mem_append_left _ (ih.mpr ⟨x, hs, fun c hc => hp c (by simp [hc])⟩)

theorem mem_ends_char {p : α → Bool} {s rest : List α} :
    rest ∈ ends (char p) s ↔ ∃ c, s = c :: rest ∧ p c := by
  cases s with
  | nil => simp [ends]
  | cons a s =>
    simp only [ends]
    split_ifs with ha
    · constructor
      · intro h
        exact ⟨a, by rw [List.mem_singleton.mp h], ha⟩
      · rintro ⟨c, hc, -⟩
        exact List.mem_singleton.mpr (List.cons.inj hc).2.symm
    · constructor
      · simp
      · rintro ⟨c, hc, hp⟩
        exact absurd ((List.cons.inj hc).1 ▸ hp) ha

theorem mem_ends_litBy [BEq β] [LawfulBEq β] {f : α → β} {rest : List α} :
    ∀ {word : List β} {s : List α},
      rest ∈ ends (litBy f word) s ↔ ∃ x, s = x ++ rest ∧ x.map f = word
  | [], s => by
    constructor
    · intro h
      exact ⟨[], (List.mem_singleton.mp h).symm, rfl⟩
    · rintro ⟨x, rfl, hx⟩
      rw [List.map_eq_nil_iff.mp hx]
      exact List.mem_singleton.mpr rfl
  | k :: word, s => by
    rw [litBy, ends_seq, List.mem_flatMap]
    constructor
    · rintro ⟨t, ht, h⟩
      obtain ⟨c, rfl, hc⟩ := mem_ends_char.mp ht
      obtain ⟨x, rfl, hx⟩ := mem_ends_litBy.mp h
      exact ⟨c :: x, rfl, by simp [hx, eq_of_beq hc]⟩
    · rintro ⟨x, rfl, hx⟩
      obtain ⟨c, x, rfl, hc, hx⟩ := List.map_eq_cons_iff.mp hx
      exact ⟨x ++ rest, mem_ends_char.mpr ⟨c, rfl, by simp [hc]⟩, mem_ends_litBy.mpr ⟨x, rfl, hx⟩⟩

theorem mem_ends_lit [BEq α] [LawfulBEq α] {word s rest : List α} :
    rest ∈ ends (lit word) s ↔ s = word ++ rest := by
  simp [lit, mem_ends_litBy]

theorem ends_lit_append [BEq α] [LawfulBEq α] (rest : List α) :
    ∀ word : List α, ends (lit word) (word ++ rest) = [rest]
  | [] => rfl
  | k :: word => by
    have ih := ends_lit_append rest word
    rw [lit] at ih ⊢
    rw [litBy, ends_seq, List.cons_append, ends, if_pos (by simp), List.flatMap_singleton, ih]

theorem first_lit_append [BEq α] [LawfulBEq α] (word rest : List α) :
    first (lit word) (word ++ rest) = some rest := by
  rw [first, ends_lit_append, List.head?_cons]

theorem first_lit_seq [BEq α] [LawfulBEq α] (word rest : List α) (r : Regex α) :
    first (seq (lit word) r) (word ++ rest) = first r rest := by
  rw [first, ends_seq, ends_lit_append, List.flatMap_singleton, first]

theorem first_char_seq {p : α → Bool} {c : α} (hc : p c) (r : Regex α) (s : List α) :
    first (seq (char p) r) (c :: s) = first r s := by
  rw [first, ends_seq, ends, if_pos hc, List.flatMap_singleton, first]

theorem ends_eq_nil_iff {r : Regex α} {s : List α} : ends r s = [] ↔ first r s = none := by
  rw [first, List.head?_eq_none_iff]

theorem first_isSome_iff {r : Regex α} {s : List α} :
    (first r s).isSome ↔ ∃ rest, rest ∈ ends r s := by
  rw [first, List.isSome_head?]
  exact ⟨List.exists_mem_of_ne_nil _, fun ⟨_, h⟩ => List.ne_nil_of_mem h⟩

/-- A repeated class takes all it can. -/
theorem head?_manyEnds (p : α → Bool) (s : List α) :
    (manyEnds p s).head? = some (s.dropWhile p) := by
  induction s with
  | nil => rfl
  | cons a s ih =>
    unfold manyEnds
    split_ifs with ha
    · rw [List.head?_append, ih, List.dropWhile_cons_of_pos ha]
      rfl
    · rw [List.dropWhile_cons_of_neg ha]
      rfl

/-- A class repeated at the end of a pattern never makes it fail. -/
theorem first_seq_many (r : Regex α) (p : α → Bool) (s : List α) :
    first (seq r (many p)) s = (first r s).map (·.dropWhile p) := by
  rw [first, first, ends_seq]
  cases ends r s with
  | nil => rfl
  | cons e es => rw [List.flatMap_cons, List.head?_append, ends_many, head?_manyEnds]; rfl

theorem first_alt (r t : Regex α) (s : List α) :
    first (alt r t) s = (first r s).or (first t s) := by
  rw [first, first, first, ends_alt, List.head?_append]

/-- What a repeated class can skip does not change what is matched after it. -/
theorem first_many_append {p : α → Bool} {r : Regex α} {s e : List α}
    (h : first (seq (many p) r) s = some e) :
    ∀ {x : List α}, (∀ c ∈ x, p c) → first (seq (many p) r) (x ++ s) = some e
  | [], _ => h
  | a :: x, hx => by
    have ih := first_many_append h fun c hc => hx c (List.mem_cons_of_mem a hc)
    rw [first, ends_seq, ends_many] at ih ⊢
    rw [List.cons_append, manyEnds, if_pos (hx a List.mem_cons_self), List.flatMap_append,
      List.head?_append, ih, Option.some_or]

/-- A repeated class before a pattern that has to start with a word of the class: with less than
the word left of the class, nothing matches. -/
theorem ends_many_eq_nil {p : α → Bool} {r : Regex α} {word rest : List α}
    (hr : ∀ u, ends r u ≠ [] → word <+: u) (hword : ∀ c ∈ word, p c)
    (hrest : ∀ c ∈ rest.head?, ¬ p c) :
    ∀ {x : List α}, x.length < word.length → (∀ c ∈ x, p c) →
      ends (seq (many p) r) (x ++ rest) = [] := by
  -- the word would take the character after the class
  have hnone : ∀ x : List α, x.length < word.length → ends r (x ++ rest) = [] := by
    intro x hx
    by_contra hne
    obtain ⟨more, hmore⟩ := hr _ hne
    have hget : (x ++ rest)[x.length]? = word[x.length]? := by
      rw [← hmore, List.getElem?_append_left hx]
    rw [List.getElem?_append_right (Nat.le_refl _), Nat.sub_self, ← List.head?_eq_getElem?] at hget
    rw [List.getElem?_eq_getElem hx] at hget
    exact hrest _ hget (hword _ (List.getElem_mem hx))
  intro x
  induction x with
  | nil =>
    intro hx _
    have hmany : manyEnds p rest = [rest] := by
      cases rest with
      | nil => rfl
      | cons a rest => rw [manyEnds, if_neg (hrest a rfl)]
    rw [List.nil_append, ends_seq, ends_many, hmany, List.flatMap_singleton]
    exact hnone [] hx
  | cons a x ih =>
    intro hx hp
    have ih := ih (by rw [List.length_cons] at hx; omega) fun c hc => hp c (by simp [hc])
    rw [ends_seq, ends_many] at ih ⊢
    rw [List.cons_append, manyEnds, if_pos (hp a (by simp)), List.flatMap_append, ih,
      List.nil_append, List.flatMap_singleton]
    exact hnone (a :: x) hx

/-- A repeated class before a pattern that has to start with a word of the class: the word is
found where the class ends with it. -/
theorem first_many_word {p : α → Bool} {r : Regex α} {word rest e : List α}
    (hr : ∀ u, ends r u ≠ [] → word <+: u) (hword : ∀ c ∈ word, p c) (hne : word ≠ [])
    (hrest : ∀ c ∈ rest.head?, ¬ p c) (h : first r (word ++ rest) = some e) {x : List α}
    (hx : ∀ c ∈ x, p c) : first (seq (many p) r) (x ++ (word ++ rest)) = some e := by
  refine first_many_append ?_ hx
  obtain ⟨a, word', rfl⟩ := List.exists_cons_of_ne_nil hne
  have hshort := ends_many_eq_nil hr hword hrest (x := word') (by simp) fun c hc =>
    hword c (by simp [hc])
  rw [ends_seq, ends_many] at hshort
  rw [first, ends_seq, ends_many, List.cons_append, manyEnds, if_pos (hword a (by simp)),
    List.flatMap_append, hshort, List.nil_append, List.flatMap_singleton]
  exact h

/-! ## Searching and deleting -/

theorem search_eq_some {r : Regex α} {before found : List α} :
    ∀ {s : List α}, search r s = some (before, found) →
      s = before ++ found ∧ (first r found).isSome
  | [], h => by
    unfold search at h
    split_ifs at h with hfirst
    obtain ⟨rfl, rfl⟩ := Prod.mk.inj (Option.some.inj h)
    exact ⟨rfl, hfirst⟩
  | c :: s, h => by
    unfold search at h
    split_ifs at h with hfirst
    · obtain ⟨rfl, rfl⟩ := Prod.mk.inj (Option.some.inj h)
      exact ⟨rfl, hfirst⟩
    · obtain ⟨⟨before', found'⟩, hs, heq⟩ := Option.map_eq_some_iff.mp h
      obtain ⟨rfl, rfl⟩ := Prod.mk.inj heq
      obtain ⟨rfl, hfound⟩ := search_eq_some hs
      exact ⟨rfl, hfound⟩

theorem search_isSome {r : Regex α} {found : List α} (h : (first r found).isSome) :
    ∀ before : List α, (search r (before ++ found)).isSome
  | [] => by
    cases found with
    | nil => simp [search, h]
    | cons c found => simp [search, h]
  | c :: before => by
    have ih := search_isSome h before
    rw [List.cons_append, search]
    split_ifs
    · rfl
    · simpa using ih

theorem removeFrom_skip (r : Regex α) : ∀ (n : ℕ) (s : List α),
    removeFrom r n s = remove r (s.drop n)
  | 0, _ => rfl
  | _ + 1, [] => by simp [remove, removeFrom]
  | n + 1, _ :: s => by rw [removeFrom, removeFrom_skip r n s, List.drop_succ_cons]

theorem remove_cons_of_none {r : Regex α} {c : α} {s : List α} (h : first r (c :: s) = none) :
    remove r (c :: s) = c :: remove r s := by
  rw [remove, removeFrom, ends_eq_nil_iff.mpr h]
  rfl

theorem remove_of_first {r : Regex α} {x rest : List α} (hx : x ≠ [])
    (h : first r (x ++ rest) = some rest) : remove r (x ++ rest) = remove r rest := by
  obtain ⟨c, x, rfl⟩ := List.exists_cons_of_ne_nil hx
  obtain ⟨es, hes⟩ : ∃ es, ends r (c :: (x ++ rest)) = rest :: es :=
    List.head?_eq_some_iff.mp h
  have hlen : rest.length ≤ (x ++ rest).length := by simp
  rw [List.cons_append, remove, removeFrom, hes, List.find?_cons_of_pos (by simp)]
  dsimp only
  rw [removeFrom_skip, List.length_append, Nat.add_sub_cancel, List.drop_left]

/-- Text where no match starts is kept. -/
theorem remove_append_of_none {r : Regex α} {s : List α} :
    ∀ {x : List α}, (∀ a y b, x = a ++ y :: b → first r (y :: b ++ s) = none) →
      remove r (x ++ s) = x ++ remove r s
  | [], _ => rfl
  | c :: x, h => by
    have ih := remove_append_of_none (x := x) (s := s) (r := r) fun a y b hx =>
      h (c :: a) y b (by rw [hx]; rfl)
    have hc : first r (c :: (x ++ s)) = none := h [] c x rfl
    rw [List.cons_append, remove_cons_of_none hc, ih, List.cons_append]

end Regex
