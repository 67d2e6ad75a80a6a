import Bg3le.Library.Separator
import Mathlib.Data.List.Infix

/-!
# Where a text has another one first

A search goes past a piece of the text in which nothing of what it looks for begins.
-/

namespace TextSearch

variable {α : Type*} {needle text l l' w p q v : List α} {a : α} {k : ℕ}

/-- The needle stands at a place of a text, and nowhere before. -/
structure FirstAt (needle text : List α) (k : ℕ) : Prop where
  here : needle <+: text.drop k
  before : ∀ j < k, ¬needle <+: text.drop j

theorem FirstAt.zero (h : needle <+: text) : FirstAt needle text 0 :=
  ⟨h, fun j hj => absurd hj (Nat.not_lt_zero j)⟩

theorem FirstAt.unique {k' : ℕ} (h : FirstAt needle text k) (h' : FirstAt needle text k') : k = k' := by
  rcases Nat.lt_trichotomy k k' with hlt | heq | hlt
  · exact absurd h.here (h'.before k hlt)
  · exact heq
  · exact absurd h'.here (h.before k' hlt)

/-- The needle begins nowhere in a piece of a text, with what comes behind it. -/
def Avoids (needle l w : List α) : Prop := ∀ j < l.length, ¬needle <+: l.drop j ++ w

theorem Avoids.nil : Avoids needle [] w := fun j hj => absurd hj (Nat.not_lt_zero j)

theorem Avoids.append (h : Avoids needle l (l' ++ w)) (h' : Avoids needle l' w) :
    Avoids needle (l ++ l') w := by
  intro j hj
  by_cases hin : j < l.length
  · rw [List.drop_append_of_le_length hin.le, List.append_assoc]
    exact h j hin
  · rw [List.length_append] at hj
    obtain ⟨i, rfl⟩ := Nat.exists_eq_add_of_le (Nat.le_of_not_lt hin)
    rw [← List.drop_drop, List.drop_left]
    exact h' i (by omega)

/-- A search goes past it. -/
theorem Avoids.firstAt (h : Avoids needle l w) (hw : FirstAt needle w k) :
    FirstAt needle (l ++ w) (l.length + k) := by
  refine ⟨?_, fun j hj => ?_⟩
  · rw [← List.drop_drop, List.drop_left]
    exact hw.here
  · by_cases hin : j < l.length
    · rw [List.drop_append_of_le_length hin.le]
      exact h j hin
    · obtain ⟨i, rfl⟩ := Nat.exists_eq_add_of_le (Nat.le_of_not_lt hin)
      rw [← List.drop_drop, List.drop_left]
      exact hw.before i (by omega)

/-- A piece that differs from the needle wherever it might begin, before the piece ends. -/
theorem avoids_of_differs [DecidableEq α] (h : ((List.range l.length).all fun j =>
    !needle.isPrefixOf (l.drop j) && !(l.drop j).isPrefixOf needle) = true) (w : List α) :
    Avoids needle l w := by
  intro j hj hbegins
  have hdiffers := List.all_eq_true.mp h j (List.mem_range.mpr hj)
  rw [Bool.and_eq_true, Bool.not_eq_true', Bool.not_eq_true', ← Bool.not_eq_true, ← Bool.not_eq_true,
    List.isPrefixOf_iff_prefix, List.isPrefixOf_iff_prefix] at hdiffers
  rcases List.prefix_or_prefix_of_prefix hbegins (List.prefix_append (l.drop j) w) with hle | hle
  · exact hdiffers.1 hle
  · exact hdiffers.2 hle

/-- A piece up to a mark that the needle does not have. -/
theorem avoids_of_notMem (ha : a ∉ needle) (hv : ¬needle <:+: v) : Avoids needle v (a :: w) := by
  rintro j - ⟨rest, hrest⟩
  by_cases hlong : needle.length ≤ (v.drop j).length
  · have hbegins : needle <+: v.drop j :=
      List.prefix_of_prefix_length_le ⟨rest, hrest⟩ (List.prefix_append _ _) hlong
    exact hv (hbegins.isInfix.trans (List.drop_suffix j v).isInfix)
  · have hmark : needle[(v.drop j).length]? = some a := by
      have hget := congrArg (·[(v.drop j).length]?) hrest
      simp only [List.getElem?_append_right le_rfl, Nat.sub_self, List.getElem?_cons_zero] at hget
      rwa [List.getElem?_append_left (by omega)] at hget
    exact ha (List.mem_of_getElem? hmark)

/-- A piece without the mark that the needle has, where the mark is followed by something else. -/
theorem avoids_of_mark [DecidableEq α] (hp : a ∉ p) (hv : a ∉ v) (hq : ¬q <+: w) : Avoids (p ++ a :: q) v (a :: w) := by
  rintro j - ⟨rest, hrest⟩
  rw [List.append_assoc, List.cons_append] at hrest
  have hdrop : a ∉ v.drop j := fun hmem => hv (List.mem_of_mem_drop hmem)
  exact hq ⟨rest, (Separator.parts_eq hp hdrop hrest).2⟩

end TextSearch
