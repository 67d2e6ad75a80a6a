import Mathlib.Data.List.TakeWhile
import Mathlib.Data.List.Basic

/-!
# Text up to a separator

What stands before the first separator of a list, and what follows it.
-/

namespace Separator

variable {α : Type*} [DecidableEq α] {a : α} {l m : List α}

theorem notMem_before (a : α) (l : List α) : a ∉ l.takeWhile (· ≠ a) := by
  intro h
  simpa using List.mem_takeWhile_imp h

/-- A list with a separator is what is before it, the separator, and what follows. -/
theorem split (h : a ∈ l) : l.takeWhile (· ≠ a) ++ a :: (l.dropWhile (· ≠ a)).drop 1 = l := by
  have hrest : a :: (l.dropWhile (· ≠ a)).drop 1 = l.dropWhile (· ≠ a) := by
    cases hdrop : l.dropWhile (· ≠ a) with
    | nil =>
      have hall := List.dropWhile_eq_nil_iff.mp hdrop a h
      simp at hall
    | cons b rest =>
      have hb : b = a := by
        have hhead := List.head?_dropWhile_not (· ≠ a) l
        rw [hdrop] at hhead
        simpa using hhead
      rw [hb, List.drop_one, List.tail_cons]
  rw [hrest, List.takeWhile_append_dropWhile]

theorem before_of_split (h : a ∉ l) : (l ++ a :: m).takeWhile (· ≠ a) = l := by
  rw [List.takeWhile_append_of_pos fun b hb => by simpa using fun heq : b = a => h (heq ▸ hb)]
  simp

theorem after_of_split (h : a ∉ l) : ((l ++ a :: m).dropWhile (· ≠ a)).drop 1 = m := by
  rw [List.dropWhile_append_of_pos fun b hb => by simpa using fun heq : b = a => h (heq ▸ hb)]
  simp

theorem before_of_none (h : a ∉ l) : l.takeWhile (· ≠ a) = l := by
  rw [List.takeWhile_eq_self_iff]
  intro b hb
  simpa using fun heq : b = a => h (heq ▸ hb)

/-- Two texts split at their first separators are the same where their parts are. -/
theorem parts_eq {l' m' : List α} (hl : a ∉ l) (hl' : a ∉ l') (h : l ++ a :: m = l' ++ a :: m') :
    l = l' ∧ m = m' := by
  constructor
  · rw [← before_of_split (m := m) hl, h, before_of_split hl']
  · rw [← after_of_split (m := m) hl, h, after_of_split hl']

end Separator
