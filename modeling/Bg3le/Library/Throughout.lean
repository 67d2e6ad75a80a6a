import Mathlib.Data.List.Basic

/-!
# What holds throughout a list of events

Each event of a list is right after the events before it.
-/

variable {α : Type*} {right : List α → α → Prop} {past : List α} {e : α}

/-- Every event is right after those before it. -/
def Throughout (right : List α → α → Prop) (events : List α) : Prop :=
  ∀ past e later, events = past ++ e :: later → right past e

namespace Throughout

theorem nil : Throughout right [] := by
  intro past e later h
  exact absurd h (by simp)

theorem concat_iff : Throughout right (past ++ [e]) ↔ Throughout right past ∧ right past e := by
  constructor
  · intro h
    refine ⟨?_, h past e [] rfl⟩
    intro past' e' later hsplit
    apply h past' e' (later ++ [e])
    rw [hsplit, List.append_assoc, List.cons_append]
  · rintro ⟨h, he⟩ past' e' later hsplit
    obtain rfl | ⟨later, last, rfl⟩ := List.eq_nil_or_concat' later
    · obtain ⟨rfl, rfl⟩ : past = past' ∧ e = e' := by simpa using List.append_inj' hsplit rfl
      exact he
    · rw [← List.cons_append, ← List.append_assoc] at hsplit
      exact h past' e' later (List.append_inj' hsplit rfl).1

theorem concat (h : Throughout right past) (he : right past e) : Throughout right (past ++ [e]) :=
  concat_iff.mpr ⟨h, he⟩

/-- An event of the list came after some of them, and was right then. -/
theorem of_mem {events : List α} (h : Throughout right events) (he : e ∈ events) :
    ∃ past later, events = past ++ e :: later ∧ right past e := by
  obtain ⟨past, later, hsplit⟩ := List.append_of_mem he
  exact ⟨past, later, hsplit, h past e later hsplit⟩

end Throughout
