import Mathlib.Data.List.Basic

/-!
# Runs of a machine

A machine is a step function that refuses an action by `none`. A run takes the actions of a list
in order, each one allowed in the state it is taken from; with everything allowed it is any run
of the machine.
-/

variable {σ α : Type*}

/-- `Run step allowed s as s'`: from `s` the actions `as` lead to `s'`. -/
inductive Run (step : σ → α → Option σ) (allowed : σ → α → Prop) : σ → List α → σ → Prop
  | refl (s : σ) : Run step allowed s [] s
  | step {s t u : σ} {as : List α} {a : α} : Run step allowed s as t → allowed t a →
      step t a = some u → Run step allowed s (as ++ [a]) u

namespace Run

variable {step : σ → α → Option σ} {allowed : σ → α → Prop} {s t u : σ} {as bs : List α}

/-- What the start has and every allowed step keeps, the last state has. -/
theorem invariant {I : σ → Prop} (h : Run step allowed s as t) (start : I s)
    (keep : ∀ t a u, I t → allowed t a → step t a = some u → I u) : I t := by
  induction h with
  | refl => exact start
  | step _ ha hs ih => exact keep _ _ _ ih ha hs

theorem append (h : Run step allowed s as t) (h' : Run step allowed t bs u) :
    Run step allowed s (as ++ bs) u := by
  induction h' with
  | refl => simpa using h
  | step _ ha hs ih =>
    rw [← List.append_assoc]
    exact .step ih ha hs

theorem cons {a : α} (ha : allowed s a) (hs : step s a = some t) (h : Run step allowed t as u) :
    Run step allowed s (a :: as) u :=
  have one : Run step allowed s ([] ++ [a]) t := .step (.refl s) ha hs
  one.append h

/-- Takes the actions in order, as long as each is allowed. -/
def follow (step : σ → α → Option σ) (allowed : σ → α → Prop) [∀ s a, Decidable (allowed s a)] :
    σ → List α → Option σ
  | s, [] => some s
  | s, a :: as => if allowed s a then (step s a).bind (follow step allowed · as) else none

theorem of_follow [∀ s a, Decidable (allowed s a)] :
    ∀ {s : σ} {as : List α}, follow step allowed s as = some u → Run step allowed s as u
  | s, [], h => by
    obtain rfl : s = u := by simpa [follow] using h
    exact .refl s
  | s, a :: as, h => by
    simp only [follow, Option.ite_none_right_eq_some, Option.bind_eq_some_iff] at h
    obtain ⟨ha, t, hs, ht⟩ := h
    exact cons ha hs (of_follow ht)

theorem exists_of_follow (step : σ → α → Option σ) (allowed : σ → α → Prop)
    [∀ s a, Decidable (allowed s a)] (s : σ) (as : List α) (p : σ → Bool)
    (h : (follow step allowed s as).any p = true) :
    ∃ t, Run step allowed s as t ∧ p t = true := by
  cases hf : follow step allowed s as with
  | none => simp [hf] at h
  | some t => exact ⟨t, of_follow hf, by simpa [hf] using h⟩

end Run
