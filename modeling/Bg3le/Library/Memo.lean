import Mathlib.Logic.Basic

/-!
# Values kept under a summary

A memo keeps a value with a summary of what it was made from, and makes it again when the summary
it is asked with is another. What it gives is right as long as the summary tells the present
source from the one the value was made from.
-/

variable {σ κ β : Type*} {key : σ → κ} {make : σ → β}

structure Memo (κ β : Type*) where
  key : κ
  value : β

namespace Memo

variable {m : Memo κ β} {source : Option σ} {now : σ}

/-- The memo after it was asked with a summary, `value` being what is made if it is another. -/
def ask [DecidableEq κ] (m : Memo κ β) (key : κ) (value : β) : Memo κ β :=
  if key ≠ m.key then ⟨key, value⟩ else m

/-- The source of the value after the memo was asked. -/
def sourceAfter [DecidableEq κ] (m : Memo κ β) (key : κ) (source : Option σ) (now : σ) : Option σ :=
  if key ≠ m.key then some now else source

/-- The memo was made from a source, or never made: then no source has its summary. -/
structure From (key : σ → κ) (make : σ → β) (m : Memo κ β) (source : Option σ) : Prop where
  never : source = none → ∀ x, key x ≠ m.key
  made : ∀ x ∈ source, m.key = key x ∧ m.value = make x

theorem From.ask [DecidableEq κ] (h : From key make m source) {value : β} (hvalue : value = make now) :
    From key make (m.ask (key now) value) (m.sourceAfter (key now) source now) := by
  unfold Memo.ask sourceAfter
  split
  · refine ⟨nofun, ?_⟩
    intro x hx
    obtain rfl := Option.some.inj hx
    exact ⟨rfl, hvalue⟩
  · exact h

/-- The value is made from the present source, or from one of the same summary. -/
theorem From.value_cases [DecidableEq κ] (h : From key make m source) (now : σ) {value : β}
    (hvalue : value = make now) : (m.ask (key now) value).value = make now ∨
      ∃ x ∈ source, key x = key now ∧ (m.ask (key now) value).value = make x := by
  unfold Memo.ask
  split
  · exact Or.inl hvalue
  · next hsame =>
    have hkey : key now = m.key := not_not.mp hsame
    cases source with
    | none => exact absurd hkey (h.never rfl now)
    | some x =>
      obtain ⟨hx, hmade⟩ := h.made x rfl
      exact Or.inr ⟨x, rfl, hx.symm.trans hkey.symm, hmade⟩

end Memo
