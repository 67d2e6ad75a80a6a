import Mathlib.Data.List.Basic

/-!
# Readers with a state

A transducer reads its input from left to right, emits a list at each symbol and may refuse a
symbol. What it reads of a text is the concatenation of what it reads of the parts.
-/

namespace Bg3le

/-- A partial transducer: states `σ`, symbols `α`, output `β`. The end of the input is accepted in
some states only. -/
structure Transducer (σ α β : Type*) where
  step : σ → α → Option (List β × σ)
  accepting : σ → Bool

namespace Transducer

variable {σ α β : Type*} {T : Transducer σ α β} {state state' : σ} {s t : List α}
  {out out' : List β}

/-- The output of a whole input and the state after it. -/
def run (T : Transducer σ α β) : σ → List α → Option (List β × σ)
  | state, [] => some ([], state)
  | state, a :: s =>
    match T.step state a with
    | none => none
    | some (out, next) => (run T next s).map fun (more, last) => (out ++ more, last)

/-- The output of an input that is accepted. -/
def read (T : Transducer σ α β) (state : σ) (s : List α) : Option (List β) :=
  match T.run state s with
  | none => none
  | some (out, last) => if T.accepting last then some out else none

@[simp]
theorem run_nil : T.run state [] = some ([], state) := rfl

theorem run_cons {a : α} (h : T.step state a = some (out, state')) :
    T.run state (a :: s) = (T.run state' s).map fun (more, last) => (out ++ more, last) := by
  rw [run, h]

theorem run_cons_none {a : α} (h : T.step state a = none) : T.run state (a :: s) = none := by
  rw [run, h]

/-- A symbol that emits nothing and leads back. -/
theorem run_cons_silent {a : α} (h : T.step state a = some ([], state')) :
    T.run state (a :: s) = T.run state' s := by
  rw [run_cons h]
  simp

/-- An input that runs through has a first step. -/
theorem exists_of_run_cons {a : α} (h : T.run state (a :: s) = some (out, state')) :
    ∃ head mid tail, T.step state a = some (head, mid) ∧ T.run mid s = some (tail, state') ∧
      out = head ++ tail := by
  rw [run] at h
  split at h
  · cases h
  · next head mid hstep =>
    obtain ⟨⟨tail, last⟩, htail, heq⟩ := Option.map_eq_some_iff.mp h
    obtain ⟨rfl, rfl⟩ := Prod.mk.inj heq
    exact ⟨head, mid, tail, hstep, htail, rfl⟩

/-! ## Concatenation -/

theorem run_append (h : T.run state s = some (out, state')) (t : List α) :
    T.run state (s ++ t) = (T.run state' t).map fun (more, last) => (out ++ more, last) := by
  induction s generalizing state out with
  | nil =>
    obtain ⟨rfl, rfl⟩ := Prod.mk.inj (Option.some.inj h)
    simp
  | cons a s ih =>
    obtain ⟨head, mid, tail, hstep, htail, rfl⟩ := exists_of_run_cons h
    rw [List.cons_append, run_cons hstep, ih htail, Option.map_map]
    congr 1
    funext ⟨more, last⟩
    simp

theorem run_append_some (h : T.run state s = some (out, state')) {last : σ}
    (ht : T.run state' t = some (out', last)) : T.run state (s ++ t) = some (out ++ out', last) := by
  rw [run_append h, ht]
  rfl

theorem run_append_none (h : T.run state s = none) (t : List α) : T.run state (s ++ t) = none := by
  induction s generalizing state with
  | nil => cases h
  | cons a s ih =>
    rw [List.cons_append]
    cases hstep : T.step state a with
    | none => exact run_cons_none hstep
    | some found =>
      obtain ⟨head, mid⟩ := found
      rw [run_cons hstep, Option.map_eq_none_iff] at h ⊢
      exact ih h

/-- A run splits where its input does. -/
theorem exists_of_run_append {last : σ} (h : T.run state (s ++ t) = some (out, last)) :
    ∃ head mid tail, T.run state s = some (head, mid) ∧ T.run mid t = some (tail, last) ∧
      out = head ++ tail := by
  cases hs : T.run state s with
  | none => rw [run_append_none hs] at h; cases h
  | some found =>
    rw [run_append hs] at h
    obtain ⟨⟨tail, last'⟩, htail, heq⟩ := Option.map_eq_some_iff.mp h
    obtain ⟨rfl, rfl⟩ := Prod.mk.inj heq
    exact ⟨_, _, tail, rfl, htail, rfl⟩

theorem read_eq_some :
    T.read state s = some out ↔ ∃ last, T.run state s = some (out, last) ∧ T.accepting last := by
  unfold read
  split
  · next h => simp [h]
  · next found last h =>
    rw [h]
    split
    · next haccepting =>
      rw [Option.some.injEq]
      exact ⟨fun heq => ⟨last, by rw [heq], haccepting⟩,
        fun ⟨_, heq, _⟩ => (Prod.mk.inj (Option.some.inj heq)).1⟩
    · next haccepting =>
      simp only [reduceCtorEq, false_iff]
      intro ⟨_, heq, h⟩
      obtain ⟨-, rfl⟩ := Prod.mk.inj (Option.some.inj heq)
      exact haccepting h

theorem read_append (h : T.run state s = some (out, state')) (t : List α) :
    T.read state (s ++ t) = (T.read state' t).map (out ++ ·) := by
  rw [read, read, run_append h]
  cases T.run state' t with
  | none => rfl
  | some found =>
    obtain ⟨more, last⟩ := found
    simp only [Option.map_some]
    split <;> rfl

theorem read_append_silent (h : T.run state s = some ([], state')) (t : List α) :
    T.read state (s ++ t) = T.read state' t := by
  rw [read_append h]
  simp

/-- A text that is read splits anywhere. -/
theorem exists_of_read_append (h : T.read state (s ++ t) = some out) :
    ∃ head mid tail, T.run state s = some (head, mid) ∧ T.read mid t = some tail ∧
      out = head ++ tail := by
  obtain ⟨last, hrun, haccepting⟩ := read_eq_some.mp h
  obtain ⟨head, mid, tail, hs, ht, rfl⟩ := exists_of_run_append hrun
  exact ⟨head, mid, tail, hs, read_eq_some.mpr ⟨last, ht, haccepting⟩, rfl⟩

end Transducer
end Bg3le
