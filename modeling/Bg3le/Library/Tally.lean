import Mathlib.Algebra.BigOperators.Fin
import Mathlib.Algebra.Order.BigOperators.Group.Finset

/-!
# Tallies

How many agents of a family are in a place of a given kind, and what one agent's move does to
the tally.
-/

variable {n : ℕ} {α : Type*}

/-- A sum takes one of its terms for another. -/
theorem sum_exchange {ι : Type*} [DecidableEq ι] {s : Finset ι} (f : ι → ℕ) {i : ι} (hi : i ∈ s)
    (c : ℕ) : ∑ j ∈ s, Function.update f i c j + f i = ∑ j ∈ s, f j + c := by
  have hnew := Finset.sum_update_of_mem hi f c
  have hold := Finset.sum_sdiff (f := f) (Finset.singleton_subset_iff.mpr hi)
  rw [Finset.sum_singleton] at hold
  omega

/-- How many agents are where `p` holds. -/
def tally (p : α → Bool) (f : Fin n → α) : ℕ := ∑ i, (p (f i)).toNat

/-- A move takes the agent from one place and adds it at the other. -/
theorem tally_update (p : α → Bool) (f : Fin n → α) (i : Fin n) (a : α) :
    tally p (Function.update f i a) + (p (f i)).toNat = tally p f + (p a).toNat := by
  have hmoved : (fun j => (p (Function.update f i a j)).toNat) =
      Function.update (fun j => (p (f j)).toNat) i (p a).toNat :=
    funext fun j => Function.apply_update (fun _ b => (p b).toNat) f i a j
  unfold tally
  rw [hmoved]
  exact sum_exchange (fun j => (p (f j)).toNat) (Finset.mem_univ i) _

theorem tally_le (p : α → Bool) (f : Fin n → α) : tally p f ≤ n := by
  have hone : ∀ i ∈ Finset.univ, (p (f i)).toNat ≤ 1 := fun i _ => Bool.toNat_le _
  have hsum := Finset.sum_le_card_nsmul Finset.univ (fun i => (p (f i)).toNat) 1 hone
  simpa [tally] using hsum

/-- Nothing is tallied where no agent is. -/
theorem tally_eq_zero_iff (p : α → Bool) (f : Fin n → α) :
    tally p f = 0 ↔ ∀ i, p (f i) = false := by
  simp [tally, Finset.sum_eq_zero_iff, Bool.toNat_eq_zero]

theorem tally_congr {p q : α → Bool} {f : Fin n → α} (h : ∀ i, p (f i) = q (f i)) :
    tally p f = tally q f := by
  unfold tally
  exact Finset.sum_congr rfl fun i _ => by rw [h i]
