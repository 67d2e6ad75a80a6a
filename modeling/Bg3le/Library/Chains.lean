import Mathlib.Data.List.Nodup
import Mathlib.Data.List.Perm.Subperm
import Mathlib.Data.List.Range
import Mathlib.Logic.Function.Basic
import Mathlib.Tactic.Common

/-!
# Chains through an array

Entries are linked through an array of indices: `next i` is the index of the entry after entry
`i`, and something that is no index of an entry ends the chain. A table of heads gives where the
chain of a bucket starts.
-/

namespace Chains

/-- Goes through the entries `path`, the last of them `i`. -/
inductive Path (next : ℕ → ℤ) : ℤ → List ℕ → ℕ → Prop
  | last (i : ℕ) : Path next i [i] i
  | step {c i : ℕ} {path : List ℕ} : Path next (next c) path i → Path next c (c :: path) i

/-- The chain from `c` comes to `i` through the first `n` entries. -/
def Reaches (n : ℕ) (next : ℕ → ℤ) (c : ℤ) (i : ℕ) : Prop :=
  ∃ path, Path next c path i ∧ ∀ j ∈ path, j < n

/-- The chain from `c` comes to something negative through the first `n` entries. -/
inductive Ends (n : ℕ) (next : ℕ → ℤ) : ℤ → Prop
  | neg {c : ℤ} (hc : c < 0) : Ends n next c
  | step {c : ℕ} (hc : c < n) : Ends n next (next c) → Ends n next c

/-- The first entry with `p` that the chain from `cur` comes to in so many steps. -/
def walk (n : ℕ) (next : ℕ → ℤ) (p : ℕ → Bool) : ℕ → ℤ → Option ℕ
  | 0, _ => none
  | steps + 1, cur =>
    if 0 ≤ cur ∧ cur.toNat < n then
      if p cur.toNat then some cur.toNat else walk n next p steps (next cur.toNat)
    else none

variable {n m : ℕ} {next next' : ℕ → ℤ} {c : ℤ} {i j : ℕ} {p : ℕ → Bool} {path : List ℕ}

/-! ## Paths -/

theorem Path.mem (h : Path next c path i) : i ∈ path := by
  induction h with
  | last i => exact List.mem_singleton_self i
  | step _ ih => exact List.mem_cons_of_mem _ ih

/-- A path that comes to an entry again can be cut there. -/
theorem Path.suffix (h : Path next c path i) (hj : j ∈ path) :
    ∃ rest, Path next j rest i ∧ rest <:+ path := by
  induction h with
  | last i =>
    obtain rfl := List.mem_singleton.mp hj
    exact ⟨[j], .last j, List.suffix_rfl⟩
  | @step c i path h ih =>
    rcases List.mem_cons.mp hj with rfl | hj
    · exact ⟨j :: path, .step h, List.suffix_rfl⟩
    · obtain ⟨rest, hrest, hsuffix⟩ := ih hj
      exact ⟨rest, hrest, hsuffix.trans (List.suffix_cons c path)⟩

theorem Path.nodup (h : Path next c path i) :
    ∃ path', Path next c path' i ∧ path'.Nodup ∧ path' ⊆ path := by
  induction h with
  | last i => exact ⟨[i], .last i, List.nodup_singleton i, List.Subset.refl _⟩
  | @step c i path h ih =>
    obtain ⟨path', hpath, hnodup, hsub⟩ := ih
    by_cases hc : c ∈ path'
    · obtain ⟨rest, hrest, hsuffix⟩ := hpath.suffix hc
      refine ⟨rest, hrest, hnodup.sublist hsuffix.sublist, ?_⟩
      intro j hj
      exact List.mem_cons_of_mem _ (hsub (hsuffix.subset hj))
    · exact ⟨c :: path', .step hpath, List.nodup_cons.mpr ⟨hc, hnodup⟩,
        List.cons_subset_cons c hsub⟩

theorem Path.congr (h : Path next c path i) (hnext : ∀ j ∈ path, next' j = next j) :
    Path next' c path i := by
  induction h with
  | last i => exact .last i
  | @step c i path h ih =>
    apply Path.step
    rw [hnext c List.mem_cons_self]
    exact ih fun j hj => hnext j (List.mem_cons_of_mem _ hj)

/-! ## What a chain reaches -/

theorem Reaches.lt (h : Reaches n next c i) : i < n := by
  obtain ⟨path, hpath, hlt⟩ := h
  exact hlt i hpath.mem

theorem Reaches.here (hi : i < n) : Reaches n next i i :=
  ⟨[i], .last i, fun j hj => by rwa [List.mem_singleton.mp hj]⟩

theorem Reaches.step (hj : j < n) (h : Reaches n next (next j) i) : Reaches n next j i := by
  obtain ⟨path, hpath, hlt⟩ := h
  refine ⟨j :: path, .step hpath, ?_⟩
  intro k hk
  rcases List.mem_cons.mp hk with rfl | hk
  · exact hj
  · exact hlt k hk

/-- A chain reaches nothing from something negative. -/
theorem Reaches.nonneg (h : Reaches n next c i) : 0 ≤ c := by
  obtain ⟨path, hpath, -⟩ := h
  cases hpath <;> exact Int.natCast_nonneg _

/-- What a chain reaches, it reaches where the entries it goes through are linked the same. -/
theorem Reaches.mono (h : Reaches n next c i) (hn : n ≤ m) (hnext : ∀ j < n, next' j = next j) :
    Reaches m next' c i := by
  obtain ⟨path, hpath, hlt⟩ := h
  exact ⟨path, hpath.congr fun j hj => hnext j (hlt j hj), fun j hj => (hlt j hj).trans_le hn⟩

theorem Ends.mono (h : Ends n next c) (hn : n ≤ m) (hnext : ∀ j < n, next' j = next j) :
    Ends m next' c := by
  induction h with
  | neg hc => exact .neg hc
  | @step c hc _ ih =>
    apply Ends.step (hc.trans_le hn)
    rwa [hnext c hc]

/-- The rest of a chain that ends does too. -/
theorem Ends.of_reaches (h : Ends n next c) (hreaches : Reaches n next c i) : Ends n next i := by
  obtain ⟨path, hpath, -⟩ := hreaches
  induction hpath with
  | last i => exact h
  | @step c i path _ ih =>
    apply ih
    cases h with
    | neg hc => exact absurd hc (Int.not_lt.mpr (Int.natCast_nonneg c))
    | step _ h => exact h

theorem Ends.lt (h : Ends n next c) : c < n := by
  cases h with
  | neg hc => omega
  | step hc _ => exact_mod_cast hc

theorem Ends.tail {i : ℕ} (h : Ends n next i) : Ends n next (next i) := by
  generalize hc : (i : ℤ) = c at h
  cases h with
  | neg hneg => omega
  | @step c _ h =>
    obtain rfl : i = c := by exact_mod_cast hc
    exact h

/-- No chain ends that comes back to an entry at once. -/
theorem not_ends_self {i : ℕ} (hself : next i = i) : ¬ Ends n next i := by
  intro h
  generalize hc : (i : ℤ) = c at h
  induction h with
  | neg hneg => omega
  | @step c _ _ ih =>
    obtain rfl : i = c := by exact_mod_cast hc
    exact ih hself.symm

/-! ## Walks -/

theorem walk_of_path (h : Path next c path i) (hlt : ∀ j ∈ path, j < n) (hi : p i = true)
    (honly : ∀ j ∈ path, p j = true → j = i) {steps : ℕ} (hsteps : path.length ≤ steps) :
    walk n next p steps c = some i := by
  induction h generalizing steps with
  | last i =>
    obtain ⟨steps, rfl⟩ := Nat.exists_eq_add_one_of_ne_zero (n := steps) (by
      rintro rfl
      exact absurd hsteps (by simp))
    rw [walk, if_pos ⟨Int.natCast_nonneg i, hlt i List.mem_cons_self⟩, Int.toNat_natCast, if_pos hi]
  | @step c i path h ih =>
    obtain ⟨steps, rfl⟩ := Nat.exists_eq_add_one_of_ne_zero (n := steps) (by
      rintro rfl
      exact absurd hsteps (by simp))
    rw [walk, if_pos ⟨Int.natCast_nonneg c, hlt c List.mem_cons_self⟩, Int.toNat_natCast]
    by_cases hc : p c = true
    · rw [if_pos hc, honly c List.mem_cons_self hc]
    · rw [if_neg hc]
      rw [List.length_cons, Nat.add_le_add_iff_right] at hsteps
      exact ih (fun j hj => hlt j (List.mem_cons_of_mem _ hj)) hi
        (fun j hj => honly j (List.mem_cons_of_mem _ hj)) hsteps

/-- A walk of `n` steps or more comes to what the chain reaches. -/
theorem walk_of_reaches (h : Reaches n next c i) (hi : p i = true)
    (honly : ∀ j < n, p j = true → j = i) {steps : ℕ} (hsteps : n ≤ steps) :
    walk n next p steps c = some i := by
  obtain ⟨path, hpath, hlt⟩ := h
  obtain ⟨path', hpath', hnodup, hsub⟩ := hpath.nodup
  have hlt' : ∀ j ∈ path', j < n := fun j hj => hlt j (hsub hj)
  have hlength : path'.length ≤ (List.range n).length :=
    (hnodup.subperm fun j hj => List.mem_range.mpr (hlt' j hj)).length_le
  rw [List.length_range] at hlength
  exact walk_of_path hpath' hlt' hi (fun j hj => honly j (hlt' j hj)) (hlength.trans hsteps)

theorem walk_spec {steps : ℕ} (h : walk n next p steps c = some i) :
    p i = true ∧ Reaches n next c i := by
  induction steps generalizing c with
  | zero => exact absurd h (by simp [walk])
  | succ steps ih =>
    rw [walk] at h
    split at h
    · next hc =>
      obtain ⟨c, rfl⟩ := Int.eq_ofNat_of_zero_le hc.1
      rw [Int.toNat_natCast] at h
      split at h
      · next hp =>
        obtain rfl : c = i := Option.some.inj h
        exact ⟨hp, .here hc.2⟩
      · obtain ⟨hp, hreaches⟩ := ih h
        exact ⟨hp, .step hc.2 hreaches⟩
    · exact absurd h (by simp)

/-! ## A new entry before the others of its bucket -/

variable {heads : ℕ → ℤ} {bucket b : ℕ} {prev : ℤ}

theorem Reaches.push (h : Reaches n next (heads b) i)
    (hprev : b = bucket → Reaches n next prev i) :
    Reaches (n + 1) (Function.update next n prev) (Function.update heads bucket (n : ℤ) b) i := by
  have hnext (j : ℕ) (hj : j < n) : Function.update next n prev j = next j :=
    Function.update_of_ne hj.ne _ _
  by_cases hb : b = bucket
  · rw [hb, Function.update_self]
    apply Reaches.step (Nat.lt_succ_self n)
    rw [Function.update_self]
    exact (hprev hb).mono (Nat.le_succ n) hnext
  · rw [Function.update_of_ne hb]
    exact h.mono (Nat.le_succ n) hnext

theorem Ends.push (h : Ends n next (heads b)) (hprev : b = bucket → Ends n next prev) :
    Ends (n + 1) (Function.update next n prev) (Function.update heads bucket (n : ℤ) b) := by
  have hnext (j : ℕ) (hj : j < n) : Function.update next n prev j = next j :=
    Function.update_of_ne hj.ne _ _
  by_cases hb : b = bucket
  · rw [hb, Function.update_self]
    apply Ends.step (Nat.lt_succ_self n)
    rw [Function.update_self]
    exact (hprev hb).mono (Nat.le_succ n) hnext
  · rw [Function.update_of_ne hb]
    exact h.mono (Nat.le_succ n) hnext

end Chains
