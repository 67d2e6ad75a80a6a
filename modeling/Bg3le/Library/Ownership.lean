import Mathlib.Logic.Function.Basic
import Mathlib.Data.List.Nodup
import Mathlib.Tactic.Common

/-!
# Owners of addresses, and lists linked through memory

Ranges of addresses are kept apart by giving each address at most one owner: ranges that belong
to different owners cannot meet. A list linked through memory is described by the nodes it goes
through.
-/

namespace Ownership

variable {P : Type*} {owner owner' : ℕ → Option P} {p q : P} {a n b m : ℕ}

/-- `p` owns the `n` addresses from `a` on. -/
def Owned (owner : ℕ → Option P) (p : P) (a n : ℕ) : Prop :=
  ∀ x, a ≤ x → x < a + n → owner x = some p

/-- The ranges have no address in common. -/
def Apart (a n b m : ℕ) : Prop := a + n ≤ b ∨ b + m ≤ a

/-- Owners that differ own ranges that are apart. -/
theorem Owned.apart (h : Owned owner p a n) (h' : Owned owner q b m) (hne : p ≠ q) (hn : 0 < n)
    (hm : 0 < m) : Apart a n b m := by
  by_contra hmeet
  unfold Apart at hmeet
  have hp := h (max a b) (by omega) (by omega)
  have hq := h' (max a b) (by omega) (by omega)
  exact hne (Option.some.inj (hp.symm.trans hq))

/-- Who owns an address of a range is the range's owner. -/
theorem Owned.eq_of_mem (h : Owned owner p a n) (h' : Owned owner q b m) {x : ℕ} (hx : a ≤ x)
    (hx' : x < a + n) (hy : b ≤ x) (hy' : x < b + m) : p = q :=
  Option.some.inj ((h x hx hx').symm.trans (h' x hy hy'))

theorem Owned.sub (h : Owned owner p a n) (hab : a ≤ b) (hm : b + m ≤ a + n) :
    Owned owner p b m := fun x hx hx' => h x (by omega) (by omega)

section Transfer
variable [DecidableEq P]

/-- What `p` owned, `q` owns, or nobody. -/
def rename (owner : ℕ → Option P) (p : P) (q : Option P) : ℕ → Option P :=
  fun x => if owner x = some p then q else owner x

theorem Owned.renamed (h : Owned owner p a n) : Owned (rename owner p (some q)) q a n := by
  intro x hx hx'
  unfold rename
  rw [if_pos (h x hx hx')]

/-- The other owners keep what they have. -/
theorem Owned.rename_of_ne (h : Owned owner p a n) (hne : p ≠ q) (r : Option P) :
    Owned (rename owner q r) p a n := by
  intro x hx hx'
  unfold rename
  rw [if_neg, h x hx hx']
  rw [h x hx hx']
  exact fun heq => hne (Option.some.inj heq)

end Transfer

/-- The `n` addresses from `a` on go to `p`. -/
def grant (owner : ℕ → Option P) (p : P) (a n : ℕ) : ℕ → Option P :=
  fun x => if a ≤ x ∧ x < a + n then some p else owner x

theorem owned_grant (owner : ℕ → Option P) (p : P) (a n : ℕ) : Owned (grant owner p a n) p a n := by
  intro x hx hx'
  unfold grant
  rw [if_pos ⟨hx, hx'⟩]

/-- A range apart from the one that was granted keeps its owner. -/
theorem Owned.grant_of_apart (h : Owned owner p a n) (happart : Apart a n b m) (q : P) :
    Owned (grant owner q b m) p a n := by
  intro x hx hx'
  unfold Apart at happart
  unfold grant
  rw [if_neg (by omega), h x hx hx']

/-- Granting a part of one owner's range takes nothing from the others. -/
theorem Owned.grant_of_owned (h : Owned owner p a n) (hpart : Owned owner q b m) (hne : p ≠ q)
    (r : P) : Owned (grant owner r b m) p a n := by
  intro x hx hx'
  unfold grant
  rw [if_neg, h x hx hx']
  intro hmem
  exact hne (Option.some.inj ((h x hx hx').symm.trans (hpart x hmem.1 hmem.2)))

/-- Granting addresses of nobody takes nothing from anybody. -/
theorem Owned.grant_of_none (h : Owned owner p a n)
    (hnone : ∀ x, b ≤ x → x < b + m → owner x = none) (q : P) :
    Owned (grant owner q b m) p a n := by
  intro x hx hx'
  unfold grant
  rw [if_neg, h x hx hx']
  intro hmem
  have heq := hnone x hmem.1 hmem.2
  rw [h x hx hx'] at heq
  exact absurd heq (by simp)

/-! ### Linked lists -/

/-- From `head` the links go through `nodes` and end at 0. -/
def Linked (next : ℕ → ℕ) : ℕ → List ℕ → Prop
  | head, [] => head = 0
  | head, node :: rest => head = node ∧ node ≠ 0 ∧ Linked next (next node) rest

variable {next next' : ℕ → ℕ} {head : ℕ} {nodes nodes' : List ℕ}

/-- The list depends on the links of its nodes only. -/
theorem Linked.congr (h : Linked next head nodes) (hsame : ∀ x ∈ nodes, next' x = next x) :
    Linked next' head nodes := by
  induction nodes generalizing head with
  | nil => exact h
  | cons node rest ih =>
    obtain ⟨hhead, hne, hrest⟩ := h
    refine ⟨hhead, hne, ?_⟩
    rw [hsame node List.mem_cons_self]
    exact ih hrest fun x hx => hsame x (List.mem_cons_of_mem _ hx)

/-- Memory links one list from a head. -/
theorem Linked.unique (h : Linked next head nodes) (h' : Linked next head nodes') :
    nodes = nodes' := by
  induction nodes generalizing head nodes' with
  | nil =>
    cases nodes' with
    | nil => rfl
    | cons node' rest' => exact absurd (h.symm.trans h'.1).symm h'.2.1
  | cons node rest ih =>
    cases nodes' with
    | nil => exact absurd (h.1.symm.trans h') h.2.1
    | cons node' rest' =>
      obtain rfl : node = node' := h.1.symm.trans h'.1
      rw [ih h.2.2 h'.2.2]

theorem Linked.head_ne (h : Linked next head nodes) (hne : head ≠ 0) :
    ∃ rest, nodes = head :: rest ∧ Linked next (next head) rest := by
  cases nodes with
  | nil => exact absurd h hne
  | cons node rest =>
    obtain ⟨rfl, _, hrest⟩ := h
    exact ⟨rest, rfl, hrest⟩

end Ownership
