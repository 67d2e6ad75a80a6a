import Mathlib.Data.Finset.Card
import Mathlib.Data.Finset.Dedup

/-!
# Searching with a work list

A stack of things to look at and a set of those seen. Looking at one changes the result and
pushes more; what is to be skipped or was seen is dropped. Such a search looks at everything
that can be reached, once, and it ends wherever all that can be pushed is of a finite set.
-/

namespace WorkList

variable {α σ : Type*}

/-- The search, of so many turns. `visit` gives what is pushed, in the order in which it is
taken, and the new result. -/
def search [DecidableEq α] (skip : α → Bool) (visit : α → σ → List α × σ) :
    ℕ → List α → Finset α → σ → Option (Finset α × σ)
  | _, [], seen, out => some (seen, out)
  | 0, _ :: _, _, _ => none
  | turns + 1, a :: pending, seen, out =>
    if skip a ∨ a ∈ seen then search skip visit turns pending seen out
    else search skip visit turns ((visit a out).1 ++ pending) (insert a seen) (visit a out).2

/-- What can be reached from what is pending, past nothing that is skipped or was seen. -/
inductive Reached (skip : α → Bool) (next : α → List α) (seen : Finset α) (pending : List α) :
    α → Prop
  | pending {a : α} : a ∈ pending → skip a = false → a ∉ seen → Reached skip next seen pending a
  | next {a b : α} : Reached skip next seen pending a → b ∈ next a → skip b = false → b ∉ seen →
      Reached skip next seen pending b

namespace Reached

variable {skip : α → Bool} {next : α → List α} {seen : Finset α} {pending : List α} {a b : α}

theorem notMem (h : Reached skip next seen pending a) : a ∉ seen := by
  cases h <;> assumption

/-- What is dropped leads nowhere. -/
theorem cons_iff_of_dropped (hdrop : skip a = true ∨ a ∈ seen) :
    Reached skip next seen (a :: pending) b ↔ Reached skip next seen pending b := by
  constructor
  · intro h
    induction h with
    | @pending c hc hskip hseen =>
      rcases List.mem_cons.mp hc with heq | hc
      · subst heq
        simp [hskip, hseen] at hdrop
      · exact .pending hc hskip hseen
    | next _ hnext hskip hseen ih => exact .next ih hnext hskip hseen
  · intro h
    induction h with
    | pending hc hskip hseen => exact .pending (List.mem_cons_of_mem a hc) hskip hseen
    | next _ hnext hskip hseen ih => exact .next ih hnext hskip hseen

/-- What is looked at is reached, and else what it pushes leads there. -/
theorem cons_iff_of_visited [DecidableEq α] (hskip : skip a = false) (hseen : a ∉ seen) :
    Reached skip next seen (a :: pending) b ↔
      b = a ∨ Reached skip next (insert a seen) (next a ++ pending) b := by
  have hfirst : Reached skip next seen (a :: pending) a :=
    .pending List.mem_cons_self hskip hseen
  constructor
  · intro h
    induction h with
    | @pending c hc hcskip hcseen =>
      by_cases heq : c = a
      · exact .inl heq
      · have hin : c ∈ pending := (List.mem_cons.mp hc).resolve_left heq
        exact .inr (.pending (List.mem_append_right _ hin) hcskip (by simp [heq, hcseen]))
    | @next c d _ hnext hdskip hdseen ih =>
      by_cases heq : d = a
      · exact .inl heq
      · have hnew : d ∉ insert a seen := by simp [heq, hdseen]
        rcases ih with hc | hc
        · subst hc
          exact .inr (.pending (List.mem_append_left _ hnext) hdskip hnew)
        · exact .inr (.next hc hnext hdskip hnew)
  · intro h
    rcases h with heq | h
    · exact heq ▸ hfirst
    · induction h with
      | @pending c hc hcskip hcseen =>
        have hold : c ∉ seen := fun hin => hcseen (Finset.mem_insert_of_mem hin)
        rcases List.mem_append.mp hc with hc | hc
        · exact .next hfirst hc hcskip hold
        · exact .pending (List.mem_cons_of_mem a hc) hcskip hold
      | @next c d _ hnext hdskip hdseen ih =>
        have hold : d ∉ seen := fun hin => hdseen (Finset.mem_insert_of_mem hin)
        exact .next ih hnext hdskip hold

/-- What is closed under the pushes and holds of what is pending, holds of all that is
reached. -/
theorem closed {P : α → Prop} (h : Reached skip next seen pending a)
    (start : ∀ b ∈ pending, skip b = false → P b)
    (keep : ∀ b c, P b → c ∈ next b → skip c = false → P c) : P a := by
  induction h with
  | pending hin hskip _ => exact start _ hin hskip
  | next _ hnext hskip _ ih => exact keep _ _ ih hnext hskip

theorem not_nil : ¬ Reached skip next seen [] a := by
  intro h
  exact h.closed (P := fun _ => False) (by simp) (fun _ _ hfalse _ _ => hfalse)

end Reached

section

variable [DecidableEq α] {skip : α → Bool} {visit : α → σ → List α × σ} {next : α → List α}

/-- A search that ends has looked once at each thing that can be reached, and its result is that
of looking at them in turn. -/
theorem search_spec (hnext : ∀ a out, (visit a out).1 = next a) (turns : ℕ) :
    ∀ {pending : List α} {seen : Finset α} {out : σ} {seen' : Finset α} {out' : σ},
      search skip visit turns pending seen out = some (seen', out') →
      ∃ order : List α, order.Nodup ∧
        (∀ a, a ∈ order ↔ Reached skip next seen pending a) ∧
        seen' = seen ∪ order.toFinset ∧
        out' = order.foldl (fun out a => (visit a out).2) out := by
  induction turns with
  | zero =>
    intro pending seen out seen' out' h
    cases pending with
    | nil =>
      obtain ⟨rfl, rfl⟩ : seen = seen' ∧ out = out' := by simpa [search] using h
      exact ⟨[], List.nodup_nil, fun a => by simp [Reached.not_nil], by simp, rfl⟩
    | cons a pending => simp [search] at h
  | succ turns ih =>
    intro pending seen out seen' out' h
    cases pending with
    | nil =>
      obtain ⟨rfl, rfl⟩ : seen = seen' ∧ out = out' := by simpa [search] using h
      exact ⟨[], List.nodup_nil, fun a => by simp [Reached.not_nil], by simp, rfl⟩
    | cons a pending =>
      rw [search] at h
      split at h
      · rename_i hdrop
        obtain ⟨order, hnodup, hmem, hseen, hout⟩ := ih h
        exact ⟨order, hnodup, fun b => (hmem b).trans (Reached.cons_iff_of_dropped hdrop).symm,
          hseen, hout⟩
      · rename_i hvisit
        have hskip : skip a = false := by simpa using fun htrue => hvisit (.inl htrue)
        have hnew : a ∉ seen := fun hin => hvisit (.inr hin)
        rw [hnext a out] at h
        obtain ⟨order, hnodup, hmem, hseen, hout⟩ := ih h
        have hfirst : a ∉ order := fun hin =>
          ((hmem a).mp hin).notMem (Finset.mem_insert_self a seen)
        refine ⟨a :: order, List.nodup_cons.mpr ⟨hfirst, hnodup⟩, fun b => ?_, ?_, hout⟩
        · rw [List.mem_cons, hmem b, Reached.cons_iff_of_visited hskip hnew]
        · rw [hseen, List.toFinset_cons, Finset.insert_union, Finset.union_insert]

/-- Where all that is pushed is of a finite set and at most `width` are pushed at a time, a
search ends. -/
theorem search_ends (hnext : ∀ a out, (visit a out).1 = next a) {width : ℕ}
    (hwidth : ∀ a, (next a).length ≤ width) (all : Finset α)
    (hclosed : ∀ a, ∀ b ∈ next a, b ∈ all) (turns : ℕ) :
    ∀ {pending : List α} {seen : Finset α} {out : σ}, (∀ a ∈ pending, a ∈ all) →
      width * (all \ seen).card + pending.length ≤ turns →
      (search skip visit turns pending seen out).isSome := by
  induction turns with
  | zero =>
    intro pending seen out _ hturns
    have hempty : pending = [] := List.length_eq_zero_iff.mp (by omega)
    rw [hempty]
    rfl
  | succ turns ih =>
    intro pending seen out hin hturns
    cases pending with
    | nil => rfl
    | cons a pending =>
      have htail : ∀ b ∈ pending, b ∈ all := fun b hb => hin b (List.mem_cons_of_mem a hb)
      rw [List.length_cons] at hturns
      rw [search]
      split
      · exact ih htail (by omega)
      · rename_i hvisit
        have hnew : a ∉ seen := fun hseen => hvisit (.inr hseen)
        have hmem : a ∈ all \ seen :=
          Finset.mem_sdiff.mpr ⟨hin a List.mem_cons_self, hnew⟩
        have hcard : (all \ insert a seen).card + 1 = (all \ seen).card := by
          rw [Finset.sdiff_insert]
          exact Finset.card_erase_add_one hmem
        refine ih ?_ ?_
        · intro b hb
          rcases List.mem_append.mp hb with hb | hb
          · exact hclosed a b (hnext a out ▸ hb)
          · exact htail b hb
        · have hpushed := hwidth a
          rw [← hcard, Nat.mul_add] at hturns
          rw [List.length_append, hnext a out]
          omega

end

end WorkList
