import Mathlib.Data.List.Nodup
import Mathlib.Logic.Function.Basic

/-!
# Singly linked lists

The nodes of a list are known by their addresses, each with the address of the next one, and the
list ends at a null address.
-/

variable {α : Type*}

/-- The list that starts at this address has these nodes. -/
inductive Linked (null : α) (next : α → α) : α → List α → Prop
  | nil : Linked null next null []
  | cons {node : α} {nodes : List α} (hnode : node ≠ null) (hrest : Linked null next (next node) nodes) :
      Linked null next node (node :: nodes)

namespace Linked

variable {null head node prev : α} {next next' : α → α} {nodes before after : List α}

theorem tail (h : Linked null next head (node :: nodes)) : Linked null next (next node) nodes := by
  cases h with
  | cons _ hrest => exact hrest

theorem head_eq (h : Linked null next head (node :: nodes)) : node = head ∧ node ≠ null := by
  cases h with
  | cons hnode _ => exact ⟨rfl, hnode⟩

theorem ne_null (h : Linked null next head nodes) (hmem : node ∈ nodes) : node ≠ null := by
  induction h with
  | nil => exact absurd hmem List.not_mem_nil
  | @cons first rest hfirst _ ih =>
    rcases List.mem_cons.mp hmem with rfl | hmem
    · exact hfirst
    · exact ih hmem

/-- What a list has is settled by where it starts. -/
theorem unique (h : Linked null next head nodes) {nodes' : List α}
    (h' : Linked null next head nodes') : nodes = nodes' := by
  induction h generalizing nodes' with
  | nil =>
    cases h' with
    | nil => rfl
    | cons hnode _ => exact absurd rfl hnode
  | @cons node nodes hnode _ ih =>
    cases h' with
    | nil => exact absurd rfl hnode
    | cons _ hrest => rw [ih hrest]

theorem suffix (h : Linked null next head (before ++ node :: after)) :
    Linked null next node (node :: after) := by
  induction before generalizing head with
  | nil =>
    obtain ⟨rfl, -⟩ := head_eq h
    exact h
  | cons first before ih => exact ih (tail h)

/-- A list that ends comes to no node twice. -/
theorem nodup (h : Linked null next head nodes) : nodes.Nodup := by
  induction h with
  | nil => exact List.nodup_nil
  | @cons node nodes hnode hrest ih =>
    refine List.nodup_cons.mpr ⟨fun hmem => ?_, ih⟩
    obtain ⟨before, after, rfl⟩ := List.append_of_mem hmem
    have hlonger := (suffix hrest).unique (.cons hnode hrest)
    have hlength := congrArg List.length hlonger
    simp only [List.length_cons, List.length_append] at hlength
    omega

/-- Links elsewhere do not matter. -/
theorem congr (h : Linked null next head nodes) (hnext : ∀ node ∈ nodes, next' node = next node) :
    Linked null next' head nodes := by
  induction h with
  | nil => exact .nil
  | @cons node nodes hnode _ ih =>
    refine .cons hnode ?_
    rw [hnext node List.mem_cons_self]
    exact ih fun other hother => hnext other (List.mem_cons_of_mem node hother)

variable [DecidableEq α]

theorem update (h : Linked null next head nodes) (hprev : prev ∉ nodes) (target : α) :
    Linked null (Function.update next prev target) head nodes :=
  h.congr fun node hnode => Function.update_of_ne (fun heq : node = prev => hprev (heq ▸ hnode)) _ _

/-- A new first node. -/
theorem push (h : Linked null next head nodes) (hnode : node ≠ null) (hnew : node ∉ nodes) :
    Linked null (Function.update next node head) node (node :: nodes) := by
  refine .cons hnode ?_
  rw [Function.update_self]
  exact h.update hnew head

/-- A node is taken out by its predecessor's link. -/
theorem unlink (h : Linked null next head (before ++ prev :: node :: after)) :
    Linked null (Function.update next prev (next node)) head (before ++ prev :: after) := by
  have hnodup := h.nodup
  induction before generalizing head with
  | nil =>
    obtain ⟨rfl, hhead⟩ := head_eq h
    refine .cons hhead ?_
    rw [Function.update_self]
    have hafter : prev ∉ after := fun hmem => (List.nodup_cons.mp hnodup).1 (List.mem_cons_of_mem node hmem)
    rw [List.nil_append] at h
    exact h.tail.tail.update hafter _
  | cons first before ih =>
    obtain ⟨rfl, hhead⟩ := head_eq h
    have hne : first ≠ prev := by
      rintro rfl
      exact (List.nodup_cons.mp hnodup).1 (List.mem_append_right before List.mem_cons_self)
    refine .cons hhead ?_
    rw [Function.update_of_ne hne]
    exact ih (tail h) (List.nodup_cons.mp hnodup).2

end Linked
