import Mathlib.Data.List.Nodup

/-!
# Stacks with tagged heads

The nodes of a stack are linked by the values that its head has: each names a node, and whatever else
it holds makes it new when the node is pushed. What was seen below a value that has been the head
stays so for as long as the value can come back, so that a head that is exchanged for the link that
was read takes its node off and nothing else.
-/

variable {H E : Type*}

/-- The nodes that a head leads to, each with the value that names it. -/
inductive TaggedStack (nodeOf : H → Option E) (next : E → H) : H → List (H × E) → Prop
  | nil {head : H} (hend : nodeOf head = none) : TaggedStack nodeOf next head []
  | cons {head : H} {node : E} {nodes : List (H × E)} (hnode : nodeOf head = some node)
      (hrest : TaggedStack nodeOf next (next node) nodes) :
      TaggedStack nodeOf next head ((head, node) :: nodes)

namespace TaggedStack

variable {nodeOf : H → Option E} {next next' : E → H} {head tagged : H} {node : E}
  {nodes : List (H × E)} {used : List H}

/-- The node on top. -/
theorem pop (h : TaggedStack nodeOf next head nodes) (hnode : nodeOf head = some node) :
    ∃ rest, nodes = (head, node) :: rest ∧ TaggedStack nodeOf next (next node) rest := by
  cases h with
  | nil hend => exact absurd (hnode.symm.trans hend) nofun
  | cons hnode' hrest =>
    obtain rfl := Option.some.inj (hnode'.symm.trans hnode)
    exact ⟨_, rfl, hrest⟩

theorem nodeOf_of_mem (h : TaggedStack nodeOf next head nodes) (hmem : (tagged, node) ∈ nodes) :
    nodeOf tagged = some node := by
  induction h with
  | nil => exact absurd hmem List.not_mem_nil
  | cons hnode _ ih =>
    rcases List.mem_cons.mp hmem with heq | hmem
    · obtain ⟨rfl, rfl⟩ := Prod.mk.inj heq
      exact hnode
    · exact ih hmem

/-- The links of other nodes do not matter. -/
theorem congr (h : TaggedStack nodeOf next head nodes)
    (hnext : ∀ node ∈ nodes.map Prod.snd, next' node = next node) :
    TaggedStack nodeOf next' head nodes := by
  induction h with
  | nil hend => exact .nil hend
  | @cons head node nodes hnode _ ih =>
    refine .cons hnode ?_
    rw [hnext node (by simp)]
    exact ih fun other hother => hnext other (List.mem_cons_of_mem _ hother)

/-- A node that is linked to the head is put on top. -/
theorem push (h : TaggedStack nodeOf next head nodes) (hnode : nodeOf tagged = some node)
    (hlink : next node = head) : TaggedStack nodeOf next tagged ((tagged, node) :: nodes) :=
  .cons hnode (hlink ▸ h)

/-- What was seen of a value that was the head: it has been used, and as long as the stack can come to
it again, what was seen holds. -/
structure Seen (used : List H) (nodes : List (H × E)) (tagged : H) (seen : Prop) : Prop where
  used : tagged ∈ used
  seen (h : tagged ∈ nodes.map Prod.fst) : seen

variable {seen seen' : Prop}

theorem Seen.imp (h : Seen used nodes tagged seen) (himp : tagged ∈ nodes.map Prod.fst → seen → seen') :
    Seen used nodes tagged seen' :=
  ⟨h.used, fun hmem => himp hmem (h.seen hmem)⟩

/-- Taking the node on top makes no value come back. -/
theorem Seen.pop {rest : List (H × E)} (h : Seen used ((head, node) :: rest) tagged seen) :
    Seen used rest tagged seen :=
  ⟨h.used, fun hmem => h.seen (List.mem_cons_of_mem _ hmem)⟩

/-- A node is pushed under a value that is new. -/
theorem Seen.push {v : H} (h : Seen used nodes tagged seen) (hnew : v ∉ used) :
    Seen (v :: used) ((v, node) :: nodes) tagged seen := by
  refine ⟨List.mem_cons_of_mem _ h.used, fun hmem => ?_⟩
  rcases List.mem_cons.mp hmem with rfl | hmem
  · exact absurd h.used hnew
  · exact h.seen hmem

end TaggedStack
