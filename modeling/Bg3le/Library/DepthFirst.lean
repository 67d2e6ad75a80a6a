import Mathlib.Data.List.Basic
import Mathlib.Data.List.Infix
import Mathlib.Data.List.Nodup
import Mathlib.Logic.Relation

/-!
# Ordered depth-first search

A depth-first search over a graph given by ordered successor lists, described by a big-step
derivation (`Explores`), and a description of its finishing order that does not run it:

* `Chain path cands p v`: `p` is a chain of successors from one of `cands` to `v` that repeats
  no node and avoids `path`;
* `Precedes cands p q`: at the first place where `p` and `q` differ, `p` takes the node listed
  earlier;
* `IsFirst path cands p v`: `p` is the first chain to `v`.

`Explores.finished` says that the search finishes `v` before `w` exactly when the first chain to
`v` runs through `w` or precedes the first chain to `w`. The graph may have cycles.
-/

namespace DepthFirst

variable {V : Type*} (succs : V → List V)

/-- `Explores path done cands new`: a search standing at the end of `path`, with `done` already
finished, tries the candidates `cands` in order and finishes `new`, in that order. -/
inductive Explores : List V → List V → List V → List V → Prop
  | nil {path done : List V} : Explores path done [] []
  | skip {path done cands new : List V} {c : V} (hseen : c ∈ done ∨ c ∈ path)
      (hrest : Explores path done cands new) : Explores path done (c :: cands) new
  | visit {path done cands below after : List V} {c : V} (hdone : c ∉ done) (hpath : c ∉ path)
      (hbelow : Explores (c :: path) done (succs c) below)
      (hafter : Explores path (done ++ (below ++ [c])) cands after) :
      Explores path done (c :: cands) (below ++ [c] ++ after)

/-- A chain of successors from one of `cands` to `v`, without repetition and off `path`. -/
inductive Chain : List V → List V → List V → V → Prop
  | last {path cands : List V} {v : V} (hmem : v ∈ cands) (hpath : v ∉ path) :
      Chain path cands [v] v
  | step {path cands p : List V} {x v : V} (hmem : x ∈ cands) (hpath : x ∉ path)
      (hrest : Chain (x :: path) (succs x) p v) : Chain path cands (x :: p) v

/-- Every successor of a finished node is finished, or still open on the path. -/
def Closed (path done : List V) : Prop := ∀ d ∈ done, ∀ e ∈ succs d, e ∈ done ∨ e ∈ path

section Order

variable [DecidableEq V]

/-- `p` takes the earlier candidate at the first place where it differs from `q`. -/
inductive Precedes : List V → List V → List V → Prop
  | here {cands p q : List V} {x y : V} (h : cands.idxOf x < cands.idxOf y) :
      Precedes cands (x :: p) (y :: q)
  | there {cands p q : List V} {x : V} (hrest : Precedes (succs x) p q) :
      Precedes cands (x :: p) (x :: q)

/-- `p` is the first of the chains to `v`. -/
structure IsFirst (path cands p : List V) (v : V) : Prop where
  chain : Chain succs path cands p v
  first : ∀ q, Chain succs path cands q v → q = p ∨ Precedes succs cands p q

/-- The finishing order: the first chain to `v` runs through `w`, or precedes the one to `w`. -/
def ChainBefore (path cands : List V) (v w : V) : Prop :=
  ∃ p q, IsFirst succs path cands p v ∧ IsFirst succs path cands q w ∧
    (q <+: p ∨ Precedes succs cands p q)

end Order

variable {succs}

/-! ## Chains -/

theorem Chain.ne_nil {path cands p : List V} {v : V} (h : Chain succs path cands p v) :
    p ≠ [] := by
  cases h <;> simp

theorem Chain.mem {path cands p : List V} {v : V} (h : Chain succs path cands p v) : v ∈ p := by
  induction h with
  | last => simp
  | step _ _ _ ih => exact List.mem_cons_of_mem _ ih

theorem Chain.not_mem_path {path cands p : List V} {v : V} (h : Chain succs path cands p v) :
    v ∉ path := by
  induction h with
  | last _ hpath => exact hpath
  | step _ _ _ ih => exact fun hv => ih (List.mem_cons_of_mem _ hv)

/-- Only the members of the candidate list and of the path matter. -/
theorem Chain.mono {path path' cands cands' p : List V} {v : V}
    (h : Chain succs path cands p v) (hpath : path' ⊆ path) (hcands : cands ⊆ cands') :
    Chain succs path' cands' p v := by
  induction h generalizing path' cands' with
  | last hmem hv => exact .last (hcands hmem) fun h' => hv (hpath h')
  | step hmem hx _ ih =>
    exact .step (hcands hmem) (fun h' => hx (hpath h'))
      (ih (List.cons_subset_cons _ hpath) (List.Subset.refl _))

/-- A chain that starts inside a closed set of nodes ends inside it. -/
theorem Chain.mem_of_closed {path done cands p : List V} {v : V}
    (h : Chain succs path cands p v) (hcl : Closed succs path done)
    (hin : ∀ c ∈ cands, c ∉ path → c ∈ done) : v ∈ done := by
  induction h with
  | last hmem hv => exact hin _ hmem hv
  | @step path cands p x v hmem hx _ ih =>
    have hxd : x ∈ done := hin x hmem hx
    refine ih (fun d hd e he => ?_) fun c hc hcp => ?_
    · rcases hcl d hd e he with h | h
      · exact .inl h
      · exact .inr (List.mem_cons_of_mem _ h)
    · rcases hcl x hxd c hc with h | h
      · exact h
      · exact absurd (List.mem_cons_of_mem _ h) hcp

/-- A chain to an unfinished node does not start at a finished one. -/
theorem Chain.head_not_mem {path done cands p : List V} {x v : V}
    (h : Chain succs path cands (x :: p) v) (hcl : Closed succs path done) (hv : v ∉ done) :
    x ∉ done := by
  intro hx
  have h' : Chain succs path [x] (x :: p) v := by
    cases h with
    | last _ hp => exact .last (by simp) hp
    | step _ hp hr => exact .step (by simp) hp hr
  exact hv (h'.mem_of_closed hcl fun c hc _ => by rw [List.mem_singleton.mp hc]; exact hx)

theorem Chain.last_unique {path cands p : List V} {v w : V} (hv : Chain succs path cands p v)
    (hw : Chain succs path cands p w) : v = w := by
  induction hv with
  | last =>
    cases hw with
    | last => rfl
    | step _ _ hr => exact absurd rfl hr.ne_nil
  | step _ _ hr ih =>
    cases hw with
    | last => exact absurd rfl hr.ne_nil
    | step _ _ hr' => exact ih hr'

/-- A chain among `cands` does not take `c`, if no chain from `c` gets to its end. -/
theorem Chain.ne_cons {path cands p : List V} {c v : V} (h : Chain succs path cands p v)
    (hc : ∀ q, ¬ Chain succs path (c :: cands) (c :: q) v) : ∀ q, p ≠ c :: q := by
  rintro q rfl
  exact hc q (h.mono (List.Subset.refl _) (List.subset_cons_self ..))

/-! ## The order on chains -/

section Order

variable [DecidableEq V]

theorem Precedes.asymm {cands p q : List V} (h : Precedes succs cands p q) :
    ¬ Precedes succs cands q p := by
  induction h with
  | here hlt =>
    rintro (hlt' | _)
    · exact lt_asymm hlt hlt'
    · exact lt_irrefl _ hlt
  | there hrest ih =>
    rintro (hlt | hrest')
    · exact lt_irrefl _ hlt
    · exact ih hrest'

/-- A chain and one of its beginnings do not differ anywhere. -/
theorem Precedes.not_prefix {cands p q : List V} (h : Precedes succs cands p q) :
    ¬ q <+: p ∧ ¬ p <+: q := by
  induction h with
  | here hlt =>
    constructor <;> intro hp <;> rw [List.cons_prefix_cons] at hp <;>
      exact absurd hlt (by rw [hp.1]; exact lt_irrefl _)
  | there _ ih => simpa [List.cons_prefix_cons] using ih

/-- An extra candidate in front changes nothing for chains that do not take it. -/
theorem Precedes.cons {cands p q : List V} {c : V} (h : Precedes succs cands p q)
    (hp : ∀ p', p ≠ c :: p') (hq : ∀ q', q ≠ c :: q') : Precedes succs (c :: cands) p q := by
  cases h with
  | @here _ p q x y hlt =>
    have hx : c ≠ x := by rintro rfl; exact hp p rfl
    have hy : c ≠ y := by rintro rfl; exact hq q rfl
    exact .here (by rw [List.idxOf_cons_ne _ hx, List.idxOf_cons_ne _ hy]; omega)
  | there hrest => exact .there hrest

/-- The candidate in front precedes every chain that does not take it. -/
theorem Precedes.head {cands p q : List V} {c : V} (hne : q ≠ []) (hq : ∀ q', q ≠ c :: q') :
    Precedes succs (c :: cands) (c :: p) q := by
  cases q with
  | nil => exact absurd rfl hne
  | cons y q =>
    have hy : c ≠ y := by rintro rfl; exact hq q rfl
    refine .here ?_
    rw [List.idxOf_cons_self, List.idxOf_cons_ne _ hy]
    omega

/-- There is one first chain. -/
theorem IsFirst.unique {path cands p q : List V} {v : V} (hp : IsFirst succs path cands p v)
    (hq : IsFirst succs path cands q v) : p = q := by
  rcases hp.first q hq.chain with h | h
  · exact h.symm
  rcases hq.first p hp.chain with h' | h'
  · exact h'
  · exact absurd h' h.asymm

/-- Two nodes do not each finish before the other. -/
theorem ChainBefore.asymm {path cands : List V} {v w : V}
    (h : ChainBefore succs path cands v w) (hne : v ≠ w) :
    ¬ ChainBefore succs path cands w v := by
  rintro ⟨q', p', hq', hp', h'⟩
  obtain ⟨p, q, hp, hq, h⟩ := h
  obtain rfl := hp.unique hp'
  obtain rfl := hq.unique hq'
  have hpq : p ≠ q := by
    rintro rfl
    exact hne (Chain.last_unique hp.chain hq.chain)
  rcases h with h | h <;> rcases h' with h' | h'
  · exact hpq (h'.eq_of_length_le h.length_le)
  · exact h'.not_prefix.2 h
  · exact h.not_prefix.2 h'
  · exact h.asymm h'

/-! ## The search -/

omit [DecidableEq V] in
/-- A search finishes nothing that was finished or open before. -/
theorem Explores.fresh {path done cands new : List V} (h : Explores succs path done cands new) :
    ∀ v ∈ new, v ∉ done ∧ v ∉ path := by
  induction h with
  | nil => simp
  | skip _ _ ih => exact ih
  | @visit path done cands below after c hdone hpath _ _ ih₁ ih₂ =>
    intro v hv
    simp only [List.mem_append, List.mem_singleton] at hv
    rcases hv with (hv | rfl) | hv
    · exact ⟨(ih₁ v hv).1, fun h => (ih₁ v hv).2 (List.mem_cons_of_mem _ h)⟩
    · exact ⟨hdone, hpath⟩
    · exact ⟨fun h => (ih₂ v hv).1 (List.mem_append_left _ h), (ih₂ v hv).2⟩

omit [DecidableEq V] in
/-- A search finishes nothing twice. -/
theorem Explores.nodup {path done cands new : List V} (h : Explores succs path done cands new) :
    new.Nodup := by
  induction h with
  | nil => simp
  | skip _ _ ih => exact ih
  | @visit path done cands below after c _ _ hbelow hafter ih₁ ih₂ =>
    have hc : c ∉ below := fun hc => (hbelow.fresh c hc).2 (by simp)
    rw [List.nodup_append', List.nodup_append']
    refine ⟨⟨ih₁, by simp, by simpa using hc⟩, ih₂, ?_⟩
    exact fun v hv hv' => (hafter.fresh v hv').1 (List.mem_append_right _ hv)

omit [DecidableEq V] in
/-- A search finishes every candidate that was neither finished nor open, and every successor of
what it finishes. -/
theorem Explores.closed {path done cands new : List V} (h : Explores succs path done cands new)
    (hcl : Closed succs path done) :
    (∀ c ∈ cands, c ∈ done ++ new ∨ c ∈ path) ∧ Closed succs path (done ++ new) := by
  induction h with
  | nil => simpa using hcl
  | @skip path done cands new c hseen _ ih =>
    obtain ⟨h3, h4⟩ := ih hcl
    refine ⟨fun c' hc' => ?_, h4⟩
    rcases List.mem_cons.mp hc' with rfl | hc'
    · exact hseen.imp_left (List.mem_append_left _)
    · exact h3 c' hc'
  | @visit path done cands below after c hdone hpath _ _ ih₁ ih₂ =>
    obtain ⟨c1, k1⟩ := ih₁ fun d hd e he => (hcl d hd e he).imp_right (List.mem_cons_of_mem _)
    have hcl₂ : Closed succs path (done ++ (below ++ [c])) := by
      intro d hd e he
      have hde : e ∈ done ++ below ∨ e ∈ c :: path := by
        rcases List.mem_append.mp hd with hd | hd
        · exact k1 d (List.mem_append_left _ hd) e he
        rcases List.mem_append.mp hd with hd | hd
        · exact k1 d (List.mem_append_right _ hd) e he
        · rw [List.mem_singleton.mp hd] at he
          exact c1 e he
      simp only [List.mem_append, List.mem_cons] at hde ⊢
      tauto
    obtain ⟨c2, k2⟩ := ih₂ hcl₂
    refine ⟨fun c' hc' => ?_, by simpa only [List.append_assoc] using k2⟩
    rcases List.mem_cons.mp hc' with rfl | hc'
    · exact .inl (by simp)
    · simpa only [List.append_assoc] using c2 c' hc'

omit [DecidableEq V] in
/-- A search stays inside a set of nodes that holds its candidates and all successors. -/
theorem Explores.mem_of_closed {path done cands new : List V} {S : V → Prop}
    (h : Explores succs path done cands new) (hsuccs : ∀ v, ∀ e ∈ succs v, S e)
    (hcands : ∀ c ∈ cands, S c) : ∀ v ∈ new, S v := by
  induction h with
  | nil => simp
  | skip _ _ ih => exact ih fun c hc => hcands c (List.mem_cons_of_mem _ hc)
  | @visit path done cands below after c _ _ _ _ ih₁ ih₂ =>
    intro v hv
    simp only [List.mem_append, List.mem_singleton] at hv
    rcases hv with (hv | rfl) | hv
    · exact ih₁ (hsuccs c) v hv
    · exact hcands v (by simp)
    · exact ih₂ (fun c hc => hcands c (List.mem_cons_of_mem _ hc)) v hv

omit [DecidableEq V] in
/-- One candidate, then the others. -/
theorem Explores.cons {path done cands new₁ new₂ : List V} {c : V}
    (h₁ : Explores succs path done [c] new₁)
    (h₂ : Explores succs path (done ++ new₁) cands new₂) :
    Explores succs path done (c :: cands) (new₁ ++ new₂) := by
  cases h₁ with
  | skip hseen hrest =>
    cases hrest
    exact .skip hseen (by simpa using h₂)
  | visit hdone hpath hbelow hafter =>
    cases hafter
    simp only [List.append_nil] at h₂ ⊢
    exact .visit hdone hpath hbelow h₂

/-- A first chain among later candidates is first among all, once the earlier candidate `c` is
not the start of any chain to the node. -/
theorem IsFirst.cons {path cands p : List V} {c v : V} (h : IsFirst succs path cands p v)
    (hc : ∀ q, ¬ Chain succs path (c :: cands) (c :: q) v) :
    IsFirst succs path (c :: cands) p v := by
  refine ⟨h.chain.mono (List.Subset.refl _) (List.subset_cons_self ..), fun q hq => ?_⟩
  have hq' : Chain succs path cands q v := by
    cases hq with
    | last hmem hp =>
      rcases List.mem_cons.mp hmem with rfl | hmem
      · exact absurd (.last (by simp) hp) (hc [])
      · exact .last hmem hp
    | @step _ _ q x _ hmem hp hr =>
      rcases List.mem_cons.mp hmem with rfl | hmem
      · exact absurd (.step (by simp) hp hr) (hc q)
      · exact .step hmem hp hr
  exact (h.first q hq').imp_right fun hpq =>
    hpq.cons (h.chain.ne_cons hc) (hq'.ne_cons hc)

/-- The candidate itself is first, by the chain that stops there. -/
theorem IsFirst.head {path cands : List V} {c : V} (hc : c ∉ path) :
    IsFirst succs path (c :: cands) [c] c := by
  refine ⟨.last (by simp) hc, fun q hq => ?_⟩
  by_cases hq' : ∃ q', q = c :: q'
  · obtain ⟨q', rfl⟩ := hq'
    cases hq with
    | last => exact .inl rfl
    | step _ _ hr => exact absurd (List.mem_cons_self ..) hr.not_mem_path
  · exact .inr (.head hq.ne_nil fun q' h => hq' ⟨q', h⟩)

/-- Below the candidate `c`, the first chain goes through `c`. -/
theorem IsFirst.below {path cands p : List V} {c v : V} (hc : c ∉ path)
    (h : IsFirst succs (c :: path) (succs c) p v) :
    IsFirst succs path (c :: cands) (c :: p) v := by
  refine ⟨.step (by simp) hc h.chain, fun q hq => ?_⟩
  by_cases hq' : ∃ q', q = c :: q'
  · obtain ⟨q', rfl⟩ := hq'
    cases hq with
    | last => exact absurd (List.mem_cons_self ..) h.chain.not_mem_path
    | step _ _ hr => exact (h.first q' hr).imp (congrArg _) .there
  · exact .inr (.head hq.ne_nil fun q' h => hq' ⟨q', h⟩)

theorem ChainBefore.cons {path cands : List V} {c v w : V}
    (h : ChainBefore succs path cands v w)
    (hv : ∀ q, ¬ Chain succs path (c :: cands) (c :: q) v)
    (hw : ∀ q, ¬ Chain succs path (c :: cands) (c :: q) w) :
    ChainBefore succs path (c :: cands) v w := by
  obtain ⟨p, q, hp, hq, h⟩ := h
  exact ⟨p, q, hp.cons hv, hq.cons hw,
    h.imp_right fun h => h.cons (hp.chain.ne_cons hv) (hq.chain.ne_cons hw)⟩

theorem ChainBefore.below {path cands : List V} {c v w : V} (hc : c ∉ path)
    (h : ChainBefore succs (c :: path) (succs c) v w) :
    ChainBefore succs path (c :: cands) v w := by
  obtain ⟨p, q, hp, hq, h⟩ := h
  refine ⟨c :: p, c :: q, hp.below hc, hq.below hc, h.imp (fun h => ?_) .there⟩
  exact List.cons_prefix_cons.mpr ⟨rfl, h⟩

/-- Every node a search finishes has a first chain, and the search finishes them in the order
of these chains. -/
theorem Explores.finished {path done cands new : List V} (h : Explores succs path done cands new)
    (hcl : Closed succs path done) :
    (∀ v ∈ new, ∃ p, IsFirst succs path cands p v) ∧
      new.Pairwise (ChainBefore succs path cands) := by
  induction h with
  | nil => simp
  | @skip path done cands new c hseen hrest ih =>
    obtain ⟨ih1, ih2⟩ := ih hcl
    have hnew := hrest.fresh
    -- a chain to an unfinished node cannot start at a node that is finished or open
    have hc : ∀ v ∈ new, ∀ q, ¬ Chain succs path (c :: cands) (c :: q) v := by
      intro v hv q hq
      rcases hseen with hseen | hseen
      · exact hq.head_not_mem hcl (hnew v hv).1 hseen
      · cases hq with
        | last _ hp => exact hp hseen
        | step _ hp _ => exact hp hseen
    refine ⟨fun v hv => (ih1 v hv).imp fun p hp => hp.cons (hc v hv), ?_⟩
    exact ih2.imp_of_mem fun hv hw h => h.cons (hc _ hv) (hc _ hw)
  | @visit path done cands below after c hdone hpath hbelow hafter ih₁ ih₂ =>
    have hcl₁ : Closed succs (c :: path) done := fun d hd e he =>
      (hcl d hd e he).imp_right (List.mem_cons_of_mem _)
    have hall : Explores succs path done [c] (below ++ [c] ++ []) :=
      .visit hdone hpath hbelow .nil
    have hcl₂ : Closed succs path (done ++ (below ++ [c])) := by
      simpa using (hall.closed hcl).2
    obtain ⟨f1, o1⟩ := ih₁ hcl₁
    obtain ⟨f2, o2⟩ := ih₂ hcl₂
    have hafter' := hafter.fresh
    have hc : ∀ v ∈ after, ∀ q, ¬ Chain succs path (c :: cands) (c :: q) v := fun v hv q hq =>
      hq.head_not_mem hcl₂ (hafter' v hv).1 (by simp)
    have hfirst : ∀ v ∈ below ++ [c], ∃ p, IsFirst succs path (c :: cands) (c :: p) v := by
      intro v hv
      rcases List.mem_append.mp hv with hv | hv
      · exact (f1 v hv).imp fun p hp => hp.below hpath
      · rw [List.mem_singleton.mp hv]
        exact ⟨[], .head hpath⟩
    refine ⟨fun v hv => ?_, ?_⟩
    · rcases List.mem_append.mp hv with hv | hv
      · obtain ⟨p, hp⟩ := hfirst v hv
        exact ⟨_, hp⟩
      · exact (f2 v hv).imp fun p hp => hp.cons (hc v hv)
    rw [List.pairwise_append, List.pairwise_append]
    refine ⟨⟨o1.imp fun h => h.below hpath, by simp, ?_⟩, ?_, ?_⟩
    · intro v hv w hw
      rw [List.mem_singleton.mp hw]
      obtain ⟨p, hp⟩ := f1 v hv
      exact ⟨c :: p, [c], hp.below hpath, .head hpath, .inl (by simp)⟩
    · exact o2.imp_of_mem fun hv hw h => h.cons (hc _ hv) (hc _ hw)
    · intro v hv w hw
      obtain ⟨p, hp⟩ := hfirst v hv
      obtain ⟨q, hq⟩ := f2 w hw
      exact ⟨_, q, hp, hq.cons (hc w hw), .inr (.head hq.chain.ne_nil (hq.chain.ne_cons (hc w hw)))⟩

/-- In what a search from scratch finishes, `v` stands before `w` exactly when it finishes
before it in the order of first chains. -/
theorem Explores.mem_before_iff {roots new pre post : List V} {v w : V}
    (h : Explores succs [] [] roots new) (hnew : new = pre ++ w :: post) (hv : v ∈ new)
    (hne : v ≠ w) : v ∈ pre ↔ ChainBefore succs [] roots v w := by
  obtain ⟨-, hpair⟩ := h.finished (by simp [Closed])
  rw [hnew, List.pairwise_append, List.pairwise_cons] at hpair
  obtain ⟨-, ⟨hpost, -⟩, hpre⟩ := hpair
  rw [hnew, List.mem_append, List.mem_cons] at hv
  constructor
  · exact fun hv => hpre v hv w (by simp)
  · rintro hb
    rcases hv with hv | hv | hv
    · exact hv
    · exact absurd hv hne
    · exact absurd (hpost v hv) (hb.asymm hne)

/-! ## Acyclic graphs -/

omit [DecidableEq V] in
/-- A chain can be followed by a successor of its end that is not on it. -/
theorem Chain.concat {path cands p : List V} {v e : V} (h : Chain succs path cands p v)
    (he : e ∈ succs v) (hp : e ∉ p) (hpath : e ∉ path) : Chain succs path cands (p ++ [e]) e := by
  induction h with
  | @last path cands v hmem hv =>
    exact .step hmem hv (.last he (by simpa using ⟨fun h => hp (by simp [h]), hpath⟩))
  | @step path cands p x v hmem hx _ ih =>
    simp only [List.mem_cons, not_or] at hp
    exact .step hmem hx (ih he hp.2 (by simpa using ⟨hp.1, hpath⟩))

omit [DecidableEq V] in
/-- Every node on a chain leads to its end. -/
theorem Chain.reaches {path cands p : List V} {v x : V} (h : Chain succs path cands p v)
    (hx : x ∈ p) : Relation.ReflTransGen (fun a b => b ∈ succs a) x v := by
  induction h generalizing x with
  | last => rw [List.mem_singleton.mp hx]
  | @step path cands p y v _ _ hr ih =>
    rcases List.mem_cons.mp hx with rfl | hx
    · cases hr with
      | last hmem _ => exact .single hmem
      | step hmem _ _ => exact .head hmem (ih (by simp))
    · exact ih hx

/-- What precedes a chain with one more node at its end runs through the chain or precedes it. -/
theorem Precedes.of_concat {cands p q : List V} {e : V}
    (h : Precedes succs cands p (q ++ [e])) : q <+: p ∨ Precedes succs cands p q := by
  induction q generalizing cands p with
  | nil => exact .inl (by simp)
  | cons y q ih =>
    cases h with
    | here hlt => exact .inr (.here hlt)
    | there hrest =>
      exact (ih hrest).imp (fun h => List.cons_prefix_cons.mpr ⟨rfl, h⟩) .there

/-- A successor that does not lead back finishes first. -/
theorem ChainBefore.of_succ {cands : List V} {v e : V} (he : e ∈ succs v)
    (hback : ¬ Relation.ReflTransGen (fun a b => b ∈ succs a) e v)
    (hv : ∃ q, IsFirst succs [] cands q v) (hf : ∃ p, IsFirst succs [] cands p e) :
    ChainBefore succs [] cands e v := by
  obtain ⟨q, hq⟩ := hv
  obtain ⟨p, hp⟩ := hf
  have heq : e ∉ q := fun h => hback (hq.chain.reaches h)
  refine ⟨p, q, hp, hq, ?_⟩
  rcases hp.first _ (hq.chain.concat he heq (by simp)) with h | h
  · exact .inl (by simp [← h])
  · exact h.of_concat

end Order

end DepthFirst
