import Mathlib.Data.List.Nodup
import Mathlib.Data.List.Basic
import Mathlib.Logic.Function.Basic

/-!
# Doubly linked lists

Nodes point to the next one and to the one before, `first` to the front. `IsList` says which list
of nodes that spells; the edits of such a list are edits of the list.
-/

variable {α : Type*}

structure Links (α : Type*) where
  first : Option α
  next : α → Option α
  prev : α → Option α

/-- A stretch of linked nodes, between the node before it and the node after it. -/
def Seg (next prev : α → Option α) : Option α → List α → Option α → Prop
  | _, [], _ => True
  | before, a :: l, after =>
    prev a = before ∧ next a = l.head?.or after ∧ Seg next prev (some a) l after

namespace Seg

variable {next next' prev prev' : α → Option α} {before after : Option α} {l l₁ l₂ : List α} {a : α}

theorem append : Seg next prev before (l₁ ++ l₂) after ↔
    Seg next prev before l₁ (l₂.head?.or after) ∧
      Seg next prev (l₁.getLast?.or before) l₂ after := by
  induction l₁ generalizing before with
  | nil => simp [Seg]
  | cons b rest ih =>
    rw [List.cons_append]
    show _ ∧ _ ∧ _ ↔ (_ ∧ _ ∧ _) ∧ _
    rw [ih]
    have hhead : (rest ++ l₂).head?.or after = rest.head?.or (l₂.head?.or after) := by
      cases rest <;> simp
    have hlast : (b :: rest).getLast?.or before = rest.getLast?.or (some b) := by
      rw [List.getLast?_cons]
      cases rest.getLast? <;> simp
    rw [hhead, hlast]
    simp only [and_assoc]

/-- A stretch is about its own nodes only. -/
theorem congr (h : Seg next prev before l after)
    (hsame : ∀ a ∈ l, next' a = next a ∧ prev' a = prev a) : Seg next' prev' before l after := by
  induction l generalizing before with
  | nil => trivial
  | cons a rest ih =>
    obtain ⟨hprev, hnext, hrest⟩ := h
    obtain ⟨hnext', hprev'⟩ := hsame a List.mem_cons_self
    exact ⟨hprev'.trans hprev, hnext'.trans hnext,
      ih hrest fun b hb => hsame b (List.mem_cons_of_mem _ hb)⟩

variable [DecidableEq α]

/-- A node is left out, and those beside it are linked. -/
theorem glue {b : α} (h : Seg next prev before (l₁ ++ b :: l₂) after)
    (hnodup : (l₁ ++ b :: l₂).Nodup)
    (hnext : ∀ c ∈ l₁ ++ l₂, next' c = if l₁.getLast? = some c then next b else next c)
    (hprev : ∀ c ∈ l₁ ++ l₂, prev' c = if l₂.head? = some c then prev b else prev c) :
    Seg next' prev' before (l₁ ++ l₂) after := by
  obtain ⟨hleft, hprevb, hnextb, hright⟩ := append.mp h
  have hdisjoint : ∀ c ∈ l₁, c ∉ l₂ := fun c hc hc' =>
    (List.nodup_append.mp hnodup).2.2 c hc c (List.mem_cons_of_mem _ hc') rfl
  rw [append]
  constructor
  -- on the left only the last node's `next` has changed
  · obtain rfl | ⟨init, p, rfl⟩ := List.eq_nil_or_concat' l₁
    · trivial
    · have hp : p ∉ init := by
        have := (List.nodup_append.mp hnodup).1
        exact fun hmem => (List.nodup_append.mp this).2.2 p hmem p (by simp) rfl
      have hsame : ∀ c ∈ init ++ [p], prev' c = prev c := by
        intro c hc
        rw [hprev c (List.mem_append_left _ hc), if_neg]
        exact fun hhead => hdisjoint c hc (List.mem_of_mem_head? hhead)
      rw [append] at hleft ⊢
      obtain ⟨hinit, hprevp, _, _⟩ := hleft
      refine ⟨hinit.congr fun c hc => ⟨?_, hsame c (List.mem_append_left _ hc)⟩, ?_, ?_, trivial⟩
      · rw [hnext c (List.mem_append_left _ (List.mem_append_left _ hc)), if_neg]
        rw [List.getLast?_concat, Option.some.injEq]
        rintro rfl
        exact hp hc
      · rw [hsame p (by simp), hprevp]
      · rw [hnext p (by simp), List.getLast?_concat, if_pos rfl, hnextb]
        rfl
  -- on the right only the first node's `prev` has changed
  · cases l₂ with
    | nil => trivial
    | cons q rest =>
      obtain ⟨_, hnextq, hrest⟩ := hright
      have hq : q ∉ rest := by
        have := (List.nodup_append.mp hnodup).2.1
        exact (List.nodup_cons.mp (List.nodup_cons.mp this).2).1
      have hsame : ∀ c ∈ q :: rest, next' c = next c := by
        intro c hc
        rw [hnext c (List.mem_append_right _ hc), if_neg]
        exact fun hlast => hdisjoint c (List.mem_of_mem_getLast? hlast) hc
      refine ⟨?_, ?_, hrest.congr fun c hc => ⟨hsame c (List.mem_cons_of_mem _ hc), ?_⟩⟩
      · rw [hprev q (by simp), List.head?_cons, if_pos rfl, hprevb]
      · rw [hsame q List.mem_cons_self, hnextq]
      · rw [hprev c (List.mem_append_right _ (List.mem_cons_of_mem _ hc)), if_neg]
        rw [List.head?_cons, Option.some.injEq]
        rintro rfl
        exact hq hc

/-- The last node is made to point to another one. -/
theorem setNext {after' : Option α} (h : Seg next prev before (l ++ [a]) after) (ha : a ∉ l) :
    Seg (Function.update next a after') prev before (l ++ [a]) after' := by
  rw [append] at h ⊢
  obtain ⟨hl, hprev, _, _⟩ := h
  have hother : ∀ b ∈ l, b ≠ a := by
    rintro b hb rfl
    exact ha hb
  refine ⟨hl.congr fun b hb => ⟨Function.update_of_ne (hother b hb) _ _, rfl⟩, hprev, ?_, trivial⟩
  rw [Function.update_self]
  rfl

/-- The first node is made to point back to another one. -/
theorem setPrev {before' : Option α} (h : Seg next prev before (a :: l) after) (ha : a ∉ l) :
    Seg next (Function.update prev a before') before' (a :: l) after := by
  obtain ⟨_, hnext, hl⟩ := h
  refine ⟨Function.update_self _ _ _, hnext, hl.congr fun b hb => ⟨rfl, ?_⟩⟩
  have hba : b ≠ a := by
    rintro rfl
    exact ha hb
  exact Function.update_of_ne hba _ _

end Seg

namespace Links

variable {L : Links α} {l l₁ l₂ : List α} {a b : α}

/-- The nodes from one on, by their links to the next. -/
def walk (L : Links α) : ℕ → Option α → List α
  | 0, _ => []
  | _, none => []
  | n + 1, some a => a :: L.walk n (L.next a)

/-- The nodes, front to back. -/
structure IsList (L : Links α) (l : List α) : Prop where
  nodup : l.Nodup
  first : L.first = l.head?
  seg : Seg L.next L.prev none l none

theorem IsList.next_prev (h : L.IsList (l₁ ++ a :: l₂)) :
    L.next a = l₂.head? ∧ L.prev a = l₁.getLast? := by
  obtain ⟨_, hprev, hnext, _⟩ := Seg.append.mp h.seg
  exact ⟨by simpa using hnext, by simpa using hprev⟩

theorem walk_of_seg {before : Option α} {n : ℕ} (h : Seg L.next L.prev before l none)
    (hn : l.length ≤ n) : L.walk n l.head? = l := by
  induction l generalizing before n with
  | nil => cases n <;> rfl
  | cons a rest ih =>
    obtain ⟨n, rfl⟩ : ∃ k, n = k + 1 := ⟨n - 1, by simp only [List.length_cons] at hn; omega⟩
    obtain ⟨_, hnext, hrest⟩ := h
    show a :: L.walk n (L.next a) = a :: rest
    rw [hnext, Option.or_none, ih hrest (Nat.le_of_succ_le_succ hn)]

/-- Walking from the front gives the list. -/
theorem IsList.walk {n : ℕ} (h : L.IsList l) (hn : l.length ≤ n) : L.walk n L.first = l := by
  rw [h.first]
  exact walk_of_seg h.seg hn

/-- A first node. -/
theorem IsList.singleton (hnext : L.next a = none) (hprev : L.prev a = none) :
    ({ L with first := some a } : Links α).IsList [a] :=
  ⟨List.nodup_singleton a, rfl, hprev, hnext, trivial⟩

variable [DecidableEq α]

/-- A new node before another. -/
def insertBefore (L : Links α) (node a : α) : Links α :=
  let L := { L with
    prev := Function.update L.prev a (L.prev node)
    next := Function.update L.next a (some node) }
  let L := match L.prev node with
    | some p => { L with next := Function.update L.next p (some a) }
    | none => { L with first := some a }
  { L with prev := Function.update L.prev node (some a) }

/-- A new node after the last one. -/
def insertAfter (L : Links α) (last a : α) : Links α :=
  { L with
    next := Function.update L.next last (some a)
    prev := Function.update L.prev a (some last) }

/-- `node.next = target`, if there is the node. -/
def setNext (L : Links α) (node target : Option α) : Links α :=
  match node with
  | some p => { L with next := Function.update L.next p target }
  | none => L

/-- `node.prev = target`, if there is the node. -/
def setPrev (L : Links α) (node target : Option α) : Links α :=
  match node with
  | some n => { L with prev := Function.update L.prev n target }
  | none => L

@[simp]
theorem setNext_first (L : Links α) (node target : Option α) : (L.setNext node target).first = L.first := by
  cases node <;> rfl

@[simp]
theorem setNext_prev (L : Links α) (node target : Option α) : (L.setNext node target).prev = L.prev := by
  cases node <;> rfl

theorem setNext_next (L : Links α) (node target : Option α) (c : α) :
    (L.setNext node target).next c = if node = some c then target else L.next c := by
  cases node with
  | none => rfl
  | some p => simp only [setNext, Function.update_apply, Option.some.injEq, eq_comm]

@[simp]
theorem setPrev_first (L : Links α) (node target : Option α) : (L.setPrev node target).first = L.first := by
  cases node <;> rfl

@[simp]
theorem setPrev_next (L : Links α) (node target : Option α) : (L.setPrev node target).next = L.next := by
  cases node <;> rfl

theorem setPrev_prev (L : Links α) (node target : Option α) (c : α) :
    (L.setPrev node target).prev c = if node = some c then target else L.prev c := by
  cases node with
  | none => rfl
  | some n => simp only [setPrev, Function.update_apply, Option.some.injEq, eq_comm]

/-- Takes a node out, and leaves it without links. -/
def unlink (L : Links α) (node : α) : Links α :=
  let L := L.setNext (L.prev node) (L.next node)
  let L := L.setPrev (L.next node) (L.prev node)
  let L := if L.first = some node then { L with first := L.next node } else L
  { L with prev := Function.update L.prev node none, next := Function.update L.next node none }

theorem IsList.insertBefore (h : L.IsList (l₁ ++ b :: l₂)) (ha : a ∉ l₁ ++ b :: l₂) :
    (L.insertBefore b a).IsList (l₁ ++ a :: b :: l₂) := by
  have hnew : (l₁ ++ a :: b :: l₂).Nodup := by
    rw [List.nodup_middle]
    exact List.nodup_cons.mpr ⟨ha, h.nodup⟩
  obtain ⟨hleft, hright⟩ := Seg.append.mp h.seg
  have hprev := h.next_prev.2
  have hab : a ≠ b := by
    rintro rfl
    exact ha (by simp)
  have hback : ∀ p, Function.update L.prev a p b = L.prev b :=
    fun p => Function.update_of_ne hab.symm _ _
  -- what the new node and the nodes beside it point to afterwards
  have hright' : ∀ next', (∀ c, c ≠ a → c ∈ b :: l₂ → next' c = L.next c) → next' a = some b →
      Seg next' (Function.update (Function.update L.prev a (L.prev b)) b (some a))
        (L.prev b) (a :: b :: l₂) none := by
    intro next' hnext' hnexta
    have hb : b ∉ l₂ := by
      have := (List.nodup_append.mp h.nodup).2.1
      exact (List.nodup_cons.mp this).1
    refine ⟨?_, hnexta, ?_⟩
    · rw [Function.update_of_ne hab, Function.update_self]
    · refine Seg.setPrev (hright.congr ?_) hb
      intro c hc
      have hca : c ≠ a := by
        rintro rfl
        exact ha (List.mem_append_right _ hc)
      exact ⟨hnext' c hca hc, Function.update_of_ne hca _ _⟩
  obtain rfl | ⟨init, p, rfl⟩ := List.eq_nil_or_concat' l₁
  · have hnone : L.prev b = none := by simpa using hprev
    constructor
    · exact hnew
    · unfold Links.insertBefore
      simp only [hback, hnone]
      rfl
    · have hseg := hright' (Function.update L.next a (some b))
        (fun c hc _ => Function.update_of_ne hc _ _) (Function.update_self _ _ _)
      unfold Links.insertBefore
      simp only [hback, hnone] at hseg ⊢
      exact hseg
  · have hsome : L.prev b = some p := by simpa using hprev
    have hpa : p ≠ a := by
      rintro rfl
      exact ha (by simp)
    have hright : ∀ c ∈ b :: l₂, c ≠ p := by
      rintro c hc rfl
      exact (List.nodup_append.mp h.nodup).2.2 c (by simp) c hc rfl
    constructor
    · exact hnew
    · unfold Links.insertBefore
      simp only [hback, hsome]
      rw [h.first]
      cases init <;> rfl
    · have hseg := hright'
        (Function.update (Function.update L.next a (some b)) p (some a))
        (fun c hc hmem => by rw [Function.update_of_ne (hright c hmem), Function.update_of_ne hc])
        (by rw [Function.update_of_ne hpa.symm, Function.update_self])
      unfold Links.insertBefore
      simp only [hback, hsome] at hseg ⊢
      rw [Seg.append]
      refine ⟨?_, by simpa using hseg⟩
      have hp : p ∉ init := by
        have := (List.nodup_append.mp h.nodup).1
        exact fun hmem => (List.nodup_append.mp this).2.2 p hmem p (by simp) rfl
      refine Seg.setNext (hleft.congr ?_) hp
      intro c hc
      have hca : c ≠ a := by
        rintro rfl
        exact ha (List.mem_append_left _ hc)
      have hcb : c ≠ b := by
        rintro rfl
        exact (List.nodup_append.mp h.nodup).2.2 c hc c List.mem_cons_self rfl
      exact ⟨Function.update_of_ne hca _ _,
        by rw [Function.update_of_ne hcb, Function.update_of_ne hca]⟩

theorem IsList.insertAfter (h : L.IsList (l ++ [b])) (ha : a ∉ l ++ [b]) (hnext : L.next a = none) :
    (L.insertAfter b a).IsList (l ++ [b] ++ [a]) := by
  have hab : a ≠ b := by
    rintro rfl
    exact ha (by simp)
  have hb : b ∉ l := fun hmem => (List.nodup_append.mp h.nodup).2.2 b hmem b (by simp) rfl
  constructor
  · rw [List.nodup_append]
    refine ⟨h.nodup, by simp, ?_⟩
    rintro c hc d hd rfl
    exact ha (List.mem_singleton.mp hd ▸ hc)
  · show L.first = _
    rw [h.first]
    cases l <;> rfl
  · rw [Seg.append]
    refine ⟨?_, ?_, ?_, trivial⟩
    · refine Seg.setNext (h.seg.congr ?_) hb
      intro c hc
      refine ⟨rfl, Function.update_of_ne ?_ _ _⟩
      rintro rfl
      exact ha hc
    · show Function.update L.prev a (some b) a = _
      rw [Function.update_self]
      simp
    · show Function.update L.next b (some a) a = _
      rw [Function.update_of_ne hab, hnext]
      rfl

/-- What is left of the links of the others. -/
theorem unlink_eq (hprev : L.prev b ≠ some b) :
    (L.unlink b).first = (if L.first = some b then L.next b else L.first) ∧
    (∀ c ≠ b, (L.unlink b).next c = if L.prev b = some c then L.next b else L.next c) ∧
    ∀ c ≠ b, (L.unlink b).prev c = if L.next b = some c then L.prev b else L.prev c := by
  have hnext : (L.setNext (L.prev b) (L.next b)).next b = L.next b := by
    rw [setNext_next, if_neg hprev]
  unfold Links.unlink
  simp only [hnext, setNext_prev, setPrev_first, setNext_first, setPrev_next]
  refine ⟨?_, fun c hc => ?_, fun c hc => ?_⟩
  · split <;> simp [*]
  · rw [Function.update_of_ne hc]
    split <;> simp [setNext_next]
  · rw [Function.update_of_ne hc]
    split <;> simp [setPrev_prev]

theorem IsList.unlink (h : L.IsList (l₁ ++ b :: l₂)) : (L.unlink b).IsList (l₁ ++ l₂) := by
  obtain ⟨hnextb, hprevb⟩ := h.next_prev
  have hnodup : (l₁ ++ l₂).Nodup ∧ b ∉ l₁ ++ l₂ := by
    have := List.nodup_middle.mp h.nodup
    exact ⟨(List.nodup_cons.mp this).2, (List.nodup_cons.mp this).1⟩
  have hne : ∀ c ∈ l₁ ++ l₂, c ≠ b := by
    rintro c hc rfl
    exact hnodup.2 hc
  have hself : L.prev b ≠ some b := by
    rw [hprevb]
    exact fun hlast => hne b (List.mem_append_left _ (List.mem_of_mem_getLast? hlast)) rfl
  obtain ⟨hfirst, hnext, hprev⟩ := unlink_eq hself
  constructor
  · exact hnodup.1
  · rw [hfirst, h.first]
    cases l₁ with
    | nil => exact (if_pos rfl).trans hnextb
    | cons a rest =>
      rw [if_neg]
      · rfl
      · exact fun heq => hne a (by simp) (Option.some.inj heq)
  · apply h.seg.glue h.nodup
    · intro c hc
      rw [hnext c (hne c hc), hprevb]
    · intro c hc
      rw [hprev c (hne c hc), hnextb]

/-! ### Nodes that are in no list -/

/-- A node without links. -/
def Loose (L : Links α) (c : α) : Prop := L.next c = none ∧ L.prev c = none

theorem Loose.insertBefore {c : α} (hloose : L.Loose c) (h : L.IsList (l₁ ++ b :: l₂))
    (hc : c ∉ l₁ ++ b :: l₂) (hca : c ≠ a) : (L.insertBefore b a).Loose c := by
  have hcb : c ≠ b := by
    rintro rfl
    exact hc (by simp)
  have hprev : ∀ p, L.prev b = some p → c ≠ p := by
    rintro p hp rfl
    rw [h.next_prev.2] at hp
    exact hc (List.mem_append_left _ (List.mem_of_mem_getLast? hp))
  unfold Links.insertBefore
  by_cases hab : b = a
  · subst hab
    simp only [Function.update_self]
    cases hp : L.prev b with
    | none => exact ⟨by simpa [hca] using hloose.1, by simpa [hca] using hloose.2⟩
    | some p =>
      have hcp := hprev p hp
      exact ⟨by simpa [hca, hcp] using hloose.1, by simpa [hca] using hloose.2⟩
  · simp only [Function.update_of_ne hab]
    cases hp : L.prev b with
    | none => exact ⟨by simpa [hca] using hloose.1, by simpa [hca, hcb] using hloose.2⟩
    | some p =>
      have hcp := hprev p hp
      exact ⟨by simpa [hca, hcp] using hloose.1, by simpa [hca, hcb] using hloose.2⟩

theorem Loose.insertAfter {c : α} (hloose : L.Loose c) (hcb : c ≠ b) (hca : c ≠ a) :
    (L.insertAfter b a).Loose c :=
  ⟨(Function.update_of_ne hcb _ _).trans hloose.1, (Function.update_of_ne hca _ _).trans hloose.2⟩

theorem Loose.unlink {c : α} (hloose : L.Loose c) (h : L.IsList (l₁ ++ b :: l₂))
    (hc : c ∉ l₁ ++ b :: l₂) : (L.unlink b).Loose c := by
  have hcb : c ≠ b := by
    rintro rfl
    exact hc (by simp)
  have hself : L.prev b ≠ some b := by
    rw [h.next_prev.2]
    intro hlast
    have hmem := List.mem_of_mem_getLast? hlast
    exact (List.nodup_append.mp h.nodup).2.2 b hmem b List.mem_cons_self rfl
  obtain ⟨_, hnext, hprev⟩ := unlink_eq hself
  constructor
  · rw [hnext c hcb, if_neg, hloose.1]
    rw [h.next_prev.2]
    exact fun hlast => hc (List.mem_append_left _ (List.mem_of_mem_getLast? hlast))
  · rw [hprev c hcb, if_neg, hloose.2]
    rw [h.next_prev.1]
    exact fun hhead => hc (List.mem_append_right _ (List.mem_cons_of_mem _ (List.mem_of_mem_head? hhead)))

end Links
