import Bg3le.Osiris.FunctionTree
import Mathlib.Data.Finset.Range

/-!
# The walk of a bucket finds its functions, from any node of its tree
-/

namespace Bg3le
namespace FunctionTree

open Engine

variable {mapping : Mapping}

/-! ## One node -/

/-- The database after a node. -/
def record (mapping : Mapping) (found : Found) (node : ℕ) : Found :=
  ⟨found.visited + 1, match functionAt mapping node with
    | none => found.out
    | some (key, e) => Function.update found.out key (some e)⟩

/-- What looking at a node does, said of its key, its links and its function. -/
theorem visit_eq (node : ℕ) (found : Found) :
    visit mapping node found = (links mapping node, record mapping found node) := by
  cases hread : safeRead mapping node 0x40 with
  | none => simp [visit, links, record, functionAt, keyAt, hread]
  | some entry =>
    cases hkey : nodeKey mapping entry with
    | none => simp [visit, links, record, functionAt, keyAt, hread, hkey]
    | some key =>
      cases he : dbEntry mapping (at' entry 0x38 8) with
      | none => simp [visit, links, record, functionAt, keyAt, linkAt, hread, hkey, he]
      | some e => simp [visit, links, record, functionAt, keyAt, linkAt, hread, hkey, he]

theorem visit_pushes (node : ℕ) (found : Found) :
    (visit mapping node found).1 = links mapping node :=
  congrArg Prod.fst (visit_eq node found)

theorem visit_records (node : ℕ) (found : Found) :
    (visit mapping node found).2 = record mapping found node :=
  congrArg Prod.snd (visit_eq node found)

theorem links_of_no_key {node : ℕ} (h : keyAt mapping node = none) : links mapping node = [] := by
  simp [links, h]

theorem mem_links {node : ℕ} (h : keyAt mapping node ≠ none) {m : ℕ} :
    m ∈ links mapping node ↔
      m = linkAt mapping node 0x10 ∨ m = linkAt mapping node 0x08 ∨
        m = linkAt mapping node 0x00 := by
  have hkey : (keyAt mapping node).isNone = false := by
    cases hread : keyAt mapping node with
    | none => exact absurd hread h
    | some key => rfl
  simp [links, hkey]

theorem length_links_le (node : ℕ) : (links mapping node).length ≤ 3 := by
  unfold links
  split <;> simp

theorem linkAt_lt (node off : ℕ) : linkAt mapping node off < 2 ^ 64 := by
  unfold linkAt
  cases safeRead mapping node 0x40 with
  | none => simp
  | some entry =>
    have hlt := LittleEndian.decode_lt ((entry.drop off).take 8)
    have hwidth : ((entry.drop off).take 8).length ≤ 8 := List.length_take_le 8 _
    have hpow : 256 ^ ((entry.drop off).take 8).length ≤ 256 ^ 8 :=
      Nat.pow_le_pow_right (by norm_num) hwidth
    show at' entry off 8 < 2 ^ 64
    unfold at'
    omega

theorem lt_of_mem_links {node m : ℕ} (h : m ∈ links mapping node) : m < 2 ^ 64 := by
  have hkey : keyAt mapping node ≠ none := by
    intro hnone
    simp [links_of_no_key hnone] at h
  rcases (mem_links hkey).mp h with rfl | rfl | rfl
  all_goals exact linkAt_lt node _

/-- A node that can be read is at no null page. -/
theorem le_of_key {node : ℕ} (h : keyAt mapping node ≠ none) : 0x1000 ≤ node := by
  by_contra hlow
  have hlow : node < 0x1000 := by omega
  simp [keyAt, safeRead, hlow] at h

/-- A function has its node's key. -/
theorem keyAt_of_functionAt {node : ℕ} {key : Bytes} {e : DbEntry}
    (h : functionAt mapping node = some (key, e)) : keyAt mapping node = some key := by
  simp only [functionAt, Option.bind_eq_bind, Option.bind_eq_some_iff, Option.some.injEq,
    Prod.mk.injEq] at h
  obtain ⟨key', hkey, _, _, rfl, _⟩ := h
  exact hkey

/-! ## The whole walk -/

/-- What a walk from a bucket comes to. -/
abbrev Comes (mapping : Mapping) (bucket : ℕ) (seen : Finset ℕ) : ℕ → Prop :=
  WorkList.Reached (· < 0x1000) (links mapping) seen [bucket]

/-- A walk ends on every memory. -/
theorem visitTree_ends (mapping : Mapping) (bucket : ℕ) (found : Found) (seen : Finset ℕ)
    {turns : ℕ} (h : enoughTurns ≤ turns) :
    (visitTree mapping turns bucket found seen).isSome := by
  unfold visitTree
  split
  · rfl
  · have hcard : (insert bucket (Finset.range (2 ^ 64)) \ seen).card ≤ 2 ^ 64 + 1 := by
      calc (insert bucket (Finset.range (2 ^ 64)) \ seen).card
          ≤ (insert bucket (Finset.range (2 ^ 64))).card := Finset.card_le_card Finset.sdiff_subset
        _ ≤ (Finset.range (2 ^ 64)).card + 1 := Finset.card_insert_le bucket _
        _ = 2 ^ 64 + 1 := by rw [Finset.card_range]
    refine WorkList.search_ends visit_pushes length_links_le
      (insert bucket (Finset.range (2 ^ 64))) ?_ turns ?_ ?_
    · intro node m hm
      exact Finset.mem_insert_of_mem (Finset.mem_range.mpr (lt_of_mem_links hm))
    · intro node hnode
      rw [List.mem_singleton.mp hnode]
      exact Finset.mem_insert_self _ _
    · rw [enoughTurns] at h
      rw [List.length_singleton]
      omega

/-- A walk looks once at each node that it comes to. -/
theorem visitTree_spec {turns bucket : ℕ} {found found' : Found} {seen seen' : Finset ℕ}
    (h : visitTree mapping turns bucket found seen = some (seen', found')) :
    ∃ order : List ℕ, order.Nodup ∧ (∀ n, n ∈ order ↔ Comes mapping bucket seen n) ∧
      seen' = seen ∪ order.toFinset ∧ found' = order.foldl (record mapping) found := by
  unfold visitTree at h
  split at h
  · rename_i hlow
    obtain ⟨rfl, rfl⟩ : seen = seen' ∧ found = found' := by simpa using h
    have hnone : ∀ n, ¬ Comes mapping bucket seen n := by
      intro n hn
      refine hn.closed (P := fun _ => False) ?_ (fun _ _ hfalse _ _ => hfalse)
      intro b hb hskip
      rw [List.mem_singleton.mp hb] at hskip
      simp [hlow] at hskip
    exact ⟨[], List.nodup_nil, fun n => by simp [hnone n], by simp, rfl⟩
  · obtain ⟨order, hnodup, hmem, hseen, hfound⟩ :=
      WorkList.search_spec visit_pushes turns h
    refine ⟨order, hnodup, hmem, hseen, hfound.trans ?_⟩
    exact congrArg (fun f => order.foldl f found)
      (funext fun found => funext fun node => visit_records node found)

/-- What no node records stays as it was. -/
theorem out_foldl_of_none {order : List ℕ} {key : Bytes} (found : Found)
    (h : ∀ n ∈ order, ∀ e, functionAt mapping n ≠ some (key, e)) :
    (order.foldl (record mapping) found).out key = found.out key := by
  induction order generalizing found with
  | nil => rfl
  | cons n order ih =>
    have hhead := h n List.mem_cons_self
    rw [List.foldl_cons, ih _ fun m hm => h m (List.mem_cons_of_mem n hm)]
    unfold record
    cases hn : functionAt mapping n with
    | none => rfl
    | some function =>
      have hdiff : key ≠ function.1 := by
        intro heq
        exact hhead function.2 (hn.trans (by rw [heq]))
      exact Function.update_of_ne hdiff _ _

/-- What the nodes that record a key agree on is in the database. -/
theorem out_foldl_of_mem {order : List ℕ} {key : Bytes} {e : DbEntry} (found : Found)
    (hsome : ∃ n ∈ order, ∃ e', functionAt mapping n = some (key, e'))
    (hagree : ∀ n ∈ order, ∀ e', functionAt mapping n = some (key, e') → e' = e) :
    (order.foldl (record mapping) found).out key = some e := by
  induction order generalizing found with
  | nil => simp at hsome
  | cons n order ih =>
    rw [List.foldl_cons]
    by_cases hlater : ∃ m ∈ order, ∃ e', functionAt mapping m = some (key, e')
    · exact ih _ hlater fun m hm => hagree m (List.mem_cons_of_mem n hm)
    · -- the last node of that key is the first of the list
      obtain ⟨m, hm, e', hfunction⟩ := hsome
      have hsame : m = n := by
        rcases List.mem_cons.mp hm with hsame | hm
        · exact hsame
        · exact absurd ⟨m, hm, e', hfunction⟩ hlater
      subst hsame
      obtain rfl := hagree m hm e' hfunction
      rw [out_foldl_of_none]
      · simp [record, hfunction]
      · intro l hl e' he'
        exact hlater ⟨l, hl, e', he'⟩

/-! ## The tree -/

namespace MapTree

theorem Laid.root {tree : MapTree} {link parent n : ℕ} (h : tree.Laid mapping link parent)
    (hn : n ∈ tree.nodes) :
    link ∈ tree.nodes ∧ keyAt mapping link ≠ none ∧ linkAt mapping link 0x08 = parent := by
  cases tree with
  | nil => simp [nodes] at hn
  | node addr left right =>
    obtain ⟨rfl, hkey, hparent, -, -⟩ := h
    exact ⟨List.mem_cons_self, hkey, hparent⟩

/-- Every node of a tree has a key. -/
theorem Laid.key {tree : MapTree} {link parent : ℕ} (h : tree.Laid mapping link parent) :
    ∀ n ∈ tree.nodes, keyAt mapping n ≠ none := by
  induction tree generalizing link parent with
  | nil => simp [nodes]
  | node addr left right ihl ihr =>
    obtain ⟨rfl, hkey, -, hleft, hright⟩ := h
    intro n hn
    rw [nodes, List.mem_cons, List.mem_append] at hn
    rcases hn with rfl | hn | hn
    · exact hkey
    · exact ihl hleft n hn
    · exact ihr hright n hn

/-- The links of a tree stay in it, but for the root's parent and what is no node. -/
theorem Laid.links_within {tree : MapTree} {link parent : ℕ}
    (h : tree.Laid mapping link parent) :
    ∀ n ∈ tree.nodes, ∀ m ∈ links mapping n,
      m ∈ tree.nodes ∨ m = parent ∨ keyAt mapping m = none := by
  -- where the link to a subtree leads
  have hchild : ∀ {child : MapTree} {link parent : ℕ}, child.Laid mapping link parent →
      link ∈ child.nodes ∨ keyAt mapping link = none := by
    intro child link parent hlaid
    cases child with
    | nil => exact .inr hlaid
    | node addr left right => exact .inl (hlaid.1 ▸ List.mem_cons_self)
  induction tree generalizing link parent with
  | nil => simp [nodes]
  | node addr left right ihl ihr =>
    obtain ⟨rfl, hkey, hparent, hleft, hright⟩ := h
    intro n hn m hm
    rw [nodes, List.mem_cons, List.mem_append] at hn ⊢
    rcases hn with rfl | hn | hn
    · rcases (mem_links hkey).mp hm with rfl | rfl | rfl
      · rcases hchild hright with hin | hnone
        · exact .inl (.inr (.inr hin))
        · exact .inr (.inr hnone)
      · exact .inr (.inl hparent)
      · rcases hchild hleft with hin | hnone
        · exact .inl (.inr (.inl hin))
        · exact .inr (.inr hnone)
    · rcases ihl hleft n hn m hm with hin | heq | hnone
      · exact .inl (.inr (.inl hin))
      · exact .inl (.inl heq)
      · exact .inr (.inr hnone)
    · rcases ihr hright n hn m hm with hin | heq | hnone
      · exact .inl (.inr (.inr hin))
      · exact .inl (.inl heq)
      · exact .inr (.inr hnone)

/-- A property that links carry within the tree holds of the root where it holds of a node. -/
theorem Laid.up {P : ℕ → Prop} {tree : MapTree} {link parent n : ℕ}
    (h : tree.Laid mapping link parent)
    (keep : ∀ a ∈ tree.nodes, P a → ∀ b ∈ links mapping a, keyAt mapping b ≠ none → P b)
    (hn : n ∈ tree.nodes) (hP : P n) : P link := by
  induction tree generalizing link parent with
  | nil => simp [nodes] at hn
  | node addr left right ihl ihr =>
    obtain ⟨rfl, hkey, hparent, hleft, hright⟩ := h
    -- from the root of a subtree along its parent link
    have hclimb : ∀ {child : MapTree} {top : ℕ}, child.Laid mapping top link →
        (∀ a ∈ child.nodes, a ∈ (node link left right).nodes) → n ∈ child.nodes → P top →
        P link := by
      intro child top hlaid hsub hin hPtop
      obtain ⟨htop, htopkey, hback⟩ := hlaid.root hin
      exact keep top (hsub top htop) hPtop link
        ((mem_links htopkey).mpr (.inr (.inl hback.symm))) hkey
    have hsubl : ∀ a ∈ left.nodes, a ∈ (node link left right).nodes :=
      fun a ha => List.mem_cons_of_mem _ (List.mem_append_left _ ha)
    have hsubr : ∀ a ∈ right.nodes, a ∈ (node link left right).nodes :=
      fun a ha => List.mem_cons_of_mem _ (List.mem_append_right _ ha)
    rw [nodes, List.mem_cons, List.mem_append] at hn
    rcases hn with rfl | hin | hin
    · exact hP
    · exact hclimb hleft hsubl hin (ihl hleft (fun a ha => keep a (hsubl a ha)) hin)
    · exact hclimb hright hsubr hin (ihr hright (fun a ha => keep a (hsubr a ha)) hin)

/-- And it holds of every node where it holds of the root. -/
theorem Laid.down {P : ℕ → Prop} {tree : MapTree} {link parent : ℕ}
    (h : tree.Laid mapping link parent)
    (keep : ∀ a ∈ tree.nodes, P a → ∀ b ∈ links mapping a, keyAt mapping b ≠ none → P b)
    (hP : keyAt mapping link ≠ none → P link) : ∀ n ∈ tree.nodes, P n := by
  induction tree generalizing link parent with
  | nil => simp [nodes]
  | node addr left right ihl ihr =>
    obtain ⟨rfl, hkey, hparent, hleft, hright⟩ := h
    have hstep : ∀ b ∈ links mapping link, keyAt mapping b ≠ none → P b :=
      keep link List.mem_cons_self (hP hkey)
    intro n hn
    rw [nodes, List.mem_cons, List.mem_append] at hn
    rcases hn with rfl | hin | hin
    · exact hP hkey
    · refine ihl hleft ?_ (hstep _ ((mem_links hkey).mpr (.inr (.inr rfl)))) n hin
      exact fun a ha => keep a (List.mem_cons_of_mem _ (List.mem_append_left _ ha))
    · refine ihr hright ?_ (hstep _ ((mem_links hkey).mpr (.inl rfl))) n hin
      exact fun a ha => keep a (List.mem_cons_of_mem _ (List.mem_append_right _ ha))

variable {tree : MapTree} {start : ℕ} {seen : Finset ℕ}

/-- A walk from any node of a tree comes to all of them. -/
theorem Holds.comes (h : tree.Holds mapping) (hstart : start ∈ tree.nodes)
    (hseen : ∀ n ∈ tree.nodes, n ∉ seen) :
    ∀ n ∈ tree.nodes, Comes mapping start seen n := by
  obtain ⟨root, parent, -, hlaid⟩ := h.laid
  have keep : ∀ a ∈ tree.nodes, (a ∉ seen → Comes mapping start seen a) →
      ∀ b ∈ links mapping a, keyAt mapping b ≠ none → b ∉ seen → Comes mapping start seen b := by
    intro a ha hcomes b hb hkey hnew
    exact (hcomes (hseen a ha)).next hb (by simpa using le_of_key hkey) hnew
  have hfirst : start ∉ seen → Comes mapping start seen start := by
    intro hnew
    exact .pending List.mem_cons_self (by simpa using le_of_key (hlaid.key start hstart)) hnew
  have hroot := hlaid.up keep hstart hfirst
  intro n hn
  exact hlaid.down keep (fun _ => hroot) n hn (hseen n hn)

/-- And to nothing else that has a key. -/
theorem Holds.mem_of_comes (h : tree.Holds mapping) (hstart : start ∈ tree.nodes) {n : ℕ}
    (hn : Comes mapping start seen n) (hkey : keyAt mapping n ≠ none) : n ∈ tree.nodes := by
  obtain ⟨root, parent, hparent, hlaid⟩ := h.laid
  have hin : n ∈ tree.nodes ∨ keyAt mapping n = none := by
    refine hn.closed (P := fun n => n ∈ tree.nodes ∨ keyAt mapping n = none) ?_ ?_
    · intro b hb _
      exact .inl (List.mem_singleton.mp hb ▸ hstart)
    · intro b c hb hc _
      rcases hb with hb | hb
      · rcases hlaid.links_within b hb c hc with hin | heq | hnone
        · exact .inl hin
        · exact .inr (heq ▸ hparent)
        · exact .inr hnone
      · simp [links_of_no_key hb] at hc
  exact hin.resolve_right hkey

/-- Two nodes that record one key are one. -/
theorem Holds.eq_of_functionAt (h : tree.Holds mapping) {n m : ℕ} {key : Bytes} {e e' : DbEntry}
    (hn : n ∈ tree.nodes) (hm : m ∈ tree.nodes) (hfn : functionAt mapping n = some (key, e))
    (hfm : functionAt mapping m = some (key, e')) : n = m :=
  List.inj_on_of_nodup_map h.distinct hn hm
    ((keyAt_of_functionAt hfn).trans (keyAt_of_functionAt hfm).symm)

/-- What a walk from a node of a tree leaves in the database. -/
theorem Holds.recordsTree (h : tree.Holds mapping) (hstart : start ∈ tree.nodes)
    (hseen : ∀ n ∈ tree.nodes, n ∉ seen) {order : List ℕ}
    (horder : ∀ n, n ∈ order ↔ Comes mapping start seen n) (found : Found) :
    RecordsTree mapping tree found.out (order.foldl (record mapping) found).out := by
  have hmem : ∀ {n key e}, n ∈ order → functionAt mapping n = some (key, e) → n ∈ tree.nodes := by
    intro n key e hn hfunction
    refine h.mem_of_comes hstart ((horder n).mp hn) ?_
    rw [keyAt_of_functionAt hfunction]
    exact Option.some_ne_none key
  constructor
  · intro n hn key e hfunction
    have hin : n ∈ order := (horder n).mpr (h.comes hstart hseen n hn)
    refine out_foldl_of_mem found ⟨n, hin, e, hfunction⟩ ?_
    intro m hm e' he'
    obtain rfl := h.eq_of_functionAt hn (hmem hm he') hfunction he'
    simpa using he'.symm.trans hfunction
  · intro key hnone
    exact out_foldl_of_none found fun n hn e he => hnone n (hmem hn he) e he

end MapTree

/-- What a walk newly sees is its bucket or a link of a seen node that has a key. -/
theorem visitTree_expands {turns bucket : ℕ} {found found' : Found} {seen seen' : Finset ℕ}
    (h : visitTree mapping turns bucket found seen = some (seen', found')) :
    ∀ n ∈ seen', n ∉ seen → n = bucket ∨
      ∃ m ∈ seen', m ∉ seen ∧ keyAt mapping m ≠ none ∧ n ∈ links mapping m := by
  obtain ⟨order, -, horder, rfl, -⟩ := visitTree_spec h
  intro n hn hnew
  have hin : n ∈ order := by
    rcases Finset.mem_union.mp hn with hold | hin
    · exact absurd hold hnew
    · exact List.mem_toFinset.mp hin
  cases (horder n).mp hin with
  | pending hstart _ _ => exact .inl (List.mem_singleton.mp hstart)
  | @next m _ hm hlink _ _ =>
    have hkey : keyAt mapping m ≠ none := by
      intro hnone
      simp [links_of_no_key hnone] at hlink
    have hm' : m ∈ seen ∪ order.toFinset :=
      Finset.mem_union_right _ (List.mem_toFinset.mpr ((horder m).mpr hm))
    exact .inr ⟨m, hm', hm.notMem, hkey, hlink⟩

/-- A walk from any node of a bucket's tree records the functions of the tree; a node without a
key pushes nothing, and no walk follows a link of one; and every walk ends. -/
theorem visitTree_records_functions (mapping : Mapping) {turns : ℕ}
    (hturns : enoughTurns ≤ turns) :
    (∀ tree : MapTree, tree.Holds mapping → ∀ start ∈ tree.nodes, ∀ found seen,
      (∀ n ∈ tree.nodes, n ∉ seen) → ∃ seen' found',
        visitTree mapping turns start found seen = some (seen', found') ∧
        RecordsTree mapping tree found.out found'.out) ∧
    (∀ node found, keyAt mapping node = none →
      visit mapping node found = ([], { found with visited := found.visited + 1 })) ∧
    (∀ bucket found seen, ∃ seen' found',
      visitTree mapping turns bucket found seen = some (seen', found') ∧
      ∀ n ∈ seen', n ∉ seen → n = bucket ∨
        ∃ m ∈ seen', m ∉ seen ∧ keyAt mapping m ≠ none ∧ n ∈ links mapping m) := by
  refine ⟨?_, ?_, ?_⟩
  · intro tree hold start hstart found seen hseen
    obtain ⟨⟨seen', found'⟩, h⟩ :=
      Option.isSome_iff_exists.mp (visitTree_ends mapping start found seen hturns)
    obtain ⟨order, -, horder, -, hfound⟩ := visitTree_spec h
    exact ⟨seen', found', h, hfound ▸ hold.recordsTree hstart hseen horder found⟩
  · intro node found hkey
    rw [visit_eq, links_of_no_key hkey]
    simp [record, functionAt, hkey]
  · intro bucket found seen
    obtain ⟨⟨seen', found'⟩, h⟩ :=
      Option.isSome_iff_exists.mp (visitTree_ends mapping bucket found seen hturns)
    exact ⟨seen', found', h, visitTree_expands h⟩

/-! ## A tree of two -/

/-- The words of a process: a tree of two nodes, a function whose second parameter is an output,
and one without a signature. What is not listed is zero. -/
def sampleWord (addr : ℕ) : ℕ :=
  match addr with
  | 0x2000 => 0x3000
  | 0x2008 => 0x9000
  | 0x2020 => LittleEndian.decode (bytes "Speak/2")
  | 0x2030 => 7 * 256 ^ 7
  | 0x2038 => 0x4000
  | 0x3008 => 0x2000
  | 0x3020 => LittleEndian.decode (bytes "DB_Met/1")
  | 0x3030 => 8 * 256 ^ 7
  | 0x3038 => 0x4100
  | 0x4018 => 0x5000
  | 0x5010 => 0x6000
  | 0x5018 => 0x7000
  | 0x5020 => 1
  | 0x6008 => 0x6100
  | 0x6018 => 2
  | 0x6100 => 0x6200
  | 0x6110 => 5
  | 0x6200 => 0x6000
  | 0x6210 => 1
  | 0x7000 => 0x40
  | _ => 0

def sampleMemory : Mapping :=
  fun addr => some (UInt8.ofNat (sampleWord (addr / 8 * 8) / 256 ^ (addr % 8)))

def sampleTree : MapTree := .node 0x2000 (.node 0x3000 .nil .nil) .nil

theorem sampleTree_holds : sampleTree.Holds sampleMemory where
  laid := by
    refine ⟨0x2000, 0x9000, by decide +kernel, rfl, by decide +kernel, by decide +kernel, ?_, ?_⟩
    · refine ⟨by decide +kernel, by decide +kernel, by decide +kernel, ?_, ?_⟩
      · show keyAt sampleMemory _ = none
        decide +kernel
      · show keyAt sampleMemory _ = none
        decide +kernel
    · show keyAt sampleMemory _ = none
      decide +kernel
  distinct := by decide +kernel

theorem visitTree_records_functions_sample :
    ∃ seen' found', visitTree sampleMemory enoughTurns 0x3000 ⟨0, fun _ => none⟩ ∅ =
        some (seen', found') ∧
      found'.out (bytes "Speak/2") = some ⟨1, 2, 0x4000, [1, 5]⟩ ∧
      found'.out (bytes "DB_Met/1") = none := by
  obtain ⟨seen', found', h, hrecords⟩ :=
    (visitTree_records_functions sampleMemory le_rfl).1 sampleTree sampleTree_holds 0x3000
      (by decide) ⟨0, fun _ => none⟩ ∅ (by decide)
  have hspeak : functionAt sampleMemory 0x2000 =
      some (bytes "Speak/2", ⟨1, 2, 0x4000, [1, 5]⟩) := by
    decide +kernel
  have hmet : functionAt sampleMemory 0x3000 = none := by decide +kernel
  refine ⟨seen', found', h, hrecords.function 0x2000 (by decide) _ _ hspeak, ?_⟩
  refine hrecords.other _ fun n hn e he => ?_
  have hnodes : n = 0x2000 ∨ n = 0x3000 := by simpa [sampleTree, MapTree.nodes] using hn
  rcases hnodes with rfl | rfl
  · have hkeys : bytes "Speak/2" = bytes "DB_Met/1" :=
      congrArg Prod.fst (Option.some.inj (hspeak.symm.trans he))
    exact absurd hkeys (by decide)
  · exact absurd (hmet.symm.trans he) (by simp)

end FunctionTree
end Bg3le
