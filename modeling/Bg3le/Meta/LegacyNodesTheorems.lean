import Bg3le.Library.Run
import Bg3le.Meta.LegacyNodes
import Mathlib.Data.List.Nodup

/-!
# The nodes read are those of the remembered walk

A read makes the walk anew for another map or another count only. So the nodes that are read are
the ones in the chains as long as what was walked to then is what is in the chains now.
-/

namespace Bg3le
namespace ComponentMeta

open Engine

variable {layout : LegacyLayout} {mapping : Mapping} {walk : Walk} {container count : ℕ}
  {next : ℕ → Option ℕ} {h : LegacyHeader} {nodes : List ℕ}

/-! ## What is in a map -/

/-- The nodes of a chain, up to the first whose link cannot be read. -/
inductive Chained (next : ℕ → Option ℕ) : ℕ → List ℕ → Prop
  | nil : Chained next 0 []
  | cut {node : ℕ} (hnode : node ≠ 0) (hnext : next node = none) : Chained next node [node]
  | cons {node after : ℕ} {nodes : List ℕ} (hnode : node ≠ 0) (hnext : next node = some after)
      (hrest : Chained next after nodes) : Chained next node (node :: nodes)

/-- The nodes that can be come to in the chains of a map: all of them, as many as the map counts,
unless its table or a link cannot be read. -/
structure Holds (layout : LegacyLayout) (mapping : Mapping) (container : ℕ) (h : LegacyHeader)
    (nodes : List ℕ) : Prop where
  header : readHeader layout mapping container = some h
  chained : (readBuckets mapping h = none ∧ nodes = []) ∨
    ∃ buckets chains, readBuckets mapping h = some buckets ∧
      List.Forall₂ (Chained (readNext layout mapping)) buckets chains ∧ nodes = chains.flatten
  distinct : nodes.Nodup
  counted : nodes.length = h.itemCount ∨ nodes.length < h.itemCount ∧
    (readBuckets mapping h = none ∨ ∃ node ∈ nodes, readNext layout mapping node = none)

/-- The indices give each node of the chains once and no other, and null for the rest. -/
def ReadsAll (layout : LegacyLayout) (s : LegacyState) (container : ℕ) (h : LegacyHeader)
    (nodes : List ℕ) : Prop :=
  (readAll layout s.mapping s.walk container).Perm
    (nodes.map some ++ List.replicate (h.itemCount - nodes.length) none)

/-- What a walk comes to in this memory. -/
def gathered (layout : LegacyLayout) (mapping : Mapping) (h : LegacyHeader) : List ℕ :=
  match readBuckets mapping h with
  | none => []
  | some buckets => walkChains (readNext layout mapping) h.itemCount buckets

/-- If the walk that is remembered is of this map's address and of this count, then what it was
made from had the same nodes. -/
def Unchanged (layout : LegacyLayout) (s : LegacyState) (container : ℕ) (h : LegacyHeader)
    (nodes : List ℕ) : Prop :=
  ¬ s.walk.Stale container h.itemCount → ∀ mapping ∈ s.made,
    ∀ before, readHeader layout mapping container = some before →
      (gathered layout mapping before).Perm nodes

/-- A map has at most as many nodes as its header counts. -/
theorem Holds.length_le (hholds : Holds layout mapping container h nodes) :
    nodes.length ≤ h.itemCount := by
  rcases hholds.counted with heq | ⟨hlt, -⟩
  · exact heq.le
  · exact hlt.le

/-! ## Walks -/

/-- A walk of one chain keeps the nodes within the count. -/
theorem length_walkChain {rounds node : ℕ} (hle : nodes.length ≤ count) :
    (walkChain next count rounds node nodes).length ≤ count := by
  induction rounds generalizing node nodes with
  | zero => exact hle
  | succ rounds ih =>
    unfold walkChain
    split
    · next hgo =>
      have hone : (nodes ++ [node]).length ≤ count := by
        rw [List.length_append, List.length_singleton]
        exact hgo.2
      cases next node with
      | none => exact hone
      | some after => exact ih hone
    · exact hle

/-- A walk of all chains keeps the nodes within the count. -/
theorem length_walkChains (buckets : List ℕ) : (walkChains next count buckets).length ≤ count := by
  have hfrom (nodes : List ℕ) (hle : nodes.length ≤ count) :
      (buckets.foldl (fun nodes node => walkChain next count (count + 1) node nodes) nodes).length ≤
        count := by
    induction buckets generalizing nodes with
    | nil => exact hle
    | cons bucket buckets ih => exact ih _ (length_walkChain hle)
  exact hfrom [] (Nat.zero_le count)

/-- A walk comes to all the nodes of a chain, with rounds and count enough. -/
theorem walkChain_eq {node rounds : ℕ} {chain : List ℕ} (hchain : Chained next node chain)
    (hroom : nodes.length + chain.length ≤ count) (hrounds : chain.length < rounds) :
    walkChain next count rounds node nodes = nodes ++ chain := by
  induction hchain generalizing nodes rounds with
  | nil =>
    obtain ⟨rounds, rfl⟩ := Nat.exists_eq_succ_of_ne_zero (Nat.ne_of_gt hrounds)
    unfold walkChain
    rw [if_neg fun hgo => hgo.1 rfl, List.append_nil]
  | @cut node hnode hnext =>
    obtain ⟨rounds, rfl⟩ := Nat.exists_eq_succ_of_ne_zero (Nat.ne_of_gt (Nat.zero_lt_of_lt hrounds))
    rw [List.length_singleton] at hroom
    unfold walkChain
    rw [if_pos ⟨hnode, hroom⟩, hnext]
  | @cons node after chain hnode hnext hrest ih =>
    obtain ⟨rounds, rfl⟩ := Nat.exists_eq_succ_of_ne_zero (Nat.ne_of_gt (Nat.zero_lt_of_lt hrounds))
    rw [List.length_cons] at hroom hrounds
    unfold walkChain
    rw [if_pos ⟨hnode, by omega⟩, hnext]
    dsimp only
    rw [ih (by rw [List.length_append, List.length_singleton]; omega) (by omega), List.append_assoc]
    rfl

/-- A walk gathers the nodes of all chains after those it has; the induction is on the buckets. -/
theorem walkChains_from {buckets : List ℕ} {chains : List (List ℕ)}
    (hchains : List.Forall₂ (Chained next) buckets chains)
    (hroom : nodes.length + chains.flatten.length ≤ count) :
    buckets.foldl (fun nodes node => walkChain next count (count + 1) node nodes) nodes =
      nodes ++ chains.flatten := by
  induction hchains generalizing nodes with
  | nil => exact (List.append_nil nodes).symm
  | @cons bucket chain buckets chains hchain _ ih =>
    rw [List.flatten_cons, List.length_append] at hroom
    rw [List.foldl_cons, walkChain_eq hchain (by omega) (by omega), List.flatten_cons,
      ← List.append_assoc]
    apply ih
    rw [List.length_append]
    omega

/-- A walk gathers the nodes of all chains in the order of their buckets. -/
theorem walkChains_eq {buckets : List ℕ} {chains : List (List ℕ)}
    (hchains : List.Forall₂ (Chained next) buckets chains) (hroom : chains.flatten.length ≤ count) :
    walkChains next count buckets = chains.flatten :=
  walkChains_from hchains (by rwa [List.length_nil, Nat.zero_add])

/-- What is gathered is within the count of the header. -/
theorem length_gathered (layout : LegacyLayout) (mapping : Mapping) (h : LegacyHeader) :
    (gathered layout mapping h).length ≤ h.itemCount := by
  unfold gathered
  cases readBuckets mapping h with
  | none => exact Nat.zero_le _
  | some buckets => exact length_walkChains buckets

/-- A walk comes to the nodes of the map. -/
theorem Holds.gathered_eq (hholds : Holds layout mapping container h nodes) :
    gathered layout mapping h = nodes := by
  have hroom := hholds.length_le
  unfold gathered
  rcases hholds.chained with ⟨hnone, rfl⟩ | ⟨buckets, chains, hsome, hchains, rfl⟩
  · rw [hnone]
  · rw [hsome]
    exact walkChains_eq hchains hroom

/-! ## One read -/

/-- The walk that a read of the map serves its nodes from. -/
def served (layout : LegacyLayout) (mapping : Mapping) (walk : Walk) (container : ℕ)
    (h : LegacyHeader) : Walk :=
  if walk.Stale container h.itemCount then ⟨container, h.itemCount, gathered layout mapping h⟩ else walk

/-- A walk just served is not stale. -/
theorem not_stale_served (layout : LegacyLayout) (mapping : Mapping) (walk : Walk) (container : ℕ)
    (h : LegacyHeader) : ¬ (served layout mapping walk container h).Stale container h.itemCount := by
  unfold served
  split
  · rintro (hne | hne) <;> exact hne rfl
  · assumption

/-- Serving the same map twice walks it once. -/
theorem served_served (layout : LegacyLayout) (mapping : Mapping) (walk : Walk) (container : ℕ)
    (h : LegacyHeader) :
    served layout mapping (served layout mapping walk container h) container h =
      served layout mapping walk container h :=
  if_neg (not_stale_served layout mapping walk container h)

/-- A node is read from the walk served, by its index. -/
theorem legacyMapNode_eq (hheader : readHeader layout mapping container = some h)
    (hsmall : ¬ h.TooLarge) {index : ℕ} (hindex : index < h.itemCount) :
    legacyMapNode layout mapping walk container index =
      ((served layout mapping walk container h).nodes[index]?,
        served layout mapping walk container h) := by
  unfold legacyMapNode served gathered
  rw [hheader]
  dsimp only
  rw [if_neg (not_or.mpr ⟨Nat.not_le.mpr hindex, hsmall⟩)]
  split_ifs
  · cases readBuckets mapping h <;> rfl
  · rfl

/-- A map too large answers no node and leaves the walk. -/
theorem legacyMapNode_of_large (hheader : readHeader layout mapping container = some h)
    (hlarge : h.TooLarge) (index : ℕ) :
    legacyMapNode layout mapping walk container index = (none, walk) := by
  unfold legacyMapNode
  rw [hheader]
  exact if_pos (Or.inr hlarge)

/-- Reading every index reads the nodes of one walk. -/
theorem readEach_eq (hheader : readHeader layout mapping container = some h)
    (hsmall : ¬ h.TooLarge) {indices : List ℕ} (hindices : ∀ i ∈ indices, i < h.itemCount) :
    readEach layout mapping container walk indices =
      indices.map fun i => (served layout mapping walk container h).nodes[i]? := by
  induction indices generalizing walk with
  | nil => rfl
  | cons index rest ih =>
    unfold readEach
    rw [legacyMapNode_eq hheader hsmall (hindices index List.mem_cons_self), List.map_cons]
    dsimp only
    rw [ih fun i hi => hindices i (List.mem_cons_of_mem index hi), served_served]

/-- A map too large answers no node for any index. -/
theorem readEach_of_large (hheader : readHeader layout mapping container = some h)
    (hlarge : h.TooLarge) (indices : List ℕ) :
    readEach layout mapping container walk indices = List.replicate indices.length none := by
  induction indices with
  | nil => rfl
  | cons index rest ih =>
    unfold readEach
    rw [legacyMapNode_of_large hheader hlarge]
    dsimp only
    rw [ih, List.length_cons, List.replicate_succ]

theorem legacyMapCount_eq (hheader : readHeader layout mapping container = some h) :
    legacyMapCount layout mapping container = h.itemCount := by
  unfold readHeader at hheader
  simp only [Option.bind_eq_bind, Option.bind_eq_some_iff, Option.pure_def, Option.some.injEq]
    at hheader
  obtain ⟨hashSize, -, itemCount, hcount, hashTable, -, rfl⟩ := hheader
  unfold legacyMapCount
  rw [hcount]
  rfl

/-- Indices past the end of a list give nothing. -/
theorem map_getElem?_range {l : List ℕ} {n : ℕ} (hle : l.length ≤ n) :
    ((List.range n).map fun i => l[i]?) = l.map some ++ List.replicate (n - l.length) none := by
  apply List.ext_getElem
  · rw [List.length_map, List.length_range, List.length_append, List.length_map,
      List.length_replicate]
    omega
  · intro i hi _
    rw [List.length_map, List.length_range] at hi
    rw [List.getElem_map, List.getElem_range]
    by_cases hin : i < l.length
    · rw [List.getElem_append_left (by rwa [List.length_map]), List.getElem_map,
        List.getElem?_eq_getElem hin]
    · rw [List.getElem_append_right (by rw [List.length_map]; omega), List.getElem_replicate,
        List.getElem?_eq_none (by omega)]

/-- What is null is told apart from the nodes. -/
theorem perm_nulls_iff {l l' : List ℕ} {n : ℕ} :
    (l.map some ++ List.replicate (n - l.length) none).Perm
      (l'.map some ++ List.replicate (n - l'.length) none) ↔ l.Perm l' := by
  have hnodes (l : List ℕ) (k : ℕ) :
      (l.map some ++ List.replicate k none).filterMap id = l := by
    rw [List.filterMap_append, List.filterMap_map, List.filterMap_replicate]
    simp
  constructor
  · intro hperm
    have hfilter := hperm.filterMap id
    rwa [hnodes, hnodes] at hfilter
  · intro hperm
    rw [hperm.length_eq]
    exact (hperm.map some).append_right _

/-! ## Runs -/

/-- What a thread remembers is what it came to in the memory that it walked. -/
structure Kept (layout : LegacyLayout) (s : LegacyState) : Prop where
  never : s.made = none → s.walk = {}
  made : ∀ mapping ∈ s.made, ∃ h, readHeader layout mapping s.walk.map = some h ∧
    s.walk.count = h.itemCount ∧ s.walk.nodes = gathered layout mapping h

/-- The walk remembered holds at most as many nodes as it counted. -/
theorem Kept.length_le {s : LegacyState} (hkept : Kept layout s) :
    s.walk.nodes.length ≤ s.walk.count := by
  cases hmade : s.made with
  | none =>
    rw [hkept.never hmade]
    exact le_rfl
  | some mapping =>
    obtain ⟨h, -, hcount, hnodes⟩ := hkept.made mapping hmade
    rw [hcount, hnodes]
    exact length_gathered layout mapping h

/-- Every action keeps the remembered walk within its count. -/
theorem Kept.step {s : LegacyState} (hkept : Kept layout s) (action : LegacyAction) :
    Kept layout (s.step layout action) := by
  cases action with
  | engine mapping => exact ⟨hkept.never, hkept.made⟩
  | read container index =>
    unfold LegacyState.step remakes
    cases hheader : readHeader layout s.mapping container with
    | none =>
      have hsame : legacyMapNode layout s.mapping s.walk container index = (none, s.walk) := by
        unfold legacyMapNode
        rw [hheader]
      dsimp only
      rw [hsame, hheader]
      exact ⟨hkept.never, hkept.made⟩
    | some h =>
      by_cases hskip : h.itemCount ≤ index ∨ h.TooLarge
      · have hsame : legacyMapNode layout s.mapping s.walk container index = (none, s.walk) := by
          unfold legacyMapNode
          rw [hheader]
          exact if_pos hskip
        dsimp only
        rw [hsame, hheader, Option.any_some, if_neg (by simp [hskip])]
        exact ⟨hkept.never, hkept.made⟩
      · dsimp only
        rw [legacyMapNode_eq hheader (fun hlarge => hskip (.inr hlarge))
          (Nat.lt_of_not_le fun hle => hskip (.inl hle)), hheader, Option.any_some]
        unfold served
        by_cases hstale : s.walk.Stale container h.itemCount
        · rw [if_pos hstale, if_pos (by simp [hskip, hstale])]
          refine ⟨nofun, fun mapping hmapping => ?_⟩
          obtain rfl := Option.some.inj hmapping
          exact ⟨h, hheader, rfl, rfl⟩
        · rw [if_neg hstale, if_neg (by simp [hstale])]
          exact ⟨hkept.never, hkept.made⟩

/-- A run of a thread's reads and of what the engine does to the memory, before which nothing was
walked. -/
def LegacyRun (layout : LegacyLayout) (mapping : Mapping) (actions : List LegacyAction)
    (s : LegacyState) : Prop :=
  Run (fun s action => some (s.step layout action)) (fun _ _ => True) { mapping } actions s

/-- Any actions are a run. -/
theorem LegacyRun.foldl (layout : LegacyLayout) (mapping : Mapping) (actions : List LegacyAction) :
    LegacyRun layout mapping actions (actions.foldl (LegacyState.step layout) { mapping }) := by
  have hrun (s : LegacyState) : Run (fun s action => some (s.step layout action)) (fun _ _ => True)
      s actions (actions.foldl (LegacyState.step layout) s) := by
    induction actions generalizing s with
    | nil => exact .refl s
    | cons action actions ih => exact .cons trivial rfl (ih _)
  exact hrun _

/-- The remembered walk is within its count after every run. -/
theorem kept_of_run {actions : List LegacyAction} {s : LegacyState}
    (hrun : LegacyRun layout mapping actions s) : Kept layout s := by
  apply hrun.invariant
  · exact ⟨fun _ => rfl, nofun⟩
  · intro t action u hkept _ hstep
    rw [← Option.some.inj hstep]
    exact hkept.step action

/-- For a map of a sane size every node reads right exactly when the walk is of the map as it is.
-/
theorem readsAll_iff_of_small {s : LegacyState} (hkept : Kept layout s)
    (hholds : Holds layout s.mapping container h nodes) (hsmall : ¬ h.TooLarge) :
    ReadsAll layout s container h nodes ↔ Unchanged layout s container h nodes := by
  have hall : readAll layout s.mapping s.walk container =
      (List.range h.itemCount).map fun i =>
        (served layout s.mapping s.walk container h).nodes[i]? := by
    unfold readAll
    rw [legacyMapCount_eq hholds.header]
    exact readEach_eq hholds.header hsmall fun i hi => List.mem_range.mp hi
  unfold ReadsAll Unchanged
  rw [hall]
  unfold served
  by_cases hstale : s.walk.Stale container h.itemCount
  · rw [if_pos hstale, hholds.gathered_eq, map_getElem?_range hholds.length_le]
    exact ⟨fun _ hnot => absurd hstale hnot, fun _ => List.Perm.refl _⟩
  · have hmap : s.walk.map = container := not_not.mp fun hne => hstale (.inl hne)
    have hcount : s.walk.count = h.itemCount := not_not.mp fun hne => hstale (.inr hne)
    have hlength : s.walk.nodes.length ≤ h.itemCount := hcount ▸ hkept.length_le
    rw [if_neg hstale, map_getElem?_range hlength, perm_nulls_iff]
    constructor
    · intro hperm _ mapping hmapping before hbefore
      obtain ⟨h', hheader, -, hnodes⟩ := hkept.made mapping hmapping
      rw [hmap, hbefore] at hheader
      rw [Option.some.inj hheader, ← hnodes]
      exact hperm
    · intro hsame
      cases hmade : s.made with
      | none =>
        rw [hkept.never hmade] at hcount ⊢
        have hnone := hholds.length_le
        rw [← hcount, Nat.le_zero, List.length_eq_zero_iff] at hnone
        rw [hnone]
      | some mapping =>
        obtain ⟨h', hheader, -, hnodes⟩ := hkept.made mapping hmade
        rw [hmap] at hheader
        rw [hnodes]
        exact hsame hstale mapping hmade h' hheader

/-- At any time in any run, the indices of a map that is there give each node of its chains once
and no other if and only if the remembered walk, where it is of this address and count, came to
the same nodes, and the map is not too large. -/
theorem legacyMapNode_right_iff (layout : LegacyLayout) (start : Mapping)
    (actions : List LegacyAction) (s : LegacyState) (container : ℕ) (h : LegacyHeader)
    (nodes : List ℕ) (hrun : LegacyRun layout start actions s)
    (hholds : Holds layout s.mapping container h nodes) :
    ReadsAll layout s container h nodes ↔
      if h.TooLarge then nodes = [] else Unchanged layout s container h nodes := by
  by_cases hlarge : h.TooLarge
  · have hall : readAll layout s.mapping s.walk container = List.replicate h.itemCount none := by
      unfold readAll
      rw [legacyMapCount_eq hholds.header, readEach_of_large hholds.header hlarge, List.length_range]
    unfold ReadsAll
    rw [if_pos hlarge, hall]
    have hnil : (List.replicate h.itemCount none).Perm
        (nodes.map some ++ List.replicate (h.itemCount - nodes.length) none) ↔ [].Perm nodes :=
      perm_nulls_iff (l := [])
    rw [hnil, List.nil_perm]
  · rw [if_neg hlarge]
    exact readsAll_iff_of_small (kept_of_run hrun) hholds hlarge

/-! ## A map of one bucket -/

/-- The memory of a map of one bucket with these nodes in its chain. -/
def oneBucket (nodes : List ℕ) : Mapping := fun addr =>
  if 0x10000 ≤ addr ∧ addr < 0x10014 then
    (LittleEndian.encode 8 1 ++ LittleEndian.encode 8 0x20000 ++
      LittleEndian.encode 4 nodes.length)[addr - 0x10000]?
  else if 0x20000 ≤ addr ∧ addr < 0x20008 then
    (LittleEndian.encode 8 (nodes.headD 0))[addr - 0x20000]?
  else
    (nodes.zip (nodes.tail ++ [0])).findSome? fun (node, next) =>
      if node ≤ addr then (LittleEndian.encode 8 next)[addr - node]? else none

def plainLayout : LegacyLayout := ⟨0, 16, 8, 0⟩

/-- The header of the map with so many nodes. -/
def oneHeader (count : ℕ) : LegacyHeader := ⟨1, count, 0x20000⟩

/-- A map of three nodes; two are linked the other way around than by address. -/
def relinked : Mapping := oneBucket [0x31000, 0x30000, 0x32000]

theorem readNext_relinked : readNext plainLayout relinked 0x31000 = some 0x30000 ∧
    readNext plainLayout relinked 0x30000 = some 0x32000 ∧
    readNext plainLayout relinked 0x32000 = some 0 := by
  decide +kernel

theorem chained_relinked :
    Chained (readNext plainLayout relinked) 0x31000 [0x31000, 0x30000, 0x32000] := by
  obtain ⟨hfirst, hsecond, hlast⟩ := readNext_relinked
  exact .cons (by decide) hfirst (.cons (by decide) hsecond (.cons (by decide) hlast .nil))

theorem holds_relinked : Holds plainLayout relinked 0x10000 (oneHeader 3)
    [0x31000, 0x30000, 0x32000] where
  header := by decide +kernel
  chained := .inr ⟨[0x31000], _, by decide +kernel, .cons chained_relinked .nil,
    (List.append_nil _).symm⟩
  distinct := by decide
  counted := .inl rfl

/-- The memory is as the engine left it last. -/
theorem mapping_foldl_engine (actions : List LegacyAction) (s : LegacyState) :
    ((actions ++ [LegacyAction.engine mapping]).foldl (LegacyState.step layout) s).mapping = mapping := by
  rw [List.foldl_append]
  rfl

/-- A thread reads a map of two nodes, the engine adds a third, the thread reads that one, and the
engine links the first two the other way around. -/
def demoActions : List LegacyAction :=
  [.read 0x10000 0, .engine (oneBucket [0x30000, 0x31000, 0x32000]), .read 0x10000 2] ++
    [.engine relinked]

def afterDemo : LegacyState :=
  demoActions.foldl (LegacyState.step plainLayout) { mapping := oneBucket [0x30000, 0x31000] }

theorem run_afterDemo :
    LegacyRun plainLayout (oneBucket [0x30000, 0x31000]) demoActions afterDemo :=
  .foldl plainLayout (oneBucket [0x30000, 0x31000]) demoActions

theorem walk_afterDemo : afterDemo.walk.map = 0x10000 ∧
    afterDemo.walk.nodes = [0x30000, 0x31000, 0x32000] := by
  decide +kernel

/-- The walk that is remembered has the same three nodes, in the order they were in. -/
theorem legacyMapNode_right_iff_relinked :
    ReadsAll plainLayout afterDemo 0x10000 (oneHeader 3) [0x31000, 0x30000, 0x32000] := by
  have hholds : Holds plainLayout afterDemo.mapping 0x10000 (oneHeader 3)
      [0x31000, 0x30000, 0x32000] := by
    unfold afterDemo demoActions
    rw [mapping_foldl_engine]
    exact holds_relinked
  have hsmall : ¬ (oneHeader 3).TooLarge := by
    simp only [LegacyHeader.TooLarge, oneHeader]
    omega
  rw [legacyMapNode_right_iff plainLayout (oneBucket [0x30000, 0x31000]) demoActions afterDemo
    0x10000 (oneHeader 3) [0x31000, 0x30000, 0x32000] run_afterDemo hholds, if_neg hsmall]
  intro _ mapping hmade before hbefore
  obtain ⟨h', hheader, -, hnodes⟩ := (kept_of_run run_afterDemo).made mapping hmade
  rw [walk_afterDemo.1, hbefore] at hheader
  rw [Option.some.inj hheader, ← hnodes, walk_afterDemo.2]
  exact List.Perm.swap _ _ _

/-- A map whose node was put in the place of the one that was read. -/
theorem holds_replaced :
    Holds plainLayout (oneBucket [0x31000]) 0x10000 (oneHeader 1) [0x31000] where
  header := by decide +kernel
  chained := .inr ⟨[0x31000], [[0x31000]], by decide +kernel,
    .cons (.cons (by decide) (by decide +kernel) .nil) .nil, rfl⟩
  distinct := List.nodup_singleton _
  counted := .inl rfl

/-- The engine puts another node in the place of the one that was read: the old one is read on. -/
theorem replaced_node_is_read : ¬ ∀ (layout : LegacyLayout) (start : Mapping)
    (actions : List LegacyAction) (s : LegacyState) (container : ℕ) (h : LegacyHeader)
    (nodes : List ℕ), LegacyRun layout start actions s → Holds layout s.mapping container h nodes →
      ReadsAll layout s container h nodes := by
  intro hall
  let actions : List LegacyAction := [.read 0x10000 0, .engine (oneBucket [0x31000])]
  have hread := hall plainLayout (oneBucket [0x30000]) actions _ 0x10000 (oneHeader 1) [0x31000]
    (.foldl _ _ _) holds_replaced
  have hgiven : readAll plainLayout (oneBucket [0x31000])
      (actions.foldl (LegacyState.step plainLayout) { mapping := oneBucket [0x30000] }).walk 0x10000 =
      [some 0x30000] := by decide +kernel
  unfold ReadsAll at hread
  have hmem : some 0x30000 ∈ [some 0x31000] := hread.subset (hgiven ▸ List.mem_singleton_self _)
  exact absurd hmem (by decide)

end ComponentMeta
end Bg3le
