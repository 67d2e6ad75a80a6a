import Bg3le.Library.Tally
import Bg3le.Stats.LegacyMap
import Mathlib.Data.List.Nodup

/-!
# An insertion keeps a legacy map

A node that is there is overwritten in its place. A new one goes where the inferred rule files
it. That is the engine's own rule unless all the nodes agree with the string table's as well, so an
engine that buckets by the key itself does not find the first nodes of a map.
-/

namespace Bg3le
namespace StatsSets

variable {V : Type} {hash : UInt32 → Option UInt32} {ref given : Bool} {map map' : LegacyMap V}
  {h h' : LegacyHeader V} {key : UInt32} {value : V} {rule inferred : Rule} {bucket : ℕ}
  {chain chain' : List (Node V)}

/-! ## What a map is -/

/-- All the nodes of the table. -/
def LegacyHeader.nodes (h : LegacyHeader V) : List (Node V) :=
  (List.range h.hashSize.toNat).flatMap h.hashTable

/-- Every node is in the bucket that the rule gives, the keys are distinct, and the count is the
number of nodes. -/
structure LegacyHeader.Kept (hash : UInt32 → Option UInt32) (rule : Rule) (h : LegacyHeader V) :
    Prop where
  filed {b : ℕ} (hb : b < h.hashSize.toNat) : ∀ node ∈ h.hashTable b,
    rule.bucket hash h.hashSize node.key = some b
  distinct : (h.nodes.map (·.key)).Nodup
  counted : h.itemCount.toNat = h.nodes.length

/-- The engine's lookup, in the bucket that its rule gives. -/
def LegacyHeader.find (hash : UInt32 → Option UInt32) (rule : Rule) (h : LegacyHeader V)
    (key : UInt32) : Option V :=
  (rule.bucket hash h.hashSize key).bind fun b =>
    ((h.hashTable b).find? (·.key = key)).map (·.value)

/-- `each_node` comes to the pair. -/
def Finds (ref : Bool) (map : LegacyMap V) (key : UInt32) (value : V) : Prop :=
  ∃ b, (b, ⟨key, value⟩) ∈ eachNode ref map

/-- What an insertion owes, for the rule that the engine has. -/
def KeepsLegacy (hash : UInt32 → Option UInt32) (rule : Rule) (ref : Bool) (map : LegacyMap V)
    (key : UInt32) (value : V) : Except Refusal Unit × LegacyMap V → Prop
  | (.error _, map') => map' = map
  | (.ok _, map') => ∃ h', legacyHeader ref map' = some h' ∧ h'.Kept hash rule ∧
      (∀ k v, Finds ref map' k v ↔ if k = key then v = value else Finds ref map k v) ∧
      h'.find hash rule key = some value

/-- Every node that is gone through is where the string table's hash files it. So it is in an empty
map. -/
def AgreesWithHash (hash : UInt32 → Option UInt32) (ref : Bool) (map : LegacyMap V)
    (h : LegacyHeader V) : Prop :=
  ∀ entry ∈ eachNode ref map, Rule.stringTable.bucket hash h.hashSize entry.2.key = some entry.1

/-- A node is to be added: the key has none that is gone through, it has the hash it takes, and the
allocator gives the node. -/
structure AddsNode (hash : UInt32 → Option UInt32) (rule : Rule) (ref given : Bool)
    (map : LegacyMap V) (key : UInt32) (h : LegacyHeader V) : Prop where
  header : legacyHeader ref map = some h
  unseen : ∀ value, ¬ Finds ref map key value
  hashed (h : rule = .stringTable ∨ AgreesWithHash hash ref map h) : (hash key).isSome = true
  given : given = true

/-- The map takes it: where its nodes do not tell the two rules apart, they give the key one bucket,
the key's bucket has room for a node that is gone through, and the count for one more. -/
structure TakesNode (hash : UInt32 → Option UInt32) (rule : Rule) (ref : Bool) (map : LegacyMap V)
    (key : UInt32) (h : LegacyHeader V) : Prop where
  alike (hagrees : AgreesWithHash hash ref map h) :
    rule.bucket hash h.hashSize key = Rule.stringTable.bucket hash h.hashSize key
  room {bucket : ℕ} (hbucket : rule.bucket hash h.hashSize key = some bucket) :
    (h.hashTable bucket).length < 2 ^ 20
  count : h.itemCount.toNat + 1 < 2 ^ 32

/-- What a node is added to: the engine's bucket for the key, with room, in a map that has the key
nowhere and counts one more. -/
structure Files (hash : UInt32 → Option UInt32) (rule : Rule) (key : UInt32) (h : LegacyHeader V)
    (bucket : ℕ) : Prop where
  engine : rule.bucket hash h.hashSize key = some bucket
  room : (h.hashTable bucket).length < 2 ^ 20
  new : ∀ node ∈ h.hashTable bucket, node.key ≠ key
  count : h.itemCount.toNat + 1 < 2 ^ 32

namespace LegacyHeader

theorem length_nodes (h : LegacyHeader V) :
    h.nodes.length = ∑ b ∈ Finset.range h.hashSize.toNat, (h.hashTable b).length := by
  have hsum (n : ℕ) : ((List.range n).flatMap h.hashTable).length =
      ∑ b ∈ Finset.range n, (h.hashTable b).length := by
    induction n with
    | zero => rfl
    | succ n ih =>
      rw [List.range_succ, List.flatMap_append, List.length_append, ih, Finset.sum_range_succ,
        List.flatMap_singleton]
  exact hsum _

/-- With every node filed, the keys are distinct where those of each bucket are. -/
theorem distinct_iff (hfiled : ∀ b < h.hashSize.toNat, ∀ node ∈ h.hashTable b,
      rule.bucket hash h.hashSize node.key = some b) :
    (h.nodes.map (·.key)).Nodup ↔
      ∀ b < h.hashSize.toNat, ((h.hashTable b).map (·.key)).Nodup := by
  rw [nodes, List.map_flatMap, List.nodup_flatMap]
  simp only [List.mem_range]
  refine and_iff_left_of_imp fun _ => ?_
  apply (List.pairwise_lt_range).imp_of_mem
  intro a b ha hb hlt key hkey hkey'
  obtain ⟨node, hnode, rfl⟩ := List.mem_map.mp hkey
  obtain ⟨node', hnode', hsame⟩ := List.mem_map.mp hkey'
  have hfa := hfiled a (List.mem_range.mp ha) node hnode
  have hfb := hfiled b (List.mem_range.mp hb) node' hnode'
  rw [show node'.key = node.key from hsame, hfa] at hfb
  exact hlt.ne (Option.some.inj hfb)

/-- The header with another chain in a bucket. -/
def put (h : LegacyHeader V) (bucket : ℕ) (chain : List (Node V)) : LegacyHeader V :=
  { h with hashTable := Function.update h.hashTable bucket chain }

theorem length_nodes_put (h : LegacyHeader V) (chain : List (Node V))
    (hbucket : bucket < h.hashSize.toNat) :
    (h.put bucket chain).nodes.length + (h.hashTable bucket).length =
      h.nodes.length + chain.length := by
  rw [length_nodes, length_nodes]
  have hlengths : (fun b => ((h.put bucket chain).hashTable b).length) =
      Function.update (fun b => (h.hashTable b).length) bucket chain.length :=
    funext fun b => Function.apply_update (fun _ nodes => List.length nodes) h.hashTable bucket
      chain b
  show ∑ b ∈ Finset.range h.hashSize.toNat, ((h.put bucket chain).hashTable b).length + _ = _
  rw [hlengths]
  exact sum_exchange (fun b => (h.hashTable b).length) (Finset.mem_range.mpr hbucket) _

/-- A bucket's other chain keeps the map where it is filed, distinct and counted. -/
theorem Kept.put (hkept : h.Kept hash rule) (hbucket : bucket < h.hashSize.toNat)
    (hfiled : ∀ node ∈ chain, rule.bucket hash h.hashSize node.key = some bucket)
    (hdistinct : (chain.map (·.key)).Nodup) {itemCount : UInt32}
    (hcounted : itemCount.toNat + (h.hashTable bucket).length =
      h.itemCount.toNat + chain.length) :
    LegacyHeader.Kept hash rule { h.put bucket chain with itemCount } := by
  have hall : ∀ b < h.hashSize.toNat, ∀ node ∈ (h.put bucket chain).hashTable b,
      rule.bucket hash h.hashSize node.key = some b := by
    intro b hb node hnode
    simp only [LegacyHeader.put, Function.update_apply] at hnode
    split at hnode
    · next heq => exact heq ▸ hfiled node hnode
    · exact hkept.filed hb node hnode
  refine ⟨fun {b} => hall b, ?_, ?_⟩
  · show ((h.put bucket chain).nodes.map (·.key)).Nodup
    rw [distinct_iff (h := h.put bucket chain) hall]
    have hold := (distinct_iff fun b hb => hkept.filed hb).mp hkept.distinct
    intro b hb
    simp only [LegacyHeader.put, Function.update_apply]
    split
    · exact hdistinct
    · exact hold b hb
  · show itemCount.toNat = (h.put bucket chain).nodes.length
    have hlength := h.length_nodes_put chain hbucket
    have hbefore := hkept.counted
    omega

theorem Kept.nodup (hkept : h.Kept hash rule) {b : ℕ} (hb : b < h.hashSize.toNat) :
    ((h.hashTable b).map (·.key)).Nodup :=
  (distinct_iff fun _ hb' => hkept.filed hb').mp hkept.distinct b hb

/-- The node of a key is what the engine's lookup finds. -/
theorem Kept.find_eq (hkept : h.Kept hash rule)
    (hbucket : rule.bucket hash h.hashSize key = some bucket) (hlt : bucket < h.hashSize.toNat)
    (hnode : ⟨key, value⟩ ∈ h.hashTable bucket) : h.find hash rule key = some value := by
  have hnodup := hkept.nodup hlt
  unfold find
  rw [hbucket, Option.bind_some]
  cases hfind : (h.hashTable bucket).find? (·.key = key) with
  | none => exact absurd (decide_eq_true rfl) (List.find?_eq_none.mp hfind _ hnode)
  | some node =>
    have hkey : node.key = key := by simpa using List.find?_some hfind
    have hsame := List.inj_on_of_nodup_map hnodup (List.mem_of_find?_eq_some hfind) hnode hkey
    rw [hsame]
    rfl

end LegacyHeader

/-- A bucket is one of the table's. -/
theorem Rule.bucket_lt {hashSize : UInt32} (hpos : 0 < hashSize)
    (h : rule.bucket hash hashSize key = some bucket) : bucket < hashSize.toNat := by
  have hpos := UInt32.lt_iff_toNat_lt.mp hpos
  have hmod (k : UInt32) : (k % hashSize).toNat < hashSize.toNat := by
    rw [UInt32.toNat_mod]
    exact Nat.mod_lt _ hpos
  cases rule with
  | index => exact Option.some.inj h ▸ hmod key
  | stringTable =>
    obtain ⟨k, -, rfl⟩ := Option.map_eq_some_iff.mp h
    exact hmod k

/-! ## What is gone through -/

theorem legacyHeader_pos (h : legacyHeader ref map = some h') : 0 < h'.hashSize := by
  obtain ⟨table, -, h⟩ := Option.bind_eq_some_iff.mp h
  obtain ⟨⟨hpos, -⟩, hsame⟩ := Option.ite_none_right_eq_some.mp h
  rw [← Option.some.inj hsame]
  exact hpos

theorem finds_iff (hheader : legacyHeader ref map = some h) {k : UInt32} {v : V} :
    Finds ref map k v ↔ ∃ b < h.hashSize.toNat, ⟨k, v⟩ ∈ guarded (h.hashTable b) := by
  simp only [Finds, eachNode, hheader, List.mem_flatMap, List.mem_range, List.mem_map,
    Prod.mk.injEq]
  constructor
  · rintro ⟨b, a, ha, node, hnode, rfl, rfl⟩
    exact ⟨a, ha, hnode⟩
  · rintro ⟨b, hb, hnode⟩
    exact ⟨b, b, hb, _, hnode, rfl, rfl⟩

/-- The first node of the key, among so many. -/
theorem replaceFirst_eq_some : ∀ {n : ℕ} {chain chain' : List (Node V)},
    replaceFirst key value n chain = some chain' →
    ∃ before node after, chain = before ++ node :: after ∧ node.key = key ∧ before.length < n ∧
      chain' = before ++ ⟨key, value⟩ :: after
  | 0, _, _, h => absurd h (by simp [replaceFirst])
  | _ + 1, [], _, h => absurd h (by simp [replaceFirst])
  | n + 1, node :: rest, chain', h => by
    simp only [replaceFirst] at h
    split at h
    · next hkey =>
      refine ⟨[], node, rest, rfl, hkey, Nat.succ_pos n, ?_⟩
      rw [← Option.some.inj h, List.nil_append, ← hkey]
    · obtain ⟨rest', hrest, rfl⟩ := Option.map_eq_some_iff.mp h
      obtain ⟨before, found, after, rfl, hkey, hlt, rfl⟩ := replaceFirst_eq_some hrest
      exact ⟨node :: before, found, after, rfl, hkey, Nat.succ_lt_succ hlt, rfl⟩

theorem replaceFirst_eq_none : ∀ {n : ℕ} {chain : List (Node V)},
    replaceFirst key value n chain = none → ∀ node ∈ chain.take n, node.key ≠ key
  | 0, _, _, _, hnode => absurd hnode (by simp)
  | _ + 1, [], _, _, hnode => absurd hnode (by simp)
  | n + 1, first :: rest, h, node, hnode => by
    simp only [replaceFirst] at h
    split at h
    · exact absurd h (by simp)
    · next hkey =>
      rw [List.take_succ_cons] at hnode
      rcases List.mem_cons.mp hnode with rfl | hnode
      · exact hkey
      · exact replaceFirst_eq_none (Option.map_eq_none_iff.mp h) node hnode

/-- The key's node was overwritten in some bucket. -/
theorem replaceIn_eq_some {hashSize : UInt32} {table table' : ℕ → List (Node V)}
    (h : replaceIn hashSize table key value = some table') :
    ∃ b < hashSize.toNat, ∃ before node after, table b = before ++ node :: after ∧
      node.key = key ∧ before.length < 2 ^ 20 ∧
      table' = Function.update table b (before ++ ⟨key, value⟩ :: after) := by
  obtain ⟨b, hb, hreplace⟩ := List.exists_of_findSome?_eq_some h
  obtain ⟨chain, hchain, rfl⟩ := Option.map_eq_some_iff.mp hreplace
  obtain ⟨before, node, after, hbefore, hkey, hlt, rfl⟩ := replaceFirst_eq_some hchain
  exact ⟨b, List.mem_range.mp hb, before, node, after, hbefore, hkey, hlt, rfl⟩

theorem replaceIn_eq_none {hashSize : UInt32} {table : ℕ → List (Node V)}
    (h : replaceIn hashSize table key value = none) :
    ∀ b < hashSize.toNat, ∀ node ∈ guarded (table b), node.key ≠ key := by
  intro b hb
  have hnone := List.findSome?_eq_none_iff.mp h b (List.mem_range.mpr hb)
  exact replaceFirst_eq_none (Option.map_eq_none_iff.mp hnone)

/-- The header once the table and the count are put. -/
theorem legacyHeader_put (hheader : legacyHeader ref map = some h) (table : ℕ → List (Node V)) :
    legacyHeader ref { map with word8 := some table } = some { h with hashTable := table } ∧
      ∀ itemCount, legacyHeader ref ({ map with word8 := some table }.putCount ref itemCount) =
        some { h with hashTable := table, itemCount } := by
  obtain ⟨old, -, hold⟩ := Option.bind_eq_some_iff.mp hheader
  obtain ⟨hsize, hsame⟩ := Option.ite_none_right_eq_some.mp hold
  obtain rfl := Option.some.inj hsame
  refine ⟨?_, fun itemCount => ?_⟩
  · simp only [legacyHeader, Option.bind_some, if_pos hsize]
  · cases ref with
    | false =>
      simp only [Bool.false_eq_true, if_false] at hsize
      simp only [legacyHeader, LegacyMap.putCount, Bool.false_eq_true, if_false, Option.bind_some,
        if_pos hsize]
    | true =>
      simp only [if_true] at hsize
      simp only [legacyHeader, LegacyMap.putCount, if_true, Option.bind_some, if_pos hsize]

/-- A pair is found in the bucket of its key. -/
theorem finds_iff_of_kept (hheader : legacyHeader ref map = some h) (hkept : h.Kept hash rule)
    {k : UInt32} {v : V} : Finds ref map k v ↔
      ∃ b, rule.bucket hash h.hashSize k = some b ∧ ⟨k, v⟩ ∈ guarded (h.hashTable b) := by
  rw [finds_iff hheader]
  constructor
  · rintro ⟨b, hb, hnode⟩
    exact ⟨b, hkept.filed hb _ (List.mem_of_mem_take hnode), hnode⟩
  · rintro ⟨b, hb, hnode⟩
    exact ⟨b, Rule.bucket_lt (legacyHeader_pos hheader) hb, hnode⟩

/-- What is found changes as what is gone through in the key's bucket does. -/
theorem finds_put {itemCount : UInt32} (hheader : legacyHeader ref map = some h)
    (hheader' : legacyHeader ref map' = some { h.put bucket chain with itemCount })
    (hkept : h.Kept hash rule)
    (hkept' : LegacyHeader.Kept hash rule { h.put bucket chain with itemCount })
    (hbucket : rule.bucket hash h.hashSize key = some bucket)
    (hchain : ∀ k v, ⟨k, v⟩ ∈ guarded chain ↔
      if k = key then v = value else ⟨k, v⟩ ∈ guarded (h.hashTable bucket)) (k : UInt32) (v : V) :
    Finds ref map' k v ↔ if k = key then v = value else Finds ref map k v := by
  rw [finds_iff_of_kept hheader' hkept', finds_iff_of_kept hheader hkept]
  show (∃ b, rule.bucket hash h.hashSize k = some b ∧
    ⟨k, v⟩ ∈ guarded (Function.update h.hashTable bucket chain b)) ↔ _
  cases hk : rule.bucket hash h.hashSize k with
  | none =>
    have hne : k ≠ key := by
      rintro rfl
      exact Option.some_ne_none bucket (hbucket.symm.trans hk)
    simp [hne]
  | some b =>
    simp only [Option.some.injEq, exists_eq_left']
    by_cases heq : b = bucket
    · rw [heq, Function.update_self]
      exact hchain k v
    · have hne : k ≠ key := by
        rintro rfl
        exact heq (Option.some.inj (hk.symm.trans hbucket))
      rw [Function.update_of_ne heq, if_neg hne]

/-! ## A node that is there -/

/-- Among the first so many of a chain with one node of the key, the node's pair is the new one. -/
theorem mem_guarded_replaced {before after : List (Node V)} {node : Node V}
    (hdistinct : ((before ++ node :: after).map (·.key)).Nodup) (hlt : before.length < 2 ^ 20)
    (k : UInt32) (v : V) :
    ⟨k, v⟩ ∈ guarded (before ++ ⟨node.key, value⟩ :: after) ↔
      if k = node.key then v = value else ⟨k, v⟩ ∈ guarded (before ++ node :: after) := by
  have htake (middle : Node V) : guarded (before ++ middle :: after) =
      before ++ middle :: after.take (2 ^ 20 - before.length - 1) := by
    obtain ⟨d, hd⟩ : ∃ d, 2 ^ 20 - before.length = d + 1 := ⟨2 ^ 20 - before.length - 1, by omega⟩
    rw [guarded, List.take_append, List.take_of_length_le hlt.le, hd, List.take_succ_cons,
      Nat.add_sub_cancel]
  rw [List.map_append, List.map_cons, List.nodup_append, List.nodup_cons] at hdistinct
  obtain ⟨-, ⟨hafter, -⟩, hbefore⟩ := hdistinct
  rw [htake, htake]
  simp only [List.mem_append, List.mem_cons]
  split
  · next heq =>
    subst heq
    constructor
    · rintro (hmem | hmem | hmem)
      · exact absurd rfl (hbefore _ (List.mem_map_of_mem hmem) _ List.mem_cons_self)
      · exact (Node.mk.inj hmem).2
      · exact absurd (List.mem_map_of_mem (List.mem_of_mem_take hmem)) hafter
    · rintro rfl
      exact .inr (.inl rfl)
  · next hne =>
    refine or_congr_right (or_congr_left (iff_of_false ?_ ?_))
    · intro hsame
      exact hne (Node.mk.inj hsame).1
    · rintro rfl
      exact hne rfl

theorem keepsLegacy_of_replaced (hheader : legacyHeader ref map = some h)
    (hkept : h.Kept hash rule) {table : ℕ → List (Node V)}
    (hreplaced : replaceIn h.hashSize h.hashTable key value = some table) :
    KeepsLegacy hash rule ref map key value (.ok (), { map with word8 := some table }) := by
  obtain ⟨b, hb, before, node, after, hchain, rfl, hlt, rfl⟩ := replaceIn_eq_some hreplaced
  have hheader' := (legacyHeader_put hheader (Function.update h.hashTable b
    (before ++ ⟨node.key, value⟩ :: after))).1
  have hdistinct := hkept.nodup hb
  have hfiled := hkept.filed hb
  rw [hchain] at hdistinct hfiled
  have hnode := hfiled node (List.mem_append_right _ List.mem_cons_self)
  have hkept' : LegacyHeader.Kept hash rule { h.put b (before ++ ⟨node.key, value⟩ :: after) with
      itemCount := h.itemCount } := by
    apply hkept.put hb
    · intro node' hnode'
      rcases List.mem_append.mp hnode' with hmem | hmem
      · exact hfiled node' (List.mem_append_left _ hmem)
      · rcases List.mem_cons.mp hmem with rfl | hmem
        · exact hnode
        · exact hfiled node' (List.mem_append_right _ (List.mem_cons_of_mem _ hmem))
    · simpa using hdistinct
    · rw [hchain, List.length_append, List.length_append]
      rfl
  refine ⟨_, hheader', hkept', ?_, ?_⟩
  · refine finds_put hheader hheader' hkept hkept' hnode fun k v => ?_
    rw [hchain]
    exact mem_guarded_replaced hdistinct hlt k v
  · apply hkept'.find_eq hnode hb
    simp [LegacyHeader.put]

/-! ## A new node -/

theorem mem_guarded_cons (hroom : chain.length < 2 ^ 20)
    (hnew : ∀ node ∈ chain, node.key ≠ key) (k : UInt32) (v : V) :
    ⟨k, v⟩ ∈ guarded (⟨key, value⟩ :: chain) ↔
      if k = key then v = value else ⟨k, v⟩ ∈ guarded chain := by
  rw [guarded, guarded, List.take_of_length_le (by rw [List.length_cons]; omega),
    List.take_of_length_le hroom.le, List.mem_cons, Node.mk.injEq]
  split
  · next heq =>
    subst heq
    constructor
    · rintro (⟨-, hsame⟩ | hmem)
      · exact hsame
      · exact absurd rfl (hnew _ hmem)
    · exact fun hsame => .inl ⟨rfl, hsame⟩
  · next hne =>
    exact or_iff_right fun hsame => hne hsame.1

/-- The last node that is gone through is not, once another is before it. -/
theorem mem_guarded_lost (hfull : 2 ^ 20 ≤ chain.length) (hdistinct : (chain.map (·.key)).Nodup) :
    ∃ node ∈ guarded chain, ∀ first : Node V, first.key ≠ node.key →
      node ∉ guarded (first :: chain) := by
  have hlast : 2 ^ 20 - 1 < chain.length := by omega
  refine ⟨chain[2 ^ 20 - 1], ?_, ?_⟩
  · rw [guarded, List.mem_take_iff_getElem]
    exact ⟨2 ^ 20 - 1, by omega, rfl⟩
  · intro first hne hmem
    have htake : (first :: chain).take (2 ^ 20) = first :: chain.take (2 ^ 20 - 1) := rfl
    rw [guarded, htake] at hmem
    rcases List.mem_cons.mp hmem with hsame | hmem
    · exact hne (congrArg Node.key hsame.symm)
    · obtain ⟨i, hi, hsame⟩ := List.mem_take_iff_getElem.mp hmem
      have hi' : i < chain.length := by omega
      have hi₁ : i < (chain.map (·.key)).length := by rwa [List.length_map]
      have hlast₁ : 2 ^ 20 - 1 < (chain.map (·.key)).length := by rwa [List.length_map]
      have hkeys : (chain.map (·.key))[i] = (chain.map (·.key))[2 ^ 20 - 1] := by
        rw [List.getElem_map, List.getElem_map, hsame]
      have hindex := (List.Nodup.getElem_inj_iff hdistinct).mp hkeys
      omega

/-- What an insertion leaves that adds a node. -/
def added (ref : Bool) (map : LegacyMap V) (h : LegacyHeader V) (bucket : ℕ) (key : UInt32)
    (value : V) : LegacyMap V :=
  { map with
    word8 := some (Function.update h.hashTable bucket (⟨key, value⟩ :: h.hashTable bucket))
    }.putCount ref (h.itemCount + 1)

theorem keepsLegacy_added_iff (hheader : legacyHeader ref map = some h) (hkept : h.Kept hash rule)
    (hlt : bucket < h.hashSize.toNat) :
    KeepsLegacy hash rule ref map key value (.ok (), added ref map h bucket key value) ↔
      Files hash rule key h bucket := by
  have hheader' := (legacyHeader_put hheader (Function.update h.hashTable bucket
    (⟨key, value⟩ :: h.hashTable bucket))).2 (h.itemCount + 1)
  have hone : (1 : UInt32).toNat = 1 := rfl
  constructor
  · rintro ⟨h'', hsame, hkept', hfinds, -⟩
    obtain rfl := Option.some.inj (hheader'.symm.trans hsame)
    have hchain : (Function.update h.hashTable bucket (⟨key, value⟩ :: h.hashTable bucket)) bucket =
        ⟨key, value⟩ :: h.hashTable bucket := Function.update_self ..
    have hengine : rule.bucket hash h.hashSize key = some bucket :=
      hkept'.filed hlt ⟨key, value⟩ (by
        show _ ∈ Function.update h.hashTable bucket (⟨key, value⟩ :: h.hashTable bucket) bucket
        rw [hchain]
        exact List.mem_cons_self)
    have hnodup := hkept'.nodup hlt
    simp only [hchain, List.map_cons, List.nodup_cons] at hnodup
    have hnew : ∀ node ∈ h.hashTable bucket, node.key ≠ key := by
      intro node hnode hkey
      exact hnodup.1 (hkey ▸ List.mem_map_of_mem hnode)
    refine ⟨hengine, ?_, hnew, ?_⟩
    -- a full chain loses its last node: that one is not found any more
    · by_contra hfull
      obtain ⟨node, hnode, hlost⟩ := mem_guarded_lost (Nat.not_lt.mp hfull) hnodup.2
      have hne := hnew node (List.mem_of_mem_take hnode)
      have hold : Finds ref map node.key node.value :=
        (finds_iff hheader).mpr ⟨bucket, hlt, hnode⟩
      have hfound := (hfinds node.key node.value).mpr (by rwa [if_neg hne])
      obtain ⟨b, hb, hmem⟩ := (finds_iff_of_kept hheader' hkept').mp hfound
      obtain rfl : b = bucket := Option.some.inj (hb.symm.trans
        (hkept.filed hlt node (List.mem_of_mem_take hnode)))
      change _ ∈ guarded (Function.update h.hashTable b (⟨key, value⟩ :: h.hashTable b) b) at hmem
      rw [hchain] at hmem
      exact hlost ⟨key, value⟩ (Ne.symm hne) hmem
    · have hcounted := hkept'.counted
      have hlength := h.length_nodes_put (⟨key, value⟩ :: h.hashTable bucket) hlt
      have hbefore := hkept.counted
      have hbound := h.itemCount.toNat_lt
      change (h.itemCount + 1).toNat =
        (h.put bucket (⟨key, value⟩ :: h.hashTable bucket)).nodes.length at hcounted
      -- the count is one of 32 bits, and comes round where there is no room for one more
      rw [UInt32.toNat_add, hone] at hcounted
      rw [List.length_cons] at hlength
      omega
  · intro hfiles
    have hkept' : LegacyHeader.Kept hash rule { h.put bucket (⟨key, value⟩ :: h.hashTable bucket)
        with itemCount := h.itemCount + 1 } := by
      apply hkept.put hlt
      · intro node hnode
        rcases List.mem_cons.mp hnode with rfl | hnode
        · exact hfiles.engine
        · exact hkept.filed hlt node hnode
      · rw [List.map_cons, List.nodup_cons]
        refine ⟨fun hmem => ?_, hkept.nodup hlt⟩
        obtain ⟨node, hnode, hkey⟩ := List.mem_map.mp hmem
        exact hfiles.new node hnode hkey
      · have hcount := hfiles.count
        rw [UInt32.toNat_add, hone, List.length_cons]
        omega
    refine ⟨_, hheader', hkept', ?_, ?_⟩
    · exact finds_put hheader hheader' hkept hkept' hfiles.engine
        (mem_guarded_cons hfiles.room hfiles.new)
    · apply hkept'.find_eq hfiles.engine hlt
      simp [LegacyHeader.put]

/-! ## The rule that is inferred -/

theorem agreeing_fst {hashSize : UInt32} : ∀ {nodes : List (ℕ × Node V)} {byIndex : Bool},
    (∀ entry ∈ nodes, Rule.stringTable.bucket hash hashSize entry.2.key = some entry.1) →
      (agreeing hash hashSize (true, byIndex) nodes).1 = true
  | [], _, _ => rfl
  | (bucket, node) :: rest, byIndex, hall => by
    have hfirst := hall (bucket, node) List.mem_cons_self
    simp only [agreeing, hfirst, decide_true, Bool.and_true, Bool.true_or, if_true]
    exact agreeing_fst fun entry hentry => hall entry (List.mem_cons_of_mem _ hentry)

/-- Nodes that all agree with the index are all gone through. -/
theorem agreeing_index {hashSize : UInt32} : ∀ {nodes : List (ℕ × Node V)} {byHash : Bool},
    (∀ entry ∈ nodes, Rule.index.bucket hash hashSize entry.2.key = some entry.1) →
      agreeing hash hashSize (byHash, true) nodes = (byHash && nodes.all fun entry =>
        Rule.stringTable.bucket hash hashSize entry.2.key = some entry.1, true)
  | [], byHash, _ => by rw [agreeing, List.all_nil, Bool.and_true]
  | (bucket, node) :: rest, byHash, hall => by
    have hfirst := hall (bucket, node) List.mem_cons_self
    simp only [agreeing, hfirst, decide_true, Bool.and_true, Bool.or_true, if_true]
    rw [agreeing_index fun entry hentry => hall entry (List.mem_cons_of_mem _ hentry),
      List.all_cons, Bool.and_assoc]

theorem bucket_of_eachNode (hheader : legacyHeader ref map = some h) (hkept : h.Kept hash rule) :
    ∀ entry ∈ eachNode ref map, rule.bucket hash h.hashSize entry.2.key = some entry.1 := by
  intro entry hentry
  simp only [eachNode, hheader, List.mem_flatMap, List.mem_range, List.mem_map] at hentry
  obtain ⟨b, hb, node, hnode, rfl⟩ := hentry
  exact hkept.filed hb node (List.mem_of_mem_take hnode)

/-- A map whose nodes agree with the string table's hash is taken for one of it. -/
theorem legacyHashRule_of_agrees (hheader : legacyHeader ref map = some h)
    (hagrees : AgreesWithHash hash ref map h) :
    legacyHashRule hash ref map = some .stringTable := by
  unfold legacyHashRule
  simp only [hheader, agreeing_fst hagrees, if_true]
  split <;> rfl

/-- Any other map that is kept by the index is taken for one of the index. -/
theorem legacyHashRule_of_index (hheader : legacyHeader ref map = some h)
    (hkept : h.Kept hash .index) (hdisagrees : ¬ AgreesWithHash hash ref map h) :
    legacyHashRule hash ref map = some .index := by
  have hsome : (eachNode ref map).isEmpty = false := by
    rw [List.isEmpty_eq_false_iff]
    intro hempty
    apply hdisagrees
    rw [AgreesWithHash, hempty]
    exact fun entry hentry => absurd hentry List.not_mem_nil
  have hall : ((eachNode ref map).all fun entry =>
      Rule.stringTable.bucket hash h.hashSize entry.2.key = some entry.1) = false := by
    rw [Bool.eq_false_iff]
    intro hall
    exact hdisagrees fun entry hentry => of_decide_eq_true (List.all_eq_true.mp hall entry hentry)
  unfold legacyHashRule
  simp only [hheader, agreeing_index (bucket_of_eachNode hheader hkept), hsome, hall,
    Bool.true_and, Bool.false_eq_true, if_false, if_true]

/-! ## The insertion -/

/-- The rule that is inferred: the string table's where the nodes allow it. -/
theorem exists_legacyHashRule (hheader : legacyHeader ref map = some h)
    (hkept : h.Kept hash rule) :
    ∃ inferred, legacyHashRule hash ref map = some inferred ∧
      ((rule = .stringTable ∨ AgreesWithHash hash ref map h) ∧ inferred = .stringTable ∨
        rule = .index ∧ ¬ AgreesWithHash hash ref map h ∧ inferred = .index) := by
  by_cases hagrees : AgreesWithHash hash ref map h
  · exact ⟨_, legacyHashRule_of_agrees hheader hagrees, .inl ⟨.inr hagrees, rfl⟩⟩
  · cases rule with
    | stringTable => exact absurd (bucket_of_eachNode hheader hkept) hagrees
    | index => exact ⟨_, legacyHashRule_of_index hheader hkept hagrees, .inr ⟨rfl, hagrees, rfl⟩⟩

/-- The bucket that a new node goes to is the engine's just where the two rules agree on it. -/
theorem files_iff (hheader : legacyHeader ref map = some h)
    (hunseen : ∀ v, ¬ Finds ref map key v)
    (hinferred : (rule = .stringTable ∨ AgreesWithHash hash ref map h) ∧ inferred = .stringTable ∨
      rule = .index ∧ ¬ AgreesWithHash hash ref map h ∧ inferred = .index)
    (hbucket : inferred.bucket hash h.hashSize key = some bucket) :
    Files hash rule key h bucket ↔ TakesNode hash rule ref map key h := by
  constructor
  · intro hfiles
    refine ⟨fun hagrees => ?_, fun {b} hb => ?_, hfiles.count⟩
    · rcases hinferred with ⟨-, rfl⟩ | ⟨-, hdisagrees, -⟩
      · rw [hfiles.engine, hbucket]
      · exact absurd hagrees hdisagrees
    · obtain rfl : bucket = b := Option.some.inj (hfiles.engine.symm.trans hb)
      exact hfiles.room
  · intro htakes
    have hengine : rule.bucket hash h.hashSize key = some bucket := by
      rcases hinferred with ⟨rfl | hagrees, rfl⟩ | ⟨rfl, -, rfl⟩
      · exact hbucket
      · rw [htakes.alike hagrees, hbucket]
      · exact hbucket
    have hroom := htakes.room hengine
    refine ⟨hengine, hroom, ?_, htakes.count⟩
    rintro ⟨k, v⟩ hnode rfl
    -- the whole chain is gone through, so the key would have been seen
    apply hunseen v
    rw [finds_iff hheader]
    refine ⟨bucket, Rule.bucket_lt (legacyHeader_pos hheader) hengine, ?_⟩
    rwa [guarded, List.take_of_length_le hroom.le]

/-- An insertion keeps a legacy map for the engine's rule exactly where the map takes the node that
it adds, if it adds one. -/
theorem legacyInsert_keeps_iff (hkept : ∀ h, legacyHeader ref map = some h → h.Kept hash rule) :
    KeepsLegacy hash rule ref map key value (legacyInsert hash ref given map key value) ↔
      ∀ h, AddsNode hash rule ref given map key h → TakesNode hash rule ref map key h := by
  unfold legacyInsert
  cases hheader : legacyHeader ref map with
  | none =>
    apply iff_of_true rfl
    intro h hadds
    exact absurd (hheader.symm.trans hadds.header) (Option.some_ne_none h).symm
  | some h =>
    have hkept := hkept h hheader
    have hsame {h' : LegacyHeader V} (hadds : AddsNode hash rule ref given map key h') : h' = h :=
      Option.some.inj (hadds.header.symm.trans hheader)
    cases hreplaced : replaceIn h.hashSize h.hashTable key value with
    | some table =>
      simp only [hreplaced]
      -- the key has a node, so nothing is added and both sides hold
      apply iff_of_true (keepsLegacy_of_replaced hheader hkept hreplaced)
      intro h' hadds
      obtain ⟨b, hb, before, node, after, hchain, hkey, hlt, -⟩ := replaceIn_eq_some hreplaced
      exfalso
      apply hadds.unseen node.value
      rw [finds_iff hheader]
      refine ⟨b, hb, ?_⟩
      rw [hchain, guarded, List.mem_take_iff_getElem]
      refine ⟨before.length, ?_, ?_⟩
      · rw [List.length_append, List.length_cons]
        omega
      · rw [List.getElem_append_right le_rfl]
        simp [← hkey]
    | none =>
      have hunseen : ∀ v, ¬ Finds ref map key v := by
        intro v hfound
        obtain ⟨b, hb, hnode⟩ := (finds_iff hheader).mp hfound
        exact replaceIn_eq_none hreplaced b hb _ hnode rfl
      obtain ⟨inferred, hrule, hinferred⟩ := exists_legacyHashRule hheader hkept
      cases hbucket : inferred.bucket hash h.hashSize key with
      | none =>
        simp only [hreplaced, hrule, hbucket]
        apply iff_of_true rfl
        intro h' hadds
        obtain rfl := hsame hadds
        rcases hinferred with ⟨hstring, rfl⟩ | ⟨-, -, rfl⟩
        · have hhashed := hadds.hashed hstring
          rw [Option.map_eq_none_iff.mp hbucket] at hhashed
          exact absurd hhashed Bool.false_ne_true
        · exact absurd hbucket (Option.some_ne_none _)
      | some bucket =>
        cases given with
        | false =>
          simp only [hreplaced, hrule, hbucket, Bool.not_false, if_true]
          apply iff_of_true rfl
          intro h' hadds
          exact absurd hadds.given Bool.false_ne_true
        | true =>
          -- here a node is added, and whether that keeps the map depends on the bucket
          have hadds : AddsNode hash rule ref true map key h := by
            refine ⟨hheader, hunseen, fun hstring => ?_, rfl⟩
            rcases hinferred with ⟨-, rfl⟩ | ⟨rfl, hdisagrees, -⟩
            · obtain ⟨k, hk, -⟩ := Option.map_eq_some_iff.mp hbucket
              rw [hk]
              rfl
            · exact absurd hstring (by simp [hdisagrees])
          have hlt := Rule.bucket_lt (legacyHeader_pos hheader) hbucket
          simp only [hreplaced, hrule, hbucket, Bool.not_true, Bool.false_eq_true, if_false]
          refine (keepsLegacy_added_iff hheader hkept hlt).trans ?_
          rw [files_iff hheader hunseen hinferred hbucket]
          constructor
          · intro htakes h' hadds'
            rwa [hsame hadds']
          · exact fun hall => hall h hadds

/-! ## Two small maps -/

/-- The key 40 has the hash 5. -/
def eighth (key : UInt32) : Option UInt32 := some (key / 8)

/-- The keys 40 and 41 where they are filed by themselves, of 31 buckets, in the other layout. -/
def pairLegacy : LegacyMap ℕ where
  word0 := 2
  word4 := 31
  word8 := some fun b => if b = 9 then [⟨40, 1⟩] else if b = 10 then [⟨41, 2⟩] else []
  word16 := 0

theorem pairLegacy_header : legacyHeader true pairLegacy =
    some ⟨31, fun b => if b = 9 then [⟨40, 1⟩] else if b = 10 then [⟨41, 2⟩] else [], 2⟩ := rfl

theorem pairLegacy_kept : ∀ h, legacyHeader true pairLegacy = some h → h.Kept eighth .index := by
  intro h hheader
  obtain rfl := Option.some.inj (pairLegacy_header.symm.trans hheader)
  refine ⟨fun {b} hb => ?_, by decide, by decide⟩
  revert b
  show ∀ b < 31, ∀ node ∈ if b = 9 then [(⟨40, 1⟩ : Node ℕ)] else if b = 10 then [⟨41, 2⟩] else [],
    Rule.index.bucket eighth 31 node.key = some b
  decide

/-- A key of a bucket with a node is added before it, and a node's value replaced. -/
theorem legacyInsert_pairLegacy :
    KeepsLegacy eighth .index true pairLegacy 71 7
        (legacyInsert eighth true true pairLegacy 71 7) ∧
      KeepsLegacy eighth .index true pairLegacy 41 8
        (legacyInsert eighth true true pairLegacy 41 8) := by
  have hagrees (h : LegacyHeader ℕ) (hheader : legacyHeader true pairLegacy = some h) :
      ¬ AgreesWithHash eighth true pairLegacy h := by
    obtain rfl := Option.some.inj (pairLegacy_header.symm.trans hheader)
    unfold AgreesWithHash
    decide
  constructor
  · apply (legacyInsert_keeps_iff pairLegacy_kept).mpr
    intro h hadds
    refine ⟨fun hall => absurd hall (hagrees h hadds.header), fun {bucket} hbucket => ?_, ?_⟩
    · obtain rfl := Option.some.inj (pairLegacy_header.symm.trans hadds.header)
      obtain rfl : 9 = bucket := Option.some.inj hbucket
      decide
    · obtain rfl := Option.some.inj (pairLegacy_header.symm.trans hadds.header)
      decide
  · apply (legacyInsert_keeps_iff pairLegacy_kept).mpr
    intro h hadds
    refine absurd ?_ (hadds.unseen 2)
    exact ⟨10, by decide⟩

/-- 31 buckets and no node. -/
def emptyLegacy : LegacyMap ℕ where
  word0 := 31
  word4 := 0
  word8 := some fun _ => []
  word16 := 0

theorem emptyLegacy_kept (rule : Rule) : ∀ h, legacyHeader false emptyLegacy = some h →
    h.Kept eighth rule := by
  intro h hheader
  obtain rfl : ⟨31, fun _ => [], 0⟩ = h := Option.some.inj hheader
  have hempty : LegacyHeader.nodes (⟨31, fun _ => [], 0⟩ : LegacyHeader ℕ) = [] := by decide
  refine ⟨fun _ node hnode => absurd hnode List.not_mem_nil, ?_, ?_⟩
  · rw [hempty]
    exact List.nodup_nil
  · rw [hempty]
    rfl

/-- The first node of a map that hashes its keys to themselves is filed by the string table's hash:
the engine looks for the key 40 in the bucket 9, and it is in the bucket 5. -/
theorem emptyLegacy_misfiled :
    (∀ h, legacyHeader false emptyLegacy = some h → h.Kept eighth .index) ∧
      ¬ KeepsLegacy eighth .index false emptyLegacy 40 7
        (legacyInsert eighth false true emptyLegacy 40 7) := by
  refine ⟨emptyLegacy_kept .index, ?_⟩
  have hnone : (legacyHeader false (legacyInsert eighth false true emptyLegacy 40 7).2).bind
      (·.find eighth .index 40) = none := by
    decide +kernel
  have hok : (legacyInsert eighth false true emptyLegacy 40 7).1 = .ok () := by
    decide +kernel
  generalize legacyInsert eighth false true emptyLegacy 40 7 = result at hnone hok
  obtain ⟨outcome, map⟩ := result
  obtain rfl : outcome = .ok () := hok
  rintro ⟨h', hheader, -, -, hfind⟩
  rw [hheader, Option.bind_some, hfind] at hnone
  exact absurd hnone (Option.some_ne_none 7)

end StatsSets
end Bg3le
