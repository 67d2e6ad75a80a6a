import Bg3le.Library.Linked
import Bg3le.Library.Tally
import Bg3le.Stats.PassiveSync

/-!
# A rebuilt passive keeps its node

Nodes are taken out of the map and put back by their links. Around the loader's call that leaves
every other key with the node that the loader left it.
-/

namespace Bg3le
namespace StatSync

variable {V : Type} {m : Passives V} {chains : ℕ → List ℕ} {key : UInt32} {node : ℕ}

/-! ## What is in a map -/

/-- The links of the nodes. -/
def Passives.nexts (m : Passives V) : ℕ → ℕ := fun node => (m.node node).next

/-- The node is in a chain of the map. -/
def In (m : Passives V) (node : ℕ) : Prop :=
  ∃ b < m.hashSize.toNat, ∃ nodes, Linked 0 m.nexts (m.get (.bucket b)) nodes ∧ node ∈ nodes

/-- The key has the node. -/
def Has (m : Passives V) (key : UInt32) (node : ℕ) : Prop := In m node ∧ (m.node node).key = key

/-- The chains of the map, in which each node is filed by its key, no two nodes have one key, and
the count is the number of nodes. -/
structure Kept (m : Passives V) (chains : ℕ → List ℕ) : Prop where
  table : m.hashSize ≠ 0 → m.hashTable.isSome
  linked : ∀ b < m.hashSize.toNat, Linked 0 m.nexts (m.get (.bucket b)) (chains b)
  filed : ∀ b < m.hashSize.toNat, ∀ node ∈ chains b, ((m.node node).key % m.hashSize).toNat = b
  distinct : ∀ node node', In m node → In m node' → (m.node node).key = (m.node node').key →
    node = node'
  counted : m.itemCount = .ofNat (∑ b ∈ Finset.range m.hashSize.toNat, (chains b).length)

def Inv (m : Passives V) : Prop := ∃ chains, Kept m chains

/-- The maps have the same nodes in memory, but for the links. -/
structure Same (m m' : Passives V) : Prop where
  hashSize : m'.hashSize = m.hashSize
  key : ∀ node, (m'.node node).key = (m.node node).key
  value : ∀ node, (m'.node node).value = (m.node node).value

/-- So many rounds are enough for a loop over any chain. -/
def Enough (m : Passives V) (rounds : ℕ) : Prop :=
  ∀ b < m.hashSize.toNat, ∀ nodes, Linked 0 m.nexts (m.get (.bucket b)) nodes → nodes.length < rounds

/-- What is in a map is in one of its chains. -/
theorem Kept.in_iff (h : Kept m chains) : In m node ↔ ∃ b < m.hashSize.toNat, node ∈ chains b := by
  constructor
  · rintro ⟨b, hb, nodes, hlinked, hnode⟩
    rw [hlinked.unique (h.linked b hb)] at hnode
    exact ⟨b, hb, hnode⟩
  · rintro ⟨b, hb, hnode⟩
    exact ⟨b, hb, chains b, h.linked b hb, hnode⟩

/-- There are enough rounds for the loops over all chains of a map. -/
theorem Inv.enough (h : Inv m) : ∃ n, ∀ rounds ≥ n, Enough m rounds := by
  obtain ⟨chains, h⟩ := h
  refine ⟨∑ b ∈ Finset.range m.hashSize.toNat, (chains b).length + 1, ?_⟩
  intro rounds hrounds b hb nodes hlinked
  rw [hlinked.unique (h.linked b hb)]
  have hle := Finset.single_le_sum (f := fun b => (chains b).length) (fun _ _ => Nat.zero_le _)
    (Finset.mem_range.mpr hb)
  omega

/-- The chain that the key is filed in. -/
def bucketOf (m : Passives V) (key : UInt32) : ℕ := (key % m.hashSize).toNat

theorem bucketOf_lt (hsize : m.hashSize ≠ 0) (key : UInt32) : bucketOf m key < m.hashSize.toNat := by
  unfold bucketOf
  rw [UInt32.toNat_mod]
  apply Nat.mod_lt
  apply Nat.pos_of_ne_zero
  intro hzero
  exact hsize (UInt32.toNat_inj.mp hzero)

theorem hashSize_ne_zero {b : ℕ} (hb : b < m.hashSize.toNat) : m.hashSize ≠ 0 := by
  intro hzero
  rw [hzero] at hb
  exact absurd hb (Nat.not_lt_zero b)

/-- The link that `passiveBucket` finds is the one of the key's bucket. -/
theorem Kept.passiveBucket_eq (h : Kept m chains) (hsize : m.hashSize ≠ 0) (key : UInt32) :
    passiveBucket m key = some (.bucket (bucketOf m key)) := by
  have htable := h.table hsize
  rw [Option.isSome_iff_ne_none, ne_eq, ← Option.isNone_iff_eq_none] at htable
  exact if_neg (not_or.mpr ⟨hsize, htable⟩)

/-- A node is in the chain of its key only. -/
theorem Kept.mem_bucketOf (h : Kept m chains) (hnode : In m node) :
    node ∈ chains (bucketOf m (m.node node).key) := by
  obtain ⟨b, hb, hmem⟩ := h.in_iff.mp hnode
  have hfiled := h.filed b hb node hmem
  unfold bucketOf
  rwa [hfiled]

/-- A node stands in the bucket of its own key. -/
theorem Kept.eq_bucketOf (h : Kept m chains) {b : ℕ} (hb : b < m.hashSize.toNat)
    (hnode : node ∈ chains b) : b = bucketOf m (m.node node).key := (h.filed b hb node hnode).symm

/-- A chain is replaced by another of nodes that are filed in it. -/
theorem Kept.replace (h : Kept m chains) {m' : Passives V} (hsame : Same m m')
    (htable : m.hashTable.isSome → m'.hashTable.isSome) {b : ℕ} (hb : b < m.hashSize.toNat)
    {chain : List ℕ}
    (hlinked : ∀ c < m.hashSize.toNat,
      Linked 0 m'.nexts (m'.get (.bucket c)) (Function.update chains b chain c))
    (hfiled : ∀ node ∈ chain, bucketOf m (m.node node).key = b)
    (hdistinct : ∀ one ∈ chain, ∀ other ∈ chain, (m.node one).key = (m.node other).key → one = other)
    (hcount : m'.itemCount + .ofNat (chains b).length = m.itemCount + .ofNat chain.length) :
    Kept m' (Function.update chains b chain) := by
  have hfiled' (c : ℕ) (hc : c < m.hashSize.toNat) (node : ℕ)
      (hnode : node ∈ Function.update chains b chain c) : bucketOf m (m.node node).key = c := by
    rw [Function.update_apply] at hnode
    split_ifs at hnode with heq
    · rw [heq]
      exact hfiled node hnode
    · exact (h.eq_bucketOf hc hnode).symm
  have hlinked' : ∀ c < m'.hashSize.toNat,
      Linked 0 m'.nexts (m'.get (.bucket c)) (Function.update chains b chain c) := by
    rw [hsame.hashSize]
    exact hlinked
  refine ⟨?_, hlinked', ?_, ?_, ?_⟩
  · intro hsize
    rw [hsame.hashSize] at hsize
    exact htable (h.table hsize)
  · intro c hc node hnode
    rw [hsame.hashSize] at hc ⊢
    rw [hsame.key]
    exact hfiled' c hc node hnode
  · rintro one other ⟨c, hc, nodes, hnodes, hone⟩ ⟨d, hd, nodes', hnodes', hother⟩ hkey
    rw [hnodes.unique (hlinked' c hc)] at hone
    rw [hnodes'.unique (hlinked' d hd)] at hother
    rw [hsame.hashSize] at hc hd
    rw [hsame.key, hsame.key] at hkey
    -- equal keys are filed in one bucket, so both nodes are of one chain
    have hsameChain : c = d := by
      rw [← hfiled' c hc one hone, ← hfiled' d hd other hother, hkey]
    subst hsameChain
    rw [Function.update_apply] at hone hother
    split_ifs at hone hother with heq
    · exact hdistinct one hone other hother hkey
    · exact h.distinct one other (h.in_iff.mpr ⟨c, hc, hone⟩) (h.in_iff.mpr ⟨c, hc, hother⟩) hkey
  -- the sum of the lengths changes by what this chain changed
  · have hsum := sum_exchange (fun c => (chains c).length) (Finset.mem_range.mpr hb) chain.length
    have hlengths : (fun c => (Function.update chains b chain c).length) =
        Function.update (fun c => (chains c).length) b chain.length :=
      funext fun c => Function.apply_update (fun _ nodes => List.length nodes) chains b _ c
    have hcast := congrArg UInt32.ofNat hsum
    rw [UInt32.ofNat_add, UInt32.ofNat_add, ← h.counted, ← hcount] at hcast
    rw [hsame.hashSize, hlengths]
    exact ((UInt32.add_left_inj _).mp hcast).symm

/-! ## Looking a key up -/

/-- The search of a chain finds the first node of the key, or null. -/
theorem nodeFrom_eq {head rounds : ℕ} {nodes : List ℕ} (hlinked : Linked 0 m.nexts head nodes)
    (hrounds : nodes.length < rounds) :
    nodeFrom m key rounds head = some ((nodes.find? fun node => (m.node node).key = key).getD 0) := by
  induction hlinked generalizing rounds with
  | nil =>
    obtain ⟨rounds, rfl⟩ := Nat.exists_eq_succ_of_ne_zero (Nat.ne_of_gt hrounds)
    exact if_neg fun hgo => hgo.1 rfl
  | @cons node nodes hnode hrest ih =>
    obtain ⟨rounds, rfl⟩ := Nat.exists_eq_succ_of_ne_zero (Nat.ne_of_gt (Nat.zero_lt_of_lt hrounds))
    rw [List.length_cons] at hrounds
    unfold nodeFrom
    by_cases hkey : (m.node node).key = key
    · rw [if_neg fun hgo => hgo.2 hkey, List.find?_cons, decide_eq_true hkey]
      rfl
    · rw [if_pos ⟨hnode, hkey⟩, List.find?_cons, decide_eq_false hkey]
      exact ih (Nat.lt_of_succ_lt_succ hrounds)

/-- `passive_node` gives the node of the key, or null. -/
theorem passiveNode_spec (h : Inv m) (key : UInt32) :
    (∃ node, node ≠ 0 ∧ Has m key node ∧ ∀ rounds, Enough m rounds →
        passiveNode rounds m key = some node) ∨
      (∀ node, ¬ Has m key node) ∧ ∀ rounds, Enough m rounds → 0 < rounds →
        passiveNode rounds m key = some 0 := by
  obtain ⟨chains, h⟩ := h
  -- without buckets there is no node; with them the one chain of the key's bucket is walked
  by_cases hsize : m.hashSize = 0
  · right
    constructor
    · rintro node ⟨⟨b, hb, -⟩, -⟩
      exact hashSize_ne_zero hb hsize
    · intro rounds _ hpos
      have hnone : passiveBucket m key = none := if_pos (.inl hsize)
      obtain ⟨rounds, rfl⟩ := Nat.exists_eq_succ_of_ne_zero (Nat.ne_of_gt hpos)
      unfold passiveNode
      rw [hnone]
      exact if_neg fun hgo => hgo.1 rfl
  · have hlt := bucketOf_lt hsize key
    have hlinked := h.linked _ hlt
    have heq (rounds : ℕ) (hrounds : Enough m rounds) : passiveNode rounds m key =
        some (((chains (bucketOf m key)).find? fun node => (m.node node).key = key).getD 0) := by
      unfold passiveNode
      rw [h.passiveBucket_eq hsize]
      exact nodeFrom_eq hlinked (hrounds _ hlt _ hlinked)
    cases hfind : (chains (bucketOf m key)).find? fun node => (m.node node).key = key with
    | none =>
      right
      constructor
      · rintro node ⟨hin, rfl⟩
        have hnot := List.find?_eq_none.mp hfind node (h.mem_bucketOf hin)
        exact hnot (decide_eq_true rfl)
      · intro rounds hrounds _
        rw [heq rounds hrounds, hfind]
        rfl
    | some node =>
      left
      have hmem := List.mem_of_find?_eq_some hfind
      have hkey : (m.node node).key = key := by simpa using List.find?_some hfind
      refine ⟨node, hlinked.ne_null hmem, ⟨h.in_iff.mpr ⟨_, hlt, hmem⟩, hkey⟩, ?_⟩
      intro rounds hrounds
      rw [heq rounds hrounds, hfind]
      rfl

/-! ## Taking a node out -/

/-- The link that leads to what comes after these nodes. -/
def lastLink (link : Link) : List ℕ → Link
  | [] => link
  | node :: before => lastLink (.next node) before

theorem lastLink_append (link : Link) (before : List ℕ) (prev : ℕ) :
    lastLink link (before ++ [prev]) = .next prev := by
  induction before generalizing link with
  | nil => rfl
  | cons first before ih => exact ih (.next first)

/-- A node is unlinked by the link before it, which is then to what came after it. -/
theorem unlinkFrom_eq {link : Link} {before after : List ℕ} {rounds : ℕ}
    (hlinked : Linked 0 m.nexts (m.get link) (before ++ node :: after)) (hnot : node ∉ before)
    (hrounds : before.length < rounds) :
    unlinkFrom node rounds link m =
      some (true, { m.set (m.node node).next (lastLink link before) with
        itemCount := m.itemCount - 1 }) := by
  induction before generalizing link rounds with
  | nil =>
    obtain ⟨rounds, rfl⟩ := Nat.exists_eq_succ_of_ne_zero (Nat.ne_of_gt hrounds)
    obtain ⟨hhead, hnull⟩ := hlinked.head_eq
    unfold unlinkFrom
    rw [← hhead, if_neg hnull, if_pos rfl]
    cases link <;> rfl
  | cons first before ih =>
    obtain ⟨rounds, rfl⟩ := Nat.exists_eq_succ_of_ne_zero (Nat.ne_of_gt (Nat.zero_lt_of_lt hrounds))
    obtain ⟨hhead, hnull⟩ := hlinked.head_eq
    have hne : first ≠ node := fun heq => hnot (heq ▸ List.mem_cons_self)
    rw [List.length_cons] at hrounds
    unfold unlinkFrom
    rw [← hhead, if_neg hnull, if_neg hne]
    exact ih hlinked.tail (fun hmem => hnot (List.mem_cons_of_mem first hmem))
      (Nat.lt_of_succ_lt_succ hrounds)

/-- A written link is the only one that changes. -/
@[simp] theorem nexts_setNext (m : Passives V) (node target : ℕ) :
    (m.setNext node target).nexts = Function.update m.nexts node target := by
  funext other
  unfold Passives.nexts Passives.setNext
  dsimp only
  by_cases heq : other = node
  · rw [heq, Function.update_self, Function.update_self]
  · rw [Function.update_of_ne heq, Function.update_of_ne heq]

theorem same_setNext (m : Passives V) (node target : ℕ) : Same m (m.setNext node target) := by
  refine ⟨rfl, fun other => ?_, fun other => ?_⟩
  · unfold Passives.setNext
    dsimp only
    by_cases heq : other = node
    · rw [heq, Function.update_self]
    · rw [Function.update_of_ne heq]
  · unfold Passives.setNext
    dsimp only
    by_cases heq : other = node
    · rw [heq, Function.update_self]
    · rw [Function.update_of_ne heq]

/-- A written link leaves the keys and the values alone. -/
theorem same_set (m : Passives V) (target : ℕ) (link : Link) : Same m (m.set target link) := by
  cases link with
  | bucket b => exact ⟨rfl, fun _ => rfl, fun _ => rfl⟩
  | next node => exact same_setNext m node target

/-- The head of another bucket is not written. -/
theorem get_set_bucket (htable : m.hashTable.isSome) (target b c : ℕ) :
    (m.set target (.bucket b)).get (.bucket c) = if c = b then target else m.get (.bucket c) := by
  obtain ⟨table, htable⟩ := Option.isSome_iff_exists.mp htable
  unfold Passives.set Passives.get
  dsimp only
  rw [htable]
  exact Function.update_apply table b target c

/-- The chains after a node was taken out of the chain of a bucket. -/
theorem Kept.linked_unlink (h : Kept m chains) {b : ℕ} (hb : b < m.hashSize.toNat)
    {before after : List ℕ} (hchain : chains b = before ++ node :: after) {c : ℕ}
    (hc : c < m.hashSize.toNat) :
    Linked 0 (m.set (m.node node).next (lastLink (.bucket b) before)).nexts
      ((m.set (m.node node).next (lastLink (.bucket b) before)).get (.bucket c))
      (Function.update chains b (before ++ after) c) := by
  have hlinked := h.linked b hb
  rw [hchain] at hlinked
  rcases List.eq_nil_or_concat' before with rfl | ⟨front, prev, rfl⟩
  · show Linked 0 m.nexts ((m.set (m.node node).next (.bucket b)).get (.bucket c)) _
    rw [get_set_bucket (h.table (hashSize_ne_zero hb)), Function.update_apply]
    split_ifs
    · exact hlinked.tail
    · exact h.linked c hc
  · rw [lastLink_append]
    show Linked 0 (m.setNext prev (m.node node).next).nexts (m.get (.bucket c)) _
    rw [nexts_setNext, Function.update_apply]
    rw [List.append_assoc, List.singleton_append] at hlinked
    split_ifs with heq
    · rw [heq, List.append_assoc, List.singleton_append]
      exact hlinked.unlink
    · apply (h.linked c hc).update
      intro hprev
      have hmem : prev ∈ chains b := by
        rw [hchain, List.append_assoc]
        exact List.mem_append_right front List.mem_cons_self
      exact heq ((h.eq_bucketOf hc hprev).trans (h.eq_bucketOf hb hmem).symm)

/-- No two nodes of a chain have one key. -/
theorem Kept.eq_of_key (h : Kept m chains) {b : ℕ} (hb : b < m.hashSize.toNat) {one other : ℕ}
    (hone : one ∈ chains b) (hother : other ∈ chains b)
    (hkey : (m.node one).key = (m.node other).key) : one = other :=
  h.distinct one other (h.in_iff.mpr ⟨b, hb, hone⟩) (h.in_iff.mpr ⟨b, hb, hother⟩) hkey

theorem isSome_set (m : Passives V) (target : ℕ) (link : Link) (h : m.hashTable.isSome) :
    (m.set target link).hashTable.isSome := by
  cases link with
  | bucket b => rwa [Passives.set, Option.isSome_map]
  | next node => exact h

/-- `passive_unlink` takes the node out. -/
theorem passiveUnlink_spec (h : Inv m) (hnode : In m node) :
    ∃ m', (∀ rounds, Enough m rounds → passiveUnlink rounds m node = some (true, m')) ∧ Inv m' ∧
      Same m m' ∧ ∀ other, In m' other ↔ In m other ∧ other ≠ node := by
  obtain ⟨chains, h⟩ := h
  have hsize : m.hashSize ≠ 0 := by
    obtain ⟨b, hb, -⟩ := hnode
    exact hashSize_ne_zero hb
  have hb := bucketOf_lt hsize (m.node node).key
  have hmem := h.mem_bucketOf hnode
  generalize hbucket : bucketOf m (m.node node).key = b at hb hmem
  obtain ⟨before, after, hchain⟩ := List.append_of_mem hmem
  have hlinked := h.linked b hb
  have hnodup := hlinked.nodup
  rw [hchain] at hlinked hnodup
  -- a chain has a node once, so that what is left is the others
  have hmem' (other : ℕ) : other ∈ before ++ after ↔ other ∈ chains b ∧ other ≠ node := by
    rw [hchain, List.mem_append, List.mem_append, List.mem_cons]
    have hnot : node ∉ before ++ after := (List.nodup_middle.mp hnodup).notMem
    rw [List.mem_append] at hnot
    constructor
    · intro hin
      exact ⟨hin.imp_right .inr, fun heq => hnot (heq ▸ hin)⟩
    · rintro ⟨hin | heq | hin, hne⟩
      · exact .inl hin
      · exact absurd heq hne
      · exact .inr hin
  have hsame : Same m { m.set (m.node node).next (lastLink (.bucket b) before) with
      itemCount := m.itemCount - 1 } := by
    have hset := same_set m (m.node node).next (lastLink (.bucket b) before)
    exact ⟨hset.hashSize, hset.key, hset.value⟩
  have hkept := h.replace hsame (isSome_set m _ _) hb (fun c hc => h.linked_unlink hb hchain hc)
    (fun other hother => (h.eq_bucketOf hb ((hmem' other).mp hother).1).symm)
    (fun one hone other hother =>
      h.eq_of_key hb ((hmem' one).mp hone).1 ((hmem' other).mp hother).1) (by
      have hlength : (chains b).length = (before ++ after).length + 1 := by
        rw [hchain, List.length_append, List.length_append, List.length_cons]
        rfl
      rw [hlength, UInt32.ofNat_add]
      show m.itemCount - 1 + _ = _
      rw [UInt32.add_comm (UInt32.ofNat _), ← UInt32.add_assoc]
      exact congrArg (· + _) (UInt32.sub_add_cancel _ _))
  refine ⟨_, ?_, ⟨_, hkept⟩, hsame, ?_⟩
  · intro rounds hrounds
    have hlt := hrounds b hb _ hlinked
    rw [List.length_append] at hlt
    unfold passiveUnlink
    rw [h.passiveBucket_eq hsize, hbucket]
    apply unlinkFrom_eq hlinked
    · intro hin
      exact ((hmem' node).mp (List.mem_append_left after hin)).2 rfl
    · omega
  · intro other
    rw [hkept.in_iff, h.in_iff, hsame.hashSize]
    constructor
    · rintro ⟨c, hc, hother⟩
      rw [Function.update_apply] at hother
      split_ifs at hother with heq
      · obtain ⟨hin, hne⟩ := (hmem' other).mp hother
        exact ⟨⟨b, hb, hin⟩, hne⟩
      · refine ⟨⟨c, hc, hother⟩, fun hsameNode => heq ?_⟩
        -- the node is only in the chain of its own bucket
        rw [h.eq_bucketOf hc hother, hsameNode, hbucket]
    · rintro ⟨⟨c, hc, hother⟩, hne⟩
      refine ⟨c, hc, ?_⟩
      rw [Function.update_apply]
      split_ifs with heq
      · exact (hmem' other).mpr ⟨heq ▸ hother, hne⟩
      · exact hother

/-! ## Putting a node back -/

/-- The node goes to the front of its chain. -/
theorem relink_spec (h : Inv m) (hsize : m.hashSize ≠ 0) (hnull : node ≠ 0)
    (hnew : ∀ other, ¬ Has m (m.node node).key other) :
    ∃ m', relink m (m.node node).key node = some m' ∧ Inv m' ∧ Same m m' ∧
      ∀ other, In m' other ↔ In m other ∨ other = node := by
  obtain ⟨chains, h⟩ := h
  have hb := bucketOf_lt hsize (m.node node).key
  generalize hbucket : bucketOf m (m.node node).key = b at hb
  have hnot (c : ℕ) (hc : c < m.hashSize.toNat) : node ∉ chains c := fun hin =>
    hnew node ⟨h.in_iff.mpr ⟨c, hc, hin⟩, rfl⟩
  have hlast := same_setNext m node (m.get (.bucket b))
  have hsame : Same m { (m.setNext node (m.get (.bucket b))).set node (.bucket b) with
      itemCount := m.itemCount + 1 } := ⟨hlast.hashSize, hlast.key, hlast.value⟩
  -- the node becomes the head of its chain, and the other chains do not see it
  have hlinked (c : ℕ) (hc : c < m.hashSize.toNat) :
      Linked 0 ((m.setNext node (m.get (.bucket b))).set node (.bucket b)).nexts
        (((m.setNext node (m.get (.bucket b))).set node (.bucket b)).get (.bucket c))
        (Function.update chains b (node :: chains b) c) := by
    show Linked 0 (m.setNext node (m.get (.bucket b))).nexts _ _
    have htable : (m.setNext node (m.get (.bucket b))).hashTable.isSome := h.table hsize
    rw [get_set_bucket htable, nexts_setNext, Function.update_apply]
    split_ifs with heq
    · exact (h.linked b hb).push hnull (hnot b hb)
    · exact (h.linked c hc).update (hnot c hc) _
  have hkept := h.replace hsame (isSome_set (m.setNext node _) _ _) hb hlinked (by
      intro other hother
      rcases List.mem_cons.mp hother with rfl | hother
      · exact hbucket
      · exact (h.eq_bucketOf hb hother).symm) (by
      -- two nodes of one key: the new one's key was not in the map
      intro one hone other hother hkey
      have hfresh (other : ℕ) (hother : other ∈ chains b) : (m.node other).key ≠ (m.node node).key :=
        fun hsameKey => hnew other ⟨h.in_iff.mpr ⟨b, hb, hother⟩, hsameKey⟩
      rcases List.mem_cons.mp hone with rfl | hone'
      · rcases List.mem_cons.mp hother with rfl | hother'
        · rfl
        · exact absurd hkey.symm (hfresh other hother')
      · rcases List.mem_cons.mp hother with rfl | hother'
        · exact absurd hkey (hfresh one hone')
        · exact h.eq_of_key hb hone' hother' hkey) (by
      show m.itemCount + 1 + _ = _
      rw [List.length_cons, UInt32.ofNat_add, UInt32.add_comm (UInt32.ofNat _), ← UInt32.add_assoc]
      rfl)
  refine ⟨_, ?_, ⟨_, hkept⟩, hsame, ?_⟩
  · unfold relink
    rw [h.passiveBucket_eq hsize, hbucket]
    rfl
  · intro other
    rw [hkept.in_iff, h.in_iff, hsame.hashSize]
    constructor
    · rintro ⟨c, hc, hother⟩
      rw [Function.update_apply] at hother
      split_ifs at hother
      · rcases List.mem_cons.mp hother with heq | hother
        · exact .inr heq
        · exact .inl ⟨b, hb, hother⟩
      · exact .inl ⟨c, hc, hother⟩
    · rintro (⟨c, hc, hother⟩ | rfl)
      · refine ⟨c, hc, ?_⟩
        rw [Function.update_apply]
        split_ifs with heq
        · exact List.mem_cons_of_mem node (heq ▸ hother)
        · exact hother
      · refine ⟨b, hb, ?_⟩
        rw [Function.update_self]
        exact List.mem_cons_self

/-! ## Copying a value -/

theorem nexts_copyValue (m : Passives V) (target node : ℕ) : (m.copyValue target node).nexts = m.nexts := by
  funext other
  unfold Passives.nexts Passives.copyValue
  dsimp only
  by_cases heq : other = target
  · rw [heq, Function.update_self]
  · rw [Function.update_of_ne heq]

theorem key_copyValue (m : Passives V) (target node other : ℕ) :
    ((m.copyValue target node).node other).key = (m.node other).key := by
  unfold Passives.copyValue
  dsimp only
  by_cases heq : other = target
  · rw [heq, Function.update_self]
  · rw [Function.update_of_ne heq]

theorem value_copyValue_self (m : Passives V) (target node : ℕ) :
    ((m.copyValue target node).node target).value = (m.node node).value := by
  unfold Passives.copyValue
  dsimp only
  rw [Function.update_self]

theorem value_copyValue_of_ne (m : Passives V) {target other : ℕ} (hne : other ≠ target) (node : ℕ) :
    ((m.copyValue target node).node other).value = (m.node other).value := by
  unfold Passives.copyValue
  dsimp only
  rw [Function.update_of_ne hne]

/-- A copied value leaves the chains alone. -/
theorem in_copyValue_iff (m : Passives V) (target node other : ℕ) :
    In (m.copyValue target node) other ↔ In m other := by
  unfold In
  rw [nexts_copyValue]
  exact Iff.rfl

/-- The invariant does not look at the values. -/
theorem Inv.copyValue (h : Inv m) (target node : ℕ) : Inv (m.copyValue target node) := by
  obtain ⟨chains, h⟩ := h
  refine ⟨chains, h.table, ?_, ?_, ?_, h.counted⟩
  · rw [nexts_copyValue]
    exact h.linked
  · intro b hb other hother
    rw [key_copyValue]
    exact h.filed b hb other hother
  · intro one other hone hother hkey
    rw [key_copyValue, key_copyValue] at hkey
    exact h.distinct one other ((in_copyValue_iff m target node one).mp hone)
      ((in_copyValue_iff m target node other).mp hother) hkey

/-- A key has one node at most. -/
theorem Inv.has_unique (h : Inv m) {one other : ℕ} (hone : Has m key one) (hother : Has m key other) :
    one = other := by
  obtain ⟨chains, h⟩ := h
  exact h.distinct one other hone.1 hother.1 (hone.2.trans hother.2.symm)

theorem In.hashSize_ne_zero (h : In m node) : m.hashSize ≠ 0 := by
  obtain ⟨b, hb, -⟩ := h
  exact StatSync.hashSize_ne_zero hb

theorem In.ne_zero (h : In m node) : node ≠ 0 := by
  obtain ⟨b, -, nodes, hlinked, hnode⟩ := h
  exact hlinked.ne_null hnode

/-! ## The loader -/

/-- What the loader does to any map that it is called on. It keeps the map's invariant and every
node that it finds, and its table only grows. A node of the map before that is not in the map now
is memory in use, which the loader neither writes nor takes for a fresh node. -/
structure Loads (before : Passives V) (loader : Passives V → Passives V) : Prop where
  inv {m : Passives V} (h : Inv m) : Inv (loader m)
  grows (m : Passives V) : m.hashSize ≤ (loader m).hashSize
  finds {m : Passives V} (h : Inv m) {key : UInt32} {node : ℕ} (hhas : Has m key node) :
    Has (loader m) key node
  apart {m : Passives V} (h : Inv m) {node : ℕ} (hbefore : In before node) (hnot : ¬ In m node) :
    ¬ In (loader m) node ∧ (loader m).node node = m.node node

/-- The map without the key's node. -/
structure Without (m : Passives V) (key : UInt32) (m₀ : Passives V) : Prop where
  inv : Inv m₀
  same : Same m m₀
  has_iff : ∀ k node, Has m₀ k node ↔ Has m k node ∧ k ≠ key

/-- What a rebuilding leaves, where the loader left `loaded`: every other key has the node that the
loader left it. The key's node is where it was, with what the fresh one held if there is one; or
it is the loader's own. -/
structure Synced (before : Passives V) (key : UInt32) (loaded : Passives V) (said : Except Refusal ℕ)
    (after : Passives V) : Prop where
  inv : Inv after
  others : ∀ k ≠ key, ∀ node, Has after k node ↔ Has loaded k node
  values : ∀ k ≠ key, ∀ node, Has loaded k node →
    (after.node node).value = (loaded.node node).value
  kept : ∀ k ≠ key, ∀ node, Has before k node → Has after k node
  rebuilt : ∀ old fresh, Has before key old → Has loaded key fresh →
    said = .ok 0 ∧ Has after key old ∧ (after.node old).value = (loaded.node fresh).value
  restored : ∀ old, Has before key old → (∀ fresh, ¬ Has loaded key fresh) →
    said = .error .notRebuilt ∧ Has after key old ∧ (after.node old).value = (before.node old).value
  added : (∀ old, ¬ Has before key old) → after = loaded ∧
    ((∃ fresh, Has loaded key fresh ∧ said = .ok fresh) ∨
      (∀ fresh, ¬ Has loaded key fresh) ∧ said = .error .notRebuilt)

/-- What comes after the loader, for a node that was taken out. -/
structure Relinked (loaded : Passives V) (key : UInt32) (old : ℕ) (said : Except Refusal ℕ)
    (after : Passives V) : Prop where
  inv : Inv after
  back : Has after key old
  others : ∀ k ≠ key, ∀ node, Has after k node ↔ Has loaded k node
  values : ∀ node ≠ old, (after.node node).value = (loaded.node node).value
  fresh : (∃ fresh, Has loaded key fresh ∧ said = .ok 0 ∧
      (after.node old).value = (loaded.node fresh).value) ∨
    (∀ fresh, ¬ Has loaded key fresh) ∧ said = .error .notRebuilt ∧
      (after.node old).value = (loaded.node old).value

/-- Where the key had a node that is out of the chains, that node comes back in place of the fresh
one or beside the others. -/
theorem afterLoader_relinks (h : Inv m) (hsize : m.hashSize ≠ 0) {old : ℕ} (hnull : old ≠ 0)
    (hnot : ¬ In m old) (hkey : (m.node old).key = key) :
    ∃ said m', (∀ rounds, Enough m rounds → 0 < rounds →
      afterLoader rounds m key old = some (said, m')) ∧ Relinked m key old said m' := by
  rcases passiveNode_spec h key with ⟨fresh, hfresh, hhas, hnode⟩ | ⟨hnone, hnode⟩
  · -- the fresh node goes out, and the old one in with what it held
    have hne : fresh ≠ old := fun heq => hnot (heq ▸ hhas.1)
    obtain ⟨m₁, hunlink, hinv₁, hsame₁, hin₁⟩ := passiveUnlink_spec h hhas.1
    have hkey₁ (node : ℕ) : ((m₁.copyValue old fresh).node node).key = (m.node node).key :=
      (key_copyValue m₁ old fresh node).trans (hsame₁.key node)
    have hin₂ (node : ℕ) : In (m₁.copyValue old fresh) node ↔ In m node ∧ node ≠ fresh :=
      (in_copyValue_iff m₁ old fresh node).trans (hin₁ node)
    have hrelink := relink_spec (hinv₁.copyValue old fresh) (by
      show m₁.hashSize ≠ 0
      rwa [hsame₁.hashSize]) hnull (by
      rintro other ⟨hother, hsame⟩
      rw [hkey₁, hkey₁, hkey] at hsame
      obtain ⟨hin, hneFresh⟩ := (hin₂ other).mp hother
      exact hneFresh (h.has_unique ⟨hin, hsame⟩ hhas))
    rw [hkey₁, hkey] at hrelink
    obtain ⟨m', hm', hinv', hsame', hin'⟩ := hrelink
    have hkey' (node : ℕ) : (m'.node node).key = (m.node node).key :=
      (hsame'.key node).trans (hkey₁ node)
    refine ⟨.ok 0, m', ?_, hinv', ⟨(hin' old).mpr (.inr rfl), (hkey' old).trans hkey⟩, ?_, ?_, ?_⟩
    · intro rounds hrounds _
      unfold afterLoader
      rw [hnode rounds hrounds, Option.bind_eq_bind, Option.bind_some, if_neg hfresh, if_neg hnull,
        hunlink rounds hrounds, Option.bind_eq_bind, Option.bind_some]
      dsimp only
      rw [hm']
      rfl
    · intro k hk node
      unfold Has
      rw [hin', hin₂, hkey']
      constructor
      · rintro ⟨⟨hin, -⟩ | heq, hsame⟩
        · exact ⟨hin, hsame⟩
        · exact absurd (hsame.symm.trans (heq ▸ hkey)) hk
      · rintro ⟨hin, hsame⟩
        refine ⟨.inl ⟨hin, fun heq => hk ?_⟩, hsame⟩
        rw [← hsame, heq, hhas.2]
    · intro node hnode
      rw [hsame'.value, value_copyValue_of_ne m₁ hnode, hsame₁.value]
    · refine .inl ⟨fresh, hhas, rfl, ?_⟩
      rw [hsame'.value, value_copyValue_self, hsame₁.value]
  · have hrelink := relink_spec h hsize hnull (by
      rw [hkey]
      exact hnone)
    rw [hkey] at hrelink
    obtain ⟨m', hm', hinv', hsame', hin'⟩ := hrelink
    refine ⟨.error .notRebuilt, m', ?_, hinv',
      ⟨(hin' old).mpr (.inr rfl), (hsame'.key old).trans hkey⟩, ?_, ?_, ?_⟩
    · intro rounds hrounds hpos
      unfold afterLoader
      rw [hnode rounds hrounds hpos, Option.bind_eq_bind, Option.bind_some, if_pos rfl, if_neg hnull,
        hm']
      rfl
    · intro k hk node
      unfold Has
      rw [hin', hsame'.key]
      constructor
      · rintro ⟨hin | heq, hsame⟩
        · exact ⟨hin, hsame⟩
        · exact absurd (hsame.symm.trans (heq ▸ hkey)) hk
      · rintro ⟨hin, hsame⟩
        exact ⟨.inl hin, hsame⟩
    · intro node _
      exact hsame'.value node
    · exact .inr ⟨hnone, rfl, hsame'.value old⟩

/-- Where the key had no node, the loader's one stays. -/
theorem afterLoader_of_new {rounds fresh : ℕ} (hfresh : passiveNode rounds m key = some fresh) :
    afterLoader rounds m key 0 = some (if fresh = 0 then .error .notRebuilt else .ok fresh, m) := by
  unfold afterLoader
  rw [hfresh, Option.bind_eq_bind, Option.bind_some]
  by_cases hzero : fresh = 0
  · rw [if_pos hzero, if_pos rfl, if_pos hzero]
    rfl
  · rw [if_neg hzero, if_pos rfl, if_neg hzero]
    rfl

/-- The loader is told that nothing was loaded yet. -/
theorem Inv.uninitialized (h : Inv m) : Inv { m with initialized := false } := by
  obtain ⟨chains, h⟩ := h
  exact ⟨chains, h.table, h.linked, h.filed, h.distinct, h.counted⟩

/-- Whatever the loader does, the loops of a rebuilding end, and what is left is as it should be. -/
theorem syncPassive_keeps_nodes (m : Passives V) (loader : Passives V → Passives V) (key : UInt32)
    (hinv : Inv m) (hloads : Loads m loader) :
    ∃ m₀, Without m key m₀ ∧ ∃ n, ∀ rounds ≥ n, ∃ said m',
      syncPassive (some loader) rounds (some m) key = some (said, some m') ∧
        Synced m key (loader { m₀ with initialized := false }) said m' := by
  obtain ⟨n, hn⟩ := hinv.enough
  rcases passiveNode_spec hinv key with ⟨old, hnull, hhas, hnode⟩ | ⟨hnone, hnode⟩
  -- the passive has a node: it is taken out, the loader makes another, and the old one goes back
  · obtain ⟨m₀, hunlink, hinv₀, hsame₀, hin₀⟩ := passiveUnlink_spec hinv hhas.1
    have hwithout : Without m key m₀ := by
      refine ⟨hinv₀, hsame₀, fun k node => ?_⟩
      unfold Has
      rw [hin₀, hsame₀.key]
      constructor
      · rintro ⟨⟨hin, hne⟩, hkey⟩
        refine ⟨⟨hin, hkey⟩, fun heq => hne ?_⟩
        exact hinv.has_unique ⟨hin, hkey.trans heq⟩ hhas
      · rintro ⟨⟨hin, hkey⟩, hne⟩
        refine ⟨⟨hin, fun heq => hne ?_⟩, hkey⟩
        rw [← hkey, heq, hhas.2]
    have hcalled := hinv₀.uninitialized
    -- the loader does not reach a node that is in no chain
    have hout : ¬ In { m₀ with initialized := false } old := fun hin => ((hin₀ old).mp hin).2 rfl
    obtain ⟨hapart, hmemory⟩ := hloads.apart hcalled hhas.1 hout
    have hloaded := hloads.inv hcalled
    have hsize : (loader { m₀ with initialized := false }).hashSize ≠ 0 := by
      have hgrows := hloads.grows { m₀ with initialized := false }
      have hbefore : m₀.hashSize ≠ 0 := hsame₀.hashSize ▸ hhas.1.hashSize_ne_zero
      intro hzero
      rw [hzero] at hgrows
      exact hbefore (UInt32.le_zero_iff.mp hgrows)
    have hkey : ((loader { m₀ with initialized := false }).node old).key = key := by
      rw [hmemory]
      exact (hsame₀.key old).trans hhas.2
    have hvalue : ((loader { m₀ with initialized := false }).node old).value = (m.node old).value := by
      rw [hmemory]
      exact hsame₀.value old
    obtain ⟨said, m', hafter, hrelinked⟩ := afterLoader_relinks hloaded hsize hnull hapart hkey
    obtain ⟨n', hn'⟩ := hloaded.enough
    refine ⟨m₀, hwithout, max (n + 1) n', fun rounds hrounds => ⟨said, m', ?_, ?_⟩⟩
    · have hn := hn rounds (by omega)
      unfold syncPassive
      dsimp only
      rw [hnode rounds hn, Option.bind_eq_bind, Option.bind_some, if_neg hnull, hunlink rounds hn,
        Option.bind_eq_bind, Option.bind_some]
      dsimp only
      rw [if_pos rfl]
      unfold callLoader
      rw [hafter rounds (hn' rounds (by omega)) (by omega)]
      rfl
    · refine ⟨hrelinked.inv, hrelinked.others, ?_, ?_, ?_, ?_, ?_⟩
      · intro k _ node hnode
        exact hrelinked.values node fun heq => hapart (heq ▸ hnode.1)
      · intro k hk node hnode
        rw [hrelinked.others k hk node]
        exact hloads.finds hcalled ((hwithout.has_iff k node).mpr ⟨hnode, hk⟩)
      · intro old' fresh hold' hfresh
        obtain rfl := hinv.has_unique hhas hold'
        rcases hrelinked.fresh with ⟨fresh', hfresh', hsaid, hvalue'⟩ | ⟨hnot, -⟩
        · rw [hloaded.has_unique hfresh hfresh']
          exact ⟨hsaid, hrelinked.back, hvalue'⟩
        · exact absurd hfresh (hnot fresh)
      · intro old' hold' hnot
        obtain rfl := hinv.has_unique hhas hold'
        rcases hrelinked.fresh with ⟨fresh', hfresh', -⟩ | ⟨-, hsaid, hvalue'⟩
        · exact absurd hfresh' (hnot fresh')
        · exact ⟨hsaid, hrelinked.back, hvalue'.trans hvalue⟩
      · intro hnot
        exact absurd hhas (hnot old)
  -- the passive has no node: the loader's result stays as it is
  · have hwithout : Without m key m := by
      refine ⟨hinv, ⟨rfl, fun _ => rfl, fun _ => rfl⟩, fun k node => ?_⟩
      refine ⟨fun hhas => ⟨hhas, fun heq => hnone node (heq ▸ hhas)⟩, And.left⟩
    have hcalled := hinv.uninitialized
    have hloaded := hloads.inv hcalled
    obtain ⟨n', hn'⟩ := hloaded.enough
    have hsync (fresh : ℕ) (said : Except Refusal ℕ) (rounds : ℕ) (hrounds : rounds ≥ max (n + 1) n')
        (hfresh : passiveNode rounds (loader { m with initialized := false }) key = some fresh)
        (hsaid : said = if fresh = 0 then .error .notRebuilt else .ok fresh) :
        syncPassive (some loader) rounds (some m) key =
          some (said, some (loader { m with initialized := false })) := by
      unfold syncPassive
      dsimp only
      rw [hnode rounds (hn rounds (by omega)) (by omega), Option.bind_eq_bind, Option.bind_some,
        if_pos rfl]
      unfold callLoader
      rw [afterLoader_of_new hfresh, hsaid]
      rfl
    have hkept (k : UInt32) (node : ℕ) (hhas : Has m k node) :
        Has (loader { m with initialized := false }) k node := hloads.finds hcalled hhas
    refine ⟨m, hwithout, max (n + 1) n', fun rounds hrounds => ?_⟩
    rcases passiveNode_spec hloaded key with ⟨fresh, hne, hfresh, hfound⟩ | ⟨hmissing, hfound⟩
    · refine ⟨.ok fresh, _, hsync fresh _ rounds hrounds (hfound rounds (hn' rounds (by omega)))
        (if_neg hne).symm, hloaded, fun _ _ _ => Iff.rfl, fun _ _ _ _ => rfl,
        fun k _ node => hkept k node, fun old _ hold => absurd hold (hnone old),
        fun old hold => absurd hold (hnone old), fun _ => ⟨rfl, .inl ⟨fresh, hfresh, rfl⟩⟩⟩
    · refine ⟨.error .notRebuilt, _, hsync 0 _ rounds hrounds
        (hfound rounds (hn' rounds (by omega)) (by omega)) rfl, hloaded, fun _ _ _ => Iff.rfl,
        fun _ _ _ _ => rfl, fun k _ node => hkept k node, fun old _ hold => absurd hold (hnone old),
        fun old hold => absurd hold (hnone old), fun _ => ⟨rfl, .inr ⟨hmissing, rfl⟩⟩⟩

/-! ## A map of two passives -/

/-- A map of one bucket: a node of this address, key and value, and behind it one of key 8. -/
def twoPassives (node : ℕ) (key : UInt32) (value : ℕ) (memory : ℕ → PassiveNode ℕ) :
    Passives ℕ where
  itemCount := 2
  hashSize := 1
  hashTable := some fun _ => node
  initialized := true
  node := Function.update (Function.update memory 3 ⟨0, 8, 70⟩) node ⟨3, key, value⟩

section

variable {node : ℕ} {key : UInt32} {value : ℕ} {memory : ℕ → PassiveNode ℕ}

theorem node_twoPassives : (twoPassives node key value memory).node node = ⟨3, key, value⟩ :=
  Function.update_self _ _ _

theorem last_twoPassives (hlast : node ≠ 3) :
    (twoPassives node key value memory).node 3 = ⟨0, 8, 70⟩ :=
  (Function.update_of_ne hlast.symm _ _).trans (Function.update_self _ _ _)

theorem other_twoPassives {other : ℕ} (hnode : other ≠ node) (hlast : other ≠ 3) :
    (twoPassives node key value memory).node other = memory other := by
  show Function.update (Function.update memory 3 _) node _ other = memory other
  rw [Function.update_of_ne hnode, Function.update_of_ne hlast]

/-- The one chain of the map. -/
theorem linked_twoPassives (hnode : node ≠ 0) (hlast : node ≠ 3) (b : ℕ) :
    Linked 0 (twoPassives node key value memory).nexts
      ((twoPassives node key value memory).get (.bucket b)) [node, 3] := by
  show Linked 0 (twoPassives node key value memory).nexts node [node, 3]
  have hnext : (twoPassives node key value memory).nexts node = 3 :=
    congrArg PassiveNode.next node_twoPassives
  have hend : (twoPassives node key value memory).nexts 3 = 0 :=
    congrArg PassiveNode.next (last_twoPassives hlast)
  refine .cons hnode ?_
  rw [hnext]
  refine .cons (by decide) ?_
  rw [hend]
  exact .nil

/-- The two nodes are all that is in the map. -/
theorem in_twoPassives (hnode : node ≠ 0) (hlast : node ≠ 3) {other : ℕ} :
    In (twoPassives node key value memory) other ↔ other = node ∨ other = 3 := by
  constructor
  · rintro ⟨b, -, nodes, hlinked, hother⟩
    rw [hlinked.unique (linked_twoPassives hnode hlast b)] at hother
    simpa using hother
  · intro hother
    exact ⟨0, Nat.one_pos, [node, 3], linked_twoPassives hnode hlast 0, by simpa using hother⟩

/-- The map has the invariant where the keys are two. -/
theorem inv_twoPassives (hnode : node ≠ 0) (hlast : node ≠ 3) (hkey : key ≠ 8) :
    Inv (twoPassives node key value memory) := by
  refine ⟨fun _ => [node, 3], fun _ => rfl, fun b _ => linked_twoPassives hnode hlast b, ?_, ?_, rfl⟩
  · intro b hb other _
    have hzero : b = 0 := Nat.lt_one_iff.mp hb
    show (_ % (1 : UInt32)).toNat = b
    rw [UInt32.toNat_mod, hzero]
    exact Nat.mod_one _
  · intro one other hone hother heq
    rcases (in_twoPassives hnode hlast).mp hone with rfl | rfl <;>
      rcases (in_twoPassives hnode hlast).mp hother with rfl | rfl
    · rfl
    · rw [node_twoPassives, last_twoPassives hlast] at heq
      exact absurd heq hkey
    · rw [node_twoPassives, last_twoPassives hlast] at heq
      exact absurd heq.symm hkey
    · rfl

end

/-- A loader that puts the passive of key 5 at the address 2, in a map that has just the node at 3,
of key 8. -/
def reload (m : Passives ℕ) : Passives ℕ :=
  if m.hashSize = 1 ∧ m.get (.bucket 0) = 3 ∧ m.nexts 3 = 0 ∧ (m.node 3).key = 8 then
    twoPassives 2 5 9 m.node
  else m

/-- The loader keeps what it finds and leaves the node that is out alone. -/
theorem reload_loads (memory : ℕ → PassiveNode ℕ) : Loads (twoPassives 1 5 7 memory) reload := by
  -- where it makes another map, the one before had the node at 3
  have hchain {m : Passives ℕ} (hfirst : m.get (.bucket 0) = 3) (hend : m.nexts 3 = 0) :
      Linked 0 m.nexts (m.get (.bucket 0)) [3] := by
    rw [hfirst]
    refine .cons (by decide) ?_
    rw [hend]
    exact .nil
  constructor
  · intro m h
    unfold reload
    split
    · exact inv_twoPassives (by decide) (by decide) (by decide)
    · exact h
  · intro m
    unfold reload
    split
    · next hlone =>
      rw [hlone.1]
      exact UInt32.le_refl 1
    · exact UInt32.le_refl _
  · intro m h key node hhas
    unfold reload
    split
    · next hlone =>
      obtain ⟨hsize, hfirst, hend, hkey⟩ := hlone
      obtain ⟨⟨b, hb, nodes, hlinked, hnode⟩, rfl⟩ := hhas
      rw [hsize] at hb
      have hzero : b = 0 := Nat.lt_one_iff.mp hb
      rw [hzero] at hlinked
      rw [hlinked.unique (hchain hfirst hend)] at hnode
      rw [List.mem_singleton.mp hnode, hkey]
      refine ⟨(in_twoPassives (by decide) (by decide)).mpr (Or.inr rfl), ?_⟩
      rw [last_twoPassives (by decide)]
    · exact hhas
  · intro m _ node hbefore hnot
    unfold reload
    split
    · next hlone =>
      obtain ⟨hsize, hfirst, hend, -⟩ := hlone
      have hone : node = 1 := by
        refine ((in_twoPassives (by decide) (by decide)).mp hbefore).resolve_right ?_
        rintro rfl
        refine hnot ⟨0, ?_, [3], hchain hfirst hend, List.mem_singleton_self 3⟩
        rw [hsize]
        exact Nat.one_pos
      rw [hone, in_twoPassives (by decide) (by decide)]
      exact ⟨by decide, other_twoPassives (by decide) (by decide)⟩
    · exact ⟨hnot, rfl⟩

/-- The passive of key 5 is rebuilt, and the one in the same chain stays. -/
theorem syncPassive_keeps_nodes_two :
    ∃ m₀, Without (twoPassives 1 5 7 fun _ => ⟨0, 0, 0⟩) 5 m₀ ∧ ∃ n, ∀ rounds ≥ n, ∃ said m',
      syncPassive (some reload) rounds (some (twoPassives 1 5 7 fun _ => ⟨0, 0, 0⟩)) 5 =
          some (said, some m') ∧
        Synced (twoPassives 1 5 7 fun _ => ⟨0, 0, 0⟩) 5 (reload { m₀ with initialized := false })
          said m' :=
  syncPassive_keeps_nodes _ reload 5 (inv_twoPassives (by decide) (by decide) (by decide))
    (reload_loads _)

end StatSync
end Bg3le
