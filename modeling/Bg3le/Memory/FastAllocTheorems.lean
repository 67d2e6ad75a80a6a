import Mathlib.Tactic.Ring
import Bg3le.Memory.FastAlloc

/-!
# The heap invariant of the pool

Every address has at most one owner: a live block, a block of a free list, the arena of a thread,
or the block a hook has in hand. The hooks are made of moves of one block from an owner to the
next.
-/

namespace Bg3le
namespace FastAlloc

open Ownership

/-! ### Size classes -/

/-- A class holds blocks of sixteen bytes doubled by its number. -/
theorem bytesOf_eq (cls : ℕ) : bytesOf cls = 16 * 2 ^ cls := by
  unfold bytesOf kSmallest
  rw [Nat.shiftLeft_eq]

theorem bytesOf_le (cls : ℕ) : 16 ≤ bytesOf cls := by
  rw [bytesOf_eq]
  have := Nat.one_le_two_pow (n := cls)
  omega

/-- A class keeps blocks aligned to sixteen bytes. -/
theorem dvd_bytesOf (cls : ℕ) : 16 ∣ bytesOf cls := by
  rw [bytesOf_eq]
  exact Nat.dvd_mul_right 16 _

/-- The loop ends in a class with its capacity, and with one that is too small only at the last
class. -/
theorem classLoop_spec (need left cls : ℕ) :
    (classLoop need left (bytesOf cls) cls).1 =
      bytesOf (classLoop need left (bytesOf cls) cls).2 ∧
    (classLoop need left (bytesOf cls) cls).2 ≤ cls + left := by
  induction left generalizing cls with
  | zero => exact ⟨rfl, le_rfl⟩
  | succ left ih =>
    unfold classLoop
    split
    · have hdouble : bytesOf cls <<< 1 = bytesOf (cls + 1) := by
        rw [bytesOf_eq, bytesOf_eq, Nat.shiftLeft_eq]
        ring
      obtain ⟨hcap, hle⟩ := ih (cls + 1)
      rw [hdouble]
      exact ⟨hcap, by omega⟩
    · exact ⟨rfl, by omega⟩

/-- A class of the pool holds the size and the header. -/
theorem size_le_bytesOf {size : ℕ} (hsize : size ≤ 2 ^ 64 - 17) (h : classOf size < kClasses) :
    size + kHeaderSize ≤ bytesOf (classOf size) := by
  have hneed : (size + kHeaderSize) % 2 ^ 64 = size + kHeaderSize := by
    apply Nat.mod_eq_of_lt
    unfold kHeaderSize
    omega
  have hspec := classLoop_spec (size + kHeaderSize) (kClasses - 1) 0
  have hfirst : bytesOf 0 = kSmallest := rfl
  rw [hfirst] at hspec
  unfold classOf at h ⊢
  simp only [hneed] at h ⊢
  by_cases hfits : size + kHeaderSize ≤
      (classLoop (size + kHeaderSize) (kClasses - 1) kSmallest 0).1
  · rw [if_pos hfits]
    exact hfits.trans_eq hspec.1
  · rw [if_neg hfits] at h
    exact absurd h (lt_irrefl _)

/-! ### The invariant -/

/-- Who an address belongs to. -/
inductive Place where
  | live (block : Block)
  | free (thread cls node : ℕ)
  | arena (thread : ℕ)
  /-- The block a hook is working on. -/
  | hand
deriving DecidableEq

variable {owner : ℕ → Option Place} {s : State} {hand : Option (ℕ × ℕ)}
  {thread cls size block : ℕ}

/-- A free list: linked through the memory, without repetition, each block with all its bytes. -/
structure IsList (owner : ℕ → Option Place) (s : State) (thread cls : ℕ) (nodes : List ℕ) :
    Prop where
  linked : Linked s.word ((s.pools thread).freeList cls) nodes
  nodup : nodes.Nodup
  owned : ∀ f ∈ nodes, Owned owner (.free thread cls f) f (bytesOf cls)
  block : ∀ f ∈ nodes, cls < kClasses ∧ 16 ∣ f ∧ (f, bytesOf cls) ∈ s.carved

/-- The rest of a thread's arena. -/
structure IsArena (owner : ℕ → Option Place) (thread : ℕ) (pool : ThreadPool) : Prop where
  owned : Owned owner (.arena thread) pool.arena pool.arenaLeft
  aligned : 16 ∣ pool.arena
  ne_zero : pool.arenaLeft ≠ 0 → pool.arena ≠ 0

/-- A live block of the pool, with its header. -/
structure Served (s : State) (b : Block) : Prop where
  ptr_eq : b.ptr = b.start + kHeaderSize
  ne_zero : b.start ≠ 0
  aligned : 16 ∣ b.start
  fits : b.size + kHeaderSize ≤ bytesOf (classOf b.size)
  cls_lt : classOf b.size < kClasses
  magic : s.word b.start = kMagic
  cls : s.word (b.start + 8) = classOf b.size
  carved : (b.start, b.bytes) ∈ s.carved

/-- The block in hand. -/
structure Held (owner : ℕ → Option Place) (s : State) (block cls : ℕ) : Prop where
  owned : Owned owner .hand block (bytesOf cls)
  ne_zero : block ≠ 0
  aligned : 16 ∣ block
  cls_lt : cls < kClasses
  carved : (block, bytesOf cls) ∈ s.carved

/-- Where a block that was carved is now. -/
inductive Kept (s : State) (hand : Option (ℕ × ℕ)) (c : ℕ × ℕ) : Prop
  | live (b : Block) (hb : b ∈ s.live) (hpool : b.pool = true) (heq : c = (b.start, b.bytes))
  | free (thread cls : ℕ) (nodes : List ℕ)
      (hlinked : Linked s.word ((s.pools thread).freeList cls) nodes) (hmem : c.1 ∈ nodes)
      (heq : c.2 = bytesOf cls)
  | hand (block cls : ℕ) (hhand : hand = some (block, cls)) (heq : c = (block, bytesOf cls))

structure Good (hand : Option (ℕ × ℕ)) (owner : ℕ → Option Place) (s : State) : Prop where
  lists : ∀ thread cls, ∃ nodes, IsList owner s thread cls nodes
  arenas : ∀ thread, IsArena owner thread (s.pools thread)
  live : ∀ b ∈ s.live, b.ptr ≠ 0 ∧ Owned owner (.live b) b.start b.bytes
  served : ∀ b ∈ s.live, b.pool = true → Served s b
  held : ∀ block cls, hand = some (block, cls) → Held owner s block cls
  kept : ∀ c ∈ s.carved, Kept s hand c
  mapped : ∀ x p, owner x = some p → (∃ c ∈ s.chunks, c.1 ≤ x ∧ x < c.1 + c.2) ∨
    ∃ b ∈ s.live, b.pool = false ∧ b.start ≤ x ∧ x < b.start + b.bytes
  distinct : s.live.Nodup

theorem Block.bytes_pos (b : Block) : 0 < b.bytes := by
  unfold Block.bytes
  split
  · have := bytesOf_le (classOf b.size)
    omega
  · omega

/-- Writing to memory of one owner leaves the links of the free lists alone. -/
theorem IsList.word {word : ℕ → ℕ} {nodes : List ℕ} {p : Place}
    (h : IsList owner s thread cls nodes) (hp : ∀ f, p ≠ .free thread cls f)
    (hword : ∀ x, word x ≠ s.word x → owner x = some p) :
    Linked word ((s.pools thread).freeList cls) nodes := by
  apply h.linked.congr
  intro f hf
  by_contra hne
  have hbytes := bytesOf_le cls
  have howned := h.owned f hf f le_rfl (by omega)
  exact hp f (Option.some.inj ((hword f hne).symm.trans howned))

/-- And the headers of the live blocks of other owners. -/
theorem Served.word {word : ℕ → ℕ} {b : Block} {p : Place} (h : Served s b)
    (howned : Owned owner (.live b) b.start b.bytes) (hpool : b.pool = true) (hp : p ≠ .live b)
    (hword : ∀ x, word x ≠ s.word x → owner x = some p) :
    Served { s with word := word } b := by
  have hbytes : 16 ≤ b.bytes := by
    unfold Block.bytes
    rw [if_pos hpool]
    exact bytesOf_le _
  have hsame : ∀ x, b.start ≤ x → x < b.start + b.bytes → word x = s.word x := by
    intro x hx hx'
    by_contra hne
    exact hp (Option.some.inj ((hword x hne).symm.trans (howned x hx hx')))
  exact { h with
    magic := (hsame _ le_rfl (by omega)).trans h.magic
    cls := (hsame _ (by omega) (by omega)).trans h.cls }

@[simp] theorem setPool_self (s : State) (thread : ℕ) (pool : ThreadPool) :
    (s.setPool thread pool).pools thread = pool := Function.update_self _ _ _

/-- One thread's pool leaves the others'. -/
theorem setPool_of_ne (s : State) {thread t : ℕ} (pool : ThreadPool) (h : t ≠ thread) :
    (s.setPool thread pool).pools t = s.pools t := Function.update_of_ne h _ _

theorem setPool_freeList (s : State) {thread : ℕ} {pool : ThreadPool}
    (h : pool.freeList = (s.pools thread).freeList) (t : ℕ) :
    ((s.setPool thread pool).pools t).freeList = (s.pools t).freeList := by
  by_cases ht : t = thread
  · subst ht
    rw [setPool_self, h]
  · rw [setPool_of_ne s _ ht]

/-- A free list gets another head. -/
def State.setHead (s : State) (thread cls head : ℕ) : State :=
  s.setPool thread
    { s.pools thread with freeList := Function.update (s.pools thread).freeList cls head }

theorem setHead_self (s : State) (thread cls head : ℕ) :
    ((s.setHead thread cls head).pools thread).freeList cls = head := by
  unfold State.setHead
  rw [setPool_self]
  exact Function.update_self _ _ _

/-- A new head leaves the other lists. -/
theorem setHead_of_ne (s : State) {thread cls t k : ℕ} (head : ℕ) (h : ¬ (t = thread ∧ k = cls)) :
    ((s.setHead thread cls head).pools t).freeList k = (s.pools t).freeList k := by
  unfold State.setHead
  by_cases ht : t = thread
  · subst ht
    rw [setPool_self]
    exact Function.update_of_ne (fun hk => h ⟨rfl, hk⟩) _ _
  · rw [setPool_of_ne s _ ht]

/-- A new head leaves every arena. -/
theorem IsArena.setHead {t : ℕ} (h : IsArena owner t (s.pools t)) (thread cls head : ℕ) :
    IsArena owner t ((s.setHead thread cls head).pools t) := by
  unfold State.setHead
  by_cases ht : t = thread
  · subst ht
    rw [setPool_self]
    exact ⟨h.owned, h.aligned, h.ne_zero⟩
  · rw [setPool_of_ne s _ ht]
    exact h

/-- An arena stays one while its bytes stay its own. -/
theorem IsArena.owners {owner' : ℕ → Option Place} {t : ℕ} {pool : ThreadPool}
    (h : IsArena owner t pool)
    (howned : Owned owner' (.arena t) pool.arena pool.arenaLeft) : IsArena owner' t pool :=
  ⟨howned, h.aligned, h.ne_zero⟩

/-- Renaming an owner leaves what is owned in the same places. -/
theorem mapped_rename {s : State} (s' : State)
    (h : ∀ x p, owner x = some p → (∃ c ∈ s.chunks, c.1 ≤ x ∧ x < c.1 + c.2) ∨
      ∃ b ∈ s.live, b.pool = false ∧ b.start ≤ x ∧ x < b.start + b.bytes)
    (hchunks : s'.chunks = s.chunks) (hlive : ∀ b ∈ s.live, b.pool = false → b ∈ s'.live)
    (p : Place) (q : Option Place) :
    ∀ x r, rename owner p q x = some r → (∃ c ∈ s'.chunks, c.1 ≤ x ∧ x < c.1 + c.2) ∨
      ∃ b ∈ s'.live, b.pool = false ∧ b.start ≤ x ∧ x < b.start + b.bytes := by
  intro x r hx
  have hbefore : ∃ r', owner x = some r' := by
    unfold rename at hx
    split at hx
    · exact ⟨p, by assumption⟩
    · exact ⟨r, hx⟩
  obtain ⟨r', hr'⟩ := hbefore
  obtain hin | ⟨b, hb, hreal, hx1, hx2⟩ := h x r' hr'
  · exact .inl (hchunks ▸ hin)
  · exact .inr ⟨b, hlive b hb hreal, hreal, hx1, hx2⟩

/-! ### The moves -/

/-- The head of a free list is taken in hand. -/
theorem Good.takeFree {node : ℕ} (h : Good none owner s)
    (hnode : (s.pools thread).freeList cls = node) (hne : node ≠ 0) :
    ∃ owner', Good (some (node, cls)) owner' (s.setHead thread cls (s.word node)) := by
  obtain ⟨nodes, hnodes⟩ := h.lists thread cls
  have hlinked := hnodes.linked
  rw [hnode] at hlinked
  obtain ⟨rest, rfl, hrest⟩ := hlinked.head_ne hne
  have hmem : node ∈ node :: rest := List.mem_cons_self
  have hnotin : node ∉ rest := (List.nodup_cons.mp hnodes.nodup).1
  obtain ⟨hcls, haligned, hcarved⟩ := hnodes.block node hmem
  -- the block leaves its list for the hand, and the rest of the list stays linked
  refine ⟨rename owner (.free thread cls node) (some .hand), ?_⟩
  constructor
  · intro t k
    by_cases hthis : t = thread ∧ k = cls
    · obtain ⟨rfl, rfl⟩ := hthis
      refine ⟨rest, ?_, (List.nodup_cons.mp hnodes.nodup).2, ?_, ?_⟩
      · rw [setHead_self]
        exact hrest
      · intro f hf
        apply (hnodes.owned f (List.mem_cons_of_mem _ hf)).rename_of_ne
        intro heq
        cases heq
        exact hnotin hf
      · exact fun f hf => hnodes.block f (List.mem_cons_of_mem _ hf)
    · obtain ⟨others, hothers⟩ := h.lists t k
      refine ⟨others, ?_, hothers.nodup, ?_, hothers.block⟩
      · rw [setHead_of_ne s _ hthis]
        exact hothers.linked
      · intro f hf
        apply (hothers.owned f hf).rename_of_ne
        intro heq
        cases heq
        exact hthis ⟨rfl, rfl⟩
  · intro t
    have harena := h.arenas t
    exact (harena.owners (harena.owned.rename_of_ne (by simp) _)).setHead _ _ _
  · exact fun b hb => ⟨(h.live b hb).1, (h.live b hb).2.rename_of_ne (by simp) _⟩
  · exact fun b hb hpool => { h.served b hb hpool with }
  · intro block' cls' heq
    cases heq
    exact ⟨(hnodes.owned node hmem).renamed, hne, haligned, hcls, hcarved⟩
  · intro c hc
    cases h.kept c hc with
    | live b hb hpool heq => exact .live b hb hpool heq
    | hand _ _ hsome => exact absurd hsome (by simp)
    | free t k others hothers hin heq =>
      by_cases hthis : t = thread ∧ k = cls
      · obtain ⟨rfl, rfl⟩ := hthis
        obtain rfl := hothers.unique hnodes.linked
        obtain hc' | hin' := List.mem_cons.mp hin
        -- the carved block is the one that was taken
        · exact .hand node k rfl (Prod.ext hc' heq)
        · refine .free t k rest ?_ hin' heq
          rw [setHead_self]
          exact hrest
      · refine .free t k others ?_ hin heq
        rw [setHead_of_ne s _ hthis]
        exact hothers
  · exact mapped_rename _ h.mapped rfl (fun b hb _ => hb) _ _
  · exact h.distinct

/-- The block in hand becomes the head of a free list. -/
theorem Good.link (h : Good (some (block, cls)) owner s) (thread : ℕ) :
    ∃ owner', Good none owner'
      ((s.store block ((s.pools thread).freeList cls)).setHead thread cls block) := by
  have hheld := h.held block cls rfl
  have hbytes := bytesOf_le cls
  -- only words of the block in hand change, and no list has any of them
  have hword : ∀ x, (s.store block ((s.pools thread).freeList cls)).word x ≠ s.word x →
      owner x = some .hand := by
    intro x hx
    by_cases heq : x = block
    · exact hheld.owned x (by omega) (by omega)
    · exact absurd (Function.update_of_ne heq _ _) hx
  obtain ⟨nodes, hnodes⟩ := h.lists thread cls
  have hnotin : block ∉ nodes := by
    intro hin
    have hfree := hnodes.owned block hin block le_rfl (by omega)
    have hhand := hheld.owned block le_rfl (by omega)
    rw [hfree] at hhand
    cases hhand
  have hnew : Linked (s.store block ((s.pools thread).freeList cls)).word block (block :: nodes) := by
    refine ⟨rfl, hheld.ne_zero, ?_⟩
    have hself : (s.store block ((s.pools thread).freeList cls)).word block =
        (s.pools thread).freeList cls := Function.update_self _ _ _
    rw [hself]
    exact hnodes.word (by simp) hword
  -- what was in hand is free in this list; every other byte keeps its owner
  refine ⟨rename owner .hand (some (.free thread cls block)), ?_⟩
  constructor
  · intro t k
    by_cases hthis : t = thread ∧ k = cls
    · obtain ⟨rfl, rfl⟩ := hthis
      refine ⟨block :: nodes, ?_, List.nodup_cons.mpr ⟨hnotin, hnodes.nodup⟩, ?_, ?_⟩
      · rw [setHead_self]
        exact hnew
      · intro f hf
        obtain rfl | hin := List.mem_cons.mp hf
        · exact hheld.owned.renamed
        · exact (hnodes.owned f hin).rename_of_ne (by simp) _
      · intro f hf
        obtain rfl | hin := List.mem_cons.mp hf
        · exact ⟨hheld.cls_lt, hheld.aligned, hheld.carved⟩
        · exact hnodes.block f hin
    · obtain ⟨others, hothers⟩ := h.lists t k
      refine ⟨others, ?_, hothers.nodup, ?_, hothers.block⟩
      · rw [setHead_of_ne _ _ hthis]
        exact hothers.word (by simp) hword
      · exact fun f hf => (hothers.owned f hf).rename_of_ne (by simp) _
  · intro t
    have harena : IsArena (rename owner .hand (some (.free thread cls block))) t
        ((s.store block ((s.pools thread).freeList cls)).pools t) :=
      (h.arenas t).owners ((h.arenas t).owned.rename_of_ne (by simp) _)
    exact harena.setHead _ _ _
  · exact fun b hb => ⟨(h.live b hb).1, (h.live b hb).2.rename_of_ne (by simp) _⟩
  · intro b hb hpool
    exact { (h.served b hb hpool).word (h.live b hb).2 hpool (by simp) hword with }
  · exact fun _ _ hnone => absurd hnone (by simp)
  · intro c hc
    cases h.kept c hc with
    | live b hb hpool heq => exact .live b hb hpool heq
    -- the magic word is that of the block, which is now the head of the list
    | hand block' cls' hsome heq =>
      cases hsome
      refine .free thread cls (block :: nodes) ?_ (by rw [heq]; exact List.mem_cons_self)
        (by rw [heq])
      rw [setHead_self]
      exact hnew
    | free t k others hothers hin heq =>
      obtain ⟨others', hothers'⟩ := h.lists t k
      obtain rfl := hothers.unique hothers'.linked
      by_cases hthis : t = thread ∧ k = cls
      · obtain ⟨rfl, rfl⟩ := hthis
        obtain rfl := hothers.unique hnodes.linked
        refine .free t k (block :: others) ?_ (List.mem_cons_of_mem _ hin) heq
        rw [setHead_self]
        exact hnew
      · refine .free t k others ?_ hin heq
        rw [setHead_of_ne _ _ hthis]
        exact hothers'.word (by simp) hword
  · exact mapped_rename _ h.mapped rfl (fun b hb _ => hb) _ _
  · exact h.distinct

/-- The block in hand is given out, with its header. -/
theorem Good.serve (h : Good (some (block, cls)) owner s) (hcls : classOf size = cls)
    (hsize : size ≤ 2 ^ 64 - 17) : ∃ owner', Good none owner' (serve cls size block s) := by
  have hheld := h.held block cls rfl
  have hbytes := bytesOf_le cls
  -- the header is in the block in hand, so no other block sees it written
  have hword : ∀ x, ((s.store block kMagic).store (block + 8) cls).word x ≠ s.word x →
      owner x = some .hand := by
    intro x hx
    by_cases heq : x = block ∨ x = block + 8
    · exact hheld.owned x (by omega) (by omega)
    · rw [not_or] at heq
      have hsame : ((s.store block kMagic).store (block + 8) cls).word x = s.word x :=
        (Function.update_of_ne heq.2 _ _).trans (Function.update_of_ne heq.1 _ _)
      exact absurd hsame hx
  have hmagic : ((s.store block kMagic).store (block + 8) cls).word block = kMagic :=
    (Function.update_of_ne (by omega) _ _).trans (Function.update_self _ _ _)
  have hclsword : ((s.store block kMagic).store (block + 8) cls).word (block + 8) = cls :=
    Function.update_self _ _ _
  let b : Block := { pool := true, ptr := block + kHeaderSize, size }
  have hstart : b.start = block := Nat.add_sub_cancel _ _
  have hlength : b.bytes = bytesOf cls := by rw [← hcls]; rfl
  -- what was in hand belongs to the block that is handed out
  refine ⟨rename owner .hand (some (.live b)), ?_⟩
  constructor
  · intro t k
    obtain ⟨nodes, hnodes⟩ := h.lists t k
    exact ⟨nodes, hnodes.word (by simp) hword, hnodes.nodup,
      fun f hf => (hnodes.owned f hf).rename_of_ne (by simp) _, hnodes.block⟩
  · exact fun t => (h.arenas t).owners ((h.arenas t).owned.rename_of_ne (by simp) _)
  · intro b' hb'
    obtain rfl | hold := List.mem_cons.mp hb'
    · refine ⟨Nat.succ_ne_zero _, ?_⟩
      show Owned _ _ b.start b.bytes
      rw [hstart, hlength]
      exact hheld.owned.renamed
    · exact ⟨(h.live b' hold).1, (h.live b' hold).2.rename_of_ne (by simp) _⟩
  · intro b' hb' hpool
    obtain rfl | hold := List.mem_cons.mp hb'
    · refine ⟨?_, ?_, ?_, ?_, ?_, ?_, ?_, ?_⟩
      · rw [show Block.start _ = block from hstart]
      · rw [show Block.start _ = block from hstart]
        exact hheld.ne_zero
      · rw [show Block.start _ = block from hstart]
        exact hheld.aligned
      · exact size_le_bytesOf hsize (hcls ▸ hheld.cls_lt)
      · exact hcls ▸ hheld.cls_lt
      · rw [show Block.start _ = block from hstart]
        exact hmagic
      · rw [show Block.start _ = block from hstart]
        exact hclsword.trans hcls.symm
      · rw [show Block.start _ = block from hstart, show Block.bytes _ = bytesOf cls from hlength]
        exact hheld.carved
    · exact { (h.served b' hold hpool).word (h.live b' hold).2 hpool (by simp) hword with }
  · exact fun _ _ hnone => absurd hnone (by simp)
  · intro c hc
    cases h.kept c hc with
    | live b' hb' hpool heq => exact .live b' (List.mem_cons_of_mem _ hb') hpool heq
    | hand block' cls' hsome heq =>
      cases hsome
      refine .live b List.mem_cons_self rfl ?_
      rw [heq, hstart, hlength]
    | free t k others hothers hin heq =>
      obtain ⟨others', hothers'⟩ := h.lists t k
      obtain rfl := hothers.unique hothers'.linked
      exact .free t k others (hothers'.word (by simp) hword) hin heq
  · exact mapped_rename (FastAlloc.serve cls size block s) h.mapped rfl
      (fun b' hb' _ => List.mem_cons_of_mem _ hb') _ _
  -- what was in hand is no block that is live
  · refine List.nodup_cons.mpr ⟨fun hb => ?_, h.distinct⟩
    have hlive := (h.live b hb).2 b.start le_rfl (by have := b.bytes_pos; omega)
    rw [hheld.owned b.start hstart.ge (by have := b.bytes_pos; omega)] at hlive
    cases hlive

/-- A live block is no longer live. -/
def State.drop (s : State) (b : Block) : State := { s with live := s.live.filter (· ≠ b) }

/-- The live blocks after one is dropped. -/
theorem mem_drop {b b' : Block} : b' ∈ (s.drop b).live ↔ b' ∈ s.live ∧ b' ≠ b := by
  unfold State.drop
  simp

/-- A live block of the pool is taken in hand. -/
theorem Good.release {b : Block} (h : Good none owner s) (hb : b ∈ s.live) (hpool : b.pool = true) :
    ∃ owner', Good (some (b.start, classOf b.size)) owner' (s.drop b) := by
  have hserved := h.served b hb hpool
  have hlength : b.bytes = bytesOf (classOf b.size) := by
    unfold Block.bytes
    rw [if_pos hpool]
  -- the block's bytes pass from the caller to the hand that links them
  refine ⟨rename owner (.live b) (some .hand), ?_⟩
  constructor
  · intro t k
    obtain ⟨nodes, hnodes⟩ := h.lists t k
    exact ⟨nodes, hnodes.linked, hnodes.nodup,
      fun f hf => (hnodes.owned f hf).rename_of_ne (by simp) _, hnodes.block⟩
  · exact fun t => (h.arenas t).owners ((h.arenas t).owned.rename_of_ne (by simp) _)
  · intro b' hb'
    obtain ⟨hin, hne⟩ := mem_drop.mp hb'
    exact ⟨(h.live b' hin).1, (h.live b' hin).2.rename_of_ne (by simpa using hne) _⟩
  · intro b' hb' hpool'
    exact { h.served b' (mem_drop.mp hb').1 hpool' with }
  · intro block' cls' heq
    cases heq
    refine ⟨?_, hserved.ne_zero, hserved.aligned, hserved.cls_lt, ?_⟩
    · rw [← hlength]
      exact (h.live b hb).2.renamed
    · rw [← hlength]
      exact hserved.carved
  · intro c hc
    cases h.kept c hc with
    | live b' hb' hpool' heq =>
      by_cases hsame : b' = b
      · subst hsame
        exact .hand _ _ rfl (by rw [heq, hlength])
      · exact .live b' (mem_drop.mpr ⟨hb', hsame⟩) hpool' heq
    | hand _ _ hsome => exact absurd hsome (by simp)
    | free t k others hothers hin heq => exact .free t k others hothers hin heq
  · refine mapped_rename (s.drop b) h.mapped rfl (fun b' hb' hreal => mem_drop.mpr ⟨hb', ?_⟩) _ _
    rintro rfl
    rw [hpool] at hreal
    exact absurd hreal (by simp)
  · exact h.distinct.filter _

/-- Fresh memory belongs to nobody. -/
theorem Good.fresh {a n : ℕ} (h : Good hand owner s) (hfresh : Fresh s a n) (x : ℕ) (hx : a ≤ x)
    (hx' : x < a + n) : owner x = none := by
  cases howner : owner x with
  | none => rfl
  | some p =>
    obtain ⟨_, hchunks, hreal⟩ := hfresh
    obtain ⟨c, hc, hc1, hc2⟩ | ⟨b, hb, hpool, hb1, hb2⟩ := h.mapped x p howner
    · have happart := hchunks c hc
      unfold Apart at happart
      omega
    · have happart := hreal b hb hpool
      unfold Apart at happart
      omega

/-- Memory that was granted is in the places of before or in the new one. -/
theorem mapped_grant {p : Place} {a n : ℕ} {s s' : State}
    (h : ∀ x p, owner x = some p → (∃ c ∈ s.chunks, c.1 ≤ x ∧ x < c.1 + c.2) ∨
      ∃ b ∈ s.live, b.pool = false ∧ b.start ≤ x ∧ x < b.start + b.bytes)
    (hchunks : ∀ c ∈ s.chunks, c ∈ s'.chunks) (hlive : ∀ b ∈ s.live, b ∈ s'.live)
    (hnew : ∀ x, a ≤ x → x < a + n → (∃ c ∈ s'.chunks, c.1 ≤ x ∧ x < c.1 + c.2) ∨
      ∃ b ∈ s'.live, b.pool = false ∧ b.start ≤ x ∧ x < b.start + b.bytes) :
    ∀ x r, grant owner p a n x = some r → (∃ c ∈ s'.chunks, c.1 ≤ x ∧ x < c.1 + c.2) ∨
      ∃ b ∈ s'.live, b.pool = false ∧ b.start ≤ x ∧ x < b.start + b.bytes := by
  intro x r hx
  unfold grant at hx
  split at hx
  · rename_i hin
    exact hnew x hin.1 hin.2
  · obtain ⟨c, hc, hin⟩ | ⟨b, hb, hin⟩ := h x r hx
    · exact .inl ⟨c, hchunks c hc, hin⟩
    · exact .inr ⟨b, hlive b hb, hin⟩

/-- A block of the real allocator is in use. -/
theorem Good.realAlloc (h : Good none owner s) {ptr : ℕ} (hfresh : Fresh s ptr (max size 1)) :
    ∃ owner', Good none owner' (realAlloc size (some ptr) s) := by
  have hnone := h.fresh hfresh
  let b : Block := { pool := false, ptr, size }
  refine ⟨grant owner (.live b) ptr (max size 1), ?_⟩
  constructor
  · intro t k
    obtain ⟨nodes, hnodes⟩ := h.lists t k
    exact ⟨nodes, hnodes.linked, hnodes.nodup,
      fun f hf => (hnodes.owned f hf).grant_of_none hnone _, hnodes.block⟩
  · exact fun t => (h.arenas t).owners ((h.arenas t).owned.grant_of_none hnone _)
  · intro b' hb'
    obtain rfl | hold := List.mem_cons.mp hb'
    · exact ⟨hfresh.1, owned_grant owner (.live b) ptr (max size 1)⟩
    · exact ⟨(h.live b' hold).1, (h.live b' hold).2.grant_of_none hnone _⟩
  · intro b' hb' hpool
    obtain rfl | hold := List.mem_cons.mp hb'
    · exact absurd hpool (by simp)
    · exact { h.served b' hold hpool with }
  · exact fun _ _ hsome => absurd hsome (by simp)
  · intro c hc
    cases h.kept c hc with
    | live b' hb' hpool heq => exact .live b' (List.mem_cons_of_mem _ hb') hpool heq
    | hand _ _ hsome => exact absurd hsome (by simp)
    | free t k others hothers hin heq => exact .free t k others hothers hin heq
  · refine mapped_grant h.mapped (fun _ hc => hc) (fun _ hb => List.mem_cons_of_mem _ hb) ?_
    exact fun x hx hx' => .inr ⟨b, List.mem_cons_self, rfl, hx, hx'⟩
  · refine List.nodup_cons.mpr ⟨fun hb => ?_, h.distinct⟩
    have hlive := (h.live b hb).2 b.start le_rfl (by have := b.bytes_pos; omega)
    rw [hnone b.start le_rfl (Nat.lt_add_of_pos_right b.bytes_pos)] at hlive
    cases hlive

/-- A block of the real allocator is no longer in use. -/
theorem Good.realFree {b : Block} (h : Good none owner s) (hpool : b.pool = false) :
    ∃ owner', Good none owner' (s.drop b) := by
  refine ⟨rename owner (.live b) none, ?_⟩
  constructor
  · intro t k
    obtain ⟨nodes, hnodes⟩ := h.lists t k
    exact ⟨nodes, hnodes.linked, hnodes.nodup,
      fun f hf => (hnodes.owned f hf).rename_of_ne (by simp) _, hnodes.block⟩
  · exact fun t => (h.arenas t).owners ((h.arenas t).owned.rename_of_ne (by simp) _)
  · intro b' hb'
    obtain ⟨hin, hne⟩ := mem_drop.mp hb'
    exact ⟨(h.live b' hin).1, (h.live b' hin).2.rename_of_ne (by simpa using hne) _⟩
  · intro b' hb' hpool'
    exact { h.served b' (mem_drop.mp hb').1 hpool' with }
  · exact fun _ _ hsome => absurd hsome (by simp)
  · intro c hc
    cases h.kept c hc with
    | live b' hb' hpool' heq =>
      refine .live b' (mem_drop.mpr ⟨hb', ?_⟩) hpool' heq
      intro hsame
      rw [hsame, hpool] at hpool'
      exact absurd hpool' (by simp)
    | hand _ _ hsome => exact absurd hsome (by simp)
    | free t k others hothers hin heq => exact .free t k others hothers hin heq
  · intro x p hx
    have hbefore : owner x = some p ∧ owner x ≠ some (.live b) := by
      unfold rename at hx
      split at hx
      · exact absurd hx (by simp)
      · exact ⟨hx, by assumption⟩
    obtain hin | ⟨b', hb', hreal, hx1, hx2⟩ := h.mapped x p hbefore.1
    · exact .inl hin
    · refine .inr ⟨b', mem_drop.mpr ⟨hb', ?_⟩, hreal, hx1, hx2⟩
      rintro rfl
      exact hbefore.2 ((h.live b' hb').2 x hx1 hx2)
  · exact h.distinct.filter _

/-- A chunk has room for what was asked. -/
theorem le_chunkFor (want : ℕ) : want ≤ chunkFor want := by
  unfold chunkFor
  split <;> omega

/-- After the refill the arena is long enough; what was left of the old one is abandoned. -/
theorem Good.refill {want : ℕ} {mem : Option ℕ} {s' : State} (h : Good none owner s)
    (hmem : ∀ a ∈ mem, 4096 ∣ a ∧ Fresh s a (chunkFor want))
    (hrefill : refill want mem thread s = some s') :
    ∃ owner', Good none owner' s' ∧ want ≤ (s'.pools thread).arenaLeft := by
  unfold FastAlloc.refill at hrefill
  by_cases hshort : (s.pools thread).arenaLeft < want
  · simp only [if_pos hshort] at hrefill
    cases mem with
    | none => exact absurd hrefill (by simp)
    | some a =>
      obtain ⟨halign, hfresh⟩ := hmem a rfl
      have hnone := h.fresh hfresh
      obtain rfl := Option.some.inj hrefill
      -- the chunk goes to the arena of the thread; nobody else owned any of it
      refine ⟨grant owner (.arena thread) a (chunkFor want), ?_, ?_⟩
      · constructor
        · intro t k
          obtain ⟨nodes, hnodes⟩ := h.lists t k
          refine ⟨nodes, ?_, hnodes.nodup,
            fun f hf => (hnodes.owned f hf).grant_of_none hnone _, hnodes.block⟩
          show Linked s.word (((s.setPool thread _).pools t).freeList k) nodes
          rw [setPool_freeList s (by rfl)]
          exact hnodes.linked
        · intro t
          by_cases ht : t = thread
          · subst ht
            refine ⟨?_, ?_, ?_⟩
            · simpa using owned_grant owner (.arena t) a (chunkFor want)
            · simpa using (show 16 ∣ 4096 by decide).trans halign
            · simpa using fun _ => hfresh.1
          -- the arenas of the other threads stay theirs
          · have harena := h.arenas t
            simp only [setPool_of_ne s _ ht]
            exact harena.owners (harena.owned.grant_of_none hnone _)
        · exact fun b hb => ⟨(h.live b hb).1, (h.live b hb).2.grant_of_none hnone _⟩
        · exact fun b hb hpool => { h.served b hb hpool with }
        · exact fun _ _ hsome => absurd hsome (by simp)
        · intro c hc
          cases h.kept c hc with
          | live b hb hpool heq => exact .live b hb hpool heq
          | hand _ _ hsome => exact absurd hsome (by simp)
          | free t k others hothers hin heq =>
            refine .free t k others ?_ hin heq
            show Linked s.word (((s.setPool thread _).pools t).freeList k) others
            rw [setPool_freeList s (by rfl)]
            exact hothers
        · refine mapped_grant h.mapped (fun _ hc => List.mem_cons_of_mem _ hc) (fun _ hb => hb) ?_
          exact fun x hx hx' => .inl ⟨_, List.mem_cons_self, hx, hx'⟩
        · exact h.distinct
      · simpa using le_chunkFor want
  · simp only [if_neg hshort] at hrefill
    obtain rfl := Option.some.inj hrefill
    exact ⟨owner, h, not_lt.mp hshort⟩

/-- The head of the arena is taken in hand. -/
theorem Good.takeArena (h : Good none owner s) (hcls : cls < kClasses)
    (hleft : bytesOf cls ≤ (s.pools thread).arenaLeft) :
    ∃ owner', Good (some ((s.pools thread).arena, cls)) owner'
      { s.setPool thread { s.pools thread with
          arena := (s.pools thread).arena + bytesOf cls
          arenaLeft := (s.pools thread).arenaLeft - bytesOf cls } with
        carved := ((s.pools thread).arena, bytesOf cls) :: s.carved } := by
  have harena := h.arenas thread
  have hbytes := bytesOf_le cls
  have hpart : Owned owner (.arena thread) (s.pools thread).arena (bytesOf cls) :=
    harena.owned.sub le_rfl (by omega)
  -- the front of the arena comes into hand, and the arena starts behind it
  refine ⟨grant owner .hand (s.pools thread).arena (bytesOf cls), ?_⟩
  constructor
  · intro t k
    obtain ⟨nodes, hnodes⟩ := h.lists t k
    refine ⟨nodes, ?_, hnodes.nodup,
      fun f hf => (hnodes.owned f hf).grant_of_owned hpart (by simp) _, ?_⟩
    · show Linked s.word (((s.setPool thread _).pools t).freeList k) nodes
      rw [setPool_freeList s (by rfl)]
      exact hnodes.linked
    · intro f hf
      obtain ⟨hk, haligned, hcarved⟩ := hnodes.block f hf
      exact ⟨hk, haligned, List.mem_cons_of_mem _ hcarved⟩
  · intro t
    by_cases ht : t = thread
    · subst ht
      simp only [setPool_self]
      refine ⟨?_, (Nat.dvd_add_iff_right harena.aligned).mp (dvd_bytesOf cls), ?_⟩
      · show Owned _ (Place.arena t) ((s.pools t).arena + bytesOf cls)
          ((s.pools t).arenaLeft - bytesOf cls)
        apply (harena.owned.sub (by omega) (by omega)).grant_of_apart
        unfold Apart
        omega
      · intro _
        show (s.pools t).arena + bytesOf cls ≠ 0
        omega
    · have hother := h.arenas t
      simp only [setPool_of_ne s _ ht]
      exact hother.owners (hother.owned.grant_of_owned hpart (by simpa using ht) _)
  · exact fun b hb => ⟨(h.live b hb).1, (h.live b hb).2.grant_of_owned hpart (by simp) _⟩
  · exact fun b hb hpool =>
      { h.served b hb hpool with
        carved := List.mem_cons_of_mem _ (h.served b hb hpool).carved }
  · intro block' cls' heq
    cases heq
    exact ⟨owned_grant owner .hand _ _, harena.ne_zero (by omega), harena.aligned, hcls,
      List.mem_cons_self⟩
  · intro c hc
    obtain rfl | hold := List.mem_cons.mp hc
    · exact .hand _ _ rfl rfl
    · cases h.kept c hold with
      | live b hb hpool heq => exact .live b hb hpool heq
      | hand _ _ hsome => exact absurd hsome (by simp)
      | free t k others hothers hin heq =>
        refine .free t k others ?_ hin heq
        show Linked s.word (((s.setPool thread _).pools t).freeList k) others
        rw [setPool_freeList s (by rfl)]
        exact hothers
  · refine mapped_grant h.mapped (fun _ hc => hc) (fun _ hb => hb) ?_
    exact fun x hx hx' => h.mapped x _ (hpart x hx hx')
  · exact h.distinct

/-- What the game writes is neither a link nor a header. -/
theorem Good.write {address : ℕ} (h : Good none owner s) (hwritable : Writable s address)
    (value : ℕ) : Good none owner (s.store address value) := by
  have hsame : ∀ x, x ≠ address → (s.store address value).word x = s.word x :=
    fun x hx => Function.update_of_ne hx _ _
  -- a caller writes into its own block or outside the arenas, and a free block is neither
  have hnotfree : ∀ t k f n, Owned owner (.free t k f) f n → 0 < n → f ≠ address := by
    intro t k f n howned hn heq
    have hfree := howned f le_rfl (by omega)
    obtain hout | ⟨b, hb, hpool, hlow, hhigh⟩ := hwritable
    · obtain ⟨c, hc, hc1, hc2⟩ | ⟨b, hb, hreal, hb1, hb2⟩ := h.mapped f _ hfree
      · have := hout c hc
        omega
      · have hlive := (h.live b hb).2 f hb1 hb2
        rw [hfree] at hlive
        cases hlive
    · have hptr := (h.served b hb hpool).ptr_eq
      have hlive := (h.live b hb).2 f (by omega) (by omega)
      rw [hfree] at hlive
      cases hlive
  have hlinked : ∀ t k nodes, IsList owner s t k nodes →
      Linked (s.store address value).word ((s.pools t).freeList k) nodes := by
    intro t k nodes hnodes
    apply hnodes.linked.congr
    intro f hf
    have hbytes := bytesOf_le k
    exact hsame f (hnotfree t k f _ (hnodes.owned f hf) (by omega))
  -- nor does it write into a header, which is in front of the block it was given
  have hheader : ∀ b ∈ s.live, b.pool = true → ∀ x, b.start ≤ x → x < b.ptr → x ≠ address := by
    intro b hb hpool x hx hx' heq
    have hserved := h.served b hb hpool
    have hlength : b.bytes = bytesOf (classOf b.size) := by
      unfold Block.bytes
      rw [if_pos hpool]
    have hbytes := bytesOf_le (classOf b.size)
    have hptr : b.ptr = b.start + 16 := hserved.ptr_eq
    have hlive := (h.live b hb).2 x hx (by omega)
    obtain hout | ⟨b', hb', hpool', hlow, hhigh⟩ := hwritable
    · obtain ⟨c, hc, hc1, hc2⟩ | ⟨b', hb', hreal, hb1, hb2⟩ := h.mapped x _ hlive
      · have := hout c hc
        omega
      · have hlive' := (h.live b' hb').2 x hb1 hb2
        rw [hlive] at hlive'
        cases hlive'
        rw [hpool] at hreal
        exact absurd hreal (by simp)
    · have hptr' : b'.ptr = b'.start + 16 := (h.served b' hb' hpool').ptr_eq
      have hlive' := (h.live b' hb').2 x (by omega) (by omega)
      rw [hlive] at hlive'
      cases hlive'
      omega
  constructor
  · intro t k
    obtain ⟨nodes, hnodes⟩ := h.lists t k
    exact ⟨nodes, hlinked t k nodes hnodes, hnodes.nodup, hnodes.owned, hnodes.block⟩
  · exact h.arenas
  · exact h.live
  · intro b hb hpool
    have hserved := h.served b hb hpool
    have hptr : b.ptr = b.start + 16 := hserved.ptr_eq
    exact { hserved with
      magic := (hsame _ (hheader b hb hpool _ le_rfl (by omega))).trans hserved.magic
      cls := (hsame _ (hheader b hb hpool _ (by omega) (by omega))).trans hserved.cls }
  · exact fun _ _ hsome => absurd hsome (by simp)
  · intro c hc
    cases h.kept c hc with
    | live b hb hpool heq => exact .live b hb hpool heq
    | hand _ _ hsome => exact absurd hsome (by simp)
    | free t k others hothers hin heq =>
      obtain ⟨others', hothers'⟩ := h.lists t k
      obtain rfl := hothers.unique hothers'.linked
      exact .free t k others (hlinked t k others hothers') hin heq
  · exact h.mapped
  · exact h.distinct

/-! ### The hooks -/

/-- The heap is in order between two calls, and the real allocator got back what is its own. -/
def Inv (s : State) : Prop := (∃ owner, Good none owner s) ∧ s.passed = s.returned

/-- Before anything is allocated all is good. -/
theorem good_init : Good none (fun _ => none) {} where
  lists _ _ := ⟨[], rfl, List.nodup_nil, by simp, by simp⟩
  arenas _ := ⟨fun x hx hx' => absurd hx' (by simp), Nat.dvd_zero 16, fun h => absurd rfl h⟩
  live := by simp
  served := by simp
  held := by simp
  kept := by simp
  mapped := by simp
  distinct := List.nodup_nil

/-- A block from the real allocator keeps the invariant. -/
theorem Inv.realAlloc (h : Inv s) {real : Option ℕ} (hreal : ∀ a ∈ real, Fresh s a (max size 1)) :
    Inv (realAlloc size real s) := by
  cases real with
  | none => exact h
  | some ptr =>
    obtain ⟨⟨owner, hgood⟩, hpassed⟩ := h
    exact ⟨hgood.realAlloc (hreal ptr rfl), hpassed⟩

/-- A refill passes and returns nothing. -/
theorem refill_history {want : ℕ} {mem : Option ℕ} {s' : State}
    (h : refill want mem thread s = some s') :
    s'.passed = s.passed ∧ s'.returned = s.returned := by
  unfold refill at h
  simp only at h
  split at h
  · cases mem with
    | none => exact absurd h (by simp)
    | some a =>
      obtain rfl := Option.some.inj h
      exact ⟨rfl, rfl⟩
  · obtain rfl := Option.some.inj h
    exact ⟨rfl, rfl⟩

/-- An allocation keeps the invariant, from the pool or past it. -/
theorem Inv.allocHook (h : Inv s) {mem real : Option ℕ} (hsize : size ≤ 2 ^ 64 - 17)
    (hmem : ∀ a ∈ mem, 4096 ∣ a ∧ Fresh s a (chunkFor (bytesOf (classOf size))))
    (hreal : ∀ a ∈ real, Fresh s a (max size 1)) :
    Inv (allocHook thread size mem real s) := by
  obtain ⟨⟨owner, hgood⟩, hpassed⟩ := id h
  unfold FastAlloc.allocHook
  by_cases hlarge : kClasses ≤ classOf size
  · simp only [if_pos hlarge]
    exact h.realAlloc hreal
  · simp only [if_neg hlarge]
    by_cases hfree : (s.pools thread).freeList (classOf size) ≠ 0
    · rw [if_pos hfree]
      obtain ⟨owner', hhand⟩ := hgood.takeFree rfl hfree
      exact ⟨hhand.serve rfl hsize, hpassed⟩
    · rw [if_neg hfree]
      unfold carve
      cases hrefill : FastAlloc.refill (bytesOf (classOf size)) mem thread s with
      | none => exact h.realAlloc hreal
      | some s' =>
        obtain ⟨owner', hgood', hleft⟩ := hgood.refill hmem hrefill
        obtain ⟨owner'', hhand⟩ := hgood'.takeArena (not_le.mp hlarge) hleft
        obtain ⟨hpassed', hreturned'⟩ := refill_history hrefill
        refine ⟨hhand.serve rfl hsize, ?_⟩
        show s'.passed = s'.returned
        rw [hpassed', hreturned', hpassed]

/-- A live block of the pool goes to the free list of its class. -/
theorem freeHook_of_served {b : Block} (h : Served s b) (hptr : b.ptr ≠ 0) :
    freeHook thread b.ptr s =
      (s.store b.start ((s.pools thread).freeList (classOf b.size))).setHead thread
        (classOf b.size) b.start := by
  have hhead : b.ptr - kHeaderSize = b.start := by
    rw [h.ptr_eq]
    exact Nat.add_sub_cancel _ _
  unfold freeHook
  rw [if_neg hptr]
  simp only [hhead, h.magic, h.cls, ne_eq, not_true_eq_false, if_false,
    if_neg (not_le.mpr h.cls_lt)]
  unfold State.setHead State.store State.setPool
  simp only [Function.update_idem]

/-- A pool block freed becomes the head of its list. -/
theorem free_of_pool {b : Block} (h : Served s b) (hptr : b.ptr ≠ 0) (hpool : b.pool = true) :
    free thread (some b) s =
      ((s.drop b).store b.start (((s.drop b).pools thread).freeList (classOf b.size))).setHead
        thread (classOf b.size) b.start := by
  unfold FastAlloc.free
  simp only [freeHook_of_served h hptr, hpool, if_true]
  rfl

/-- A live block of the real allocator goes back to it. -/
theorem free_of_real {b : Block} (hmagic : s.word (b.ptr - kHeaderSize) ≠ kMagic)
    (hptr : b.ptr ≠ 0) (hpool : b.pool = false) :
    free thread (some b) s = { s.drop b with
      passed := s.passed ++ [b.ptr]
      returned := s.returned ++ [b.ptr] } := by
  have hreal : freeHook thread b.ptr s = realFree b.ptr s := by
    unfold freeHook
    rw [if_neg hptr]
    simp only [ne_eq, hmagic, not_false_eq_true, if_true]
  unfold FastAlloc.free
  simp only [hreal, hpool, Bool.false_eq_true, if_false]
  rfl

/-- The invariant does not look at what went back to the real allocator. -/
theorem Good.history (h : Good none owner s) (passed returned : List ℕ) :
    Good none owner { s with passed := passed, returned := returned } where
  lists thread cls := by
    obtain ⟨nodes, hnodes⟩ := h.lists thread cls
    exact ⟨nodes, hnodes.linked, hnodes.nodup, hnodes.owned, hnodes.block⟩
  arenas := h.arenas
  live := h.live
  served b hb hpool := { h.served b hb hpool with }
  held _ _ hsome := absurd hsome (by simp)
  kept c hc := by
    cases h.kept c hc with
    | live b hb hpool heq => exact .live b hb hpool heq
    | hand _ _ hsome => exact absurd hsome (by simp)
    | free t k others hothers hin heq => exact .free t k others hothers hin heq
  mapped := h.mapped
  distinct := h.distinct

/-- A block freed keeps the invariant. -/
theorem Inv.free (h : Inv s) {b : Block} (hb : b ∈ s.live)
    (hmagic : b.pool = false → s.word (b.ptr - kHeaderSize) ≠ kMagic) :
    Inv (free thread (some b) s) := by
  obtain ⟨⟨owner, hgood⟩, hpassed⟩ := h
  have hptr := (hgood.live b hb).1
  cases hpool : b.pool with
  | true =>
    rw [free_of_pool (hgood.served b hb hpool) hptr hpool]
    obtain ⟨owner', hhand⟩ := hgood.release hb hpool
    exact ⟨hhand.link thread, hpassed⟩
  | false =>
    rw [free_of_real (hmagic hpool) hptr hpool]
    obtain ⟨owner', hgood'⟩ := hgood.realFree hpool
    refine ⟨⟨owner', hgood'.history _ _⟩, ?_⟩
    show s.passed ++ [b.ptr] = s.returned ++ [b.ptr]
    rw [hpassed]

/-- Every call keeps the heap in order. -/
theorem Inv.step {s' : State} {a : Action} (h : Inv s) (ha : allowed s a)
    (hstep : step s a = some s') : Inv s' := by
  cases a with
  | alloc thread size mem real =>
    obtain rfl := Option.some.inj hstep
    exact h.allocHook ha.1 ha.2.1 ha.2.2
  | free thread block =>
    obtain rfl := Option.some.inj hstep
    cases block with
    | none => exact h
    | some b =>
      obtain ⟨hb, hmagic⟩ := ha b rfl
      exact h.free hb hmagic
  | unhooked ptr size =>
    obtain rfl := Option.some.inj hstep
    exact h.realAlloc fun a heq => Option.some.inj heq ▸ ha
  | write address value =>
    obtain rfl := Option.some.inj hstep
    obtain ⟨⟨owner, hgood⟩, hpassed⟩ := h
    exact ⟨⟨owner, hgood.write ha value⟩, hpassed⟩

/-! ### What the invariant says of the heap -/

/-- A block of a free list, as the memory links it. -/
def InList (s : State) (thread cls f : ℕ) : Prop :=
  ∃ nodes, Linked s.word ((s.pools thread).freeList cls) nodes ∧ f ∈ nodes

/-- The heap is sound: what is live, free and left in the arenas is kept apart, the free lists
hold each block once and in the class of its size, and the real allocator got back its blocks. -/
structure Sound (s : State) : Prop where
  live_apart : (s.live.filter Block.pool).Pairwise fun b b' =>
    Apart b.start b.bytes b'.start b'.bytes
  live_block : ∀ b ∈ s.live, b.pool = true → b.ptr = b.start + kHeaderSize ∧ 16 ∣ b.ptr ∧
    b.size + kHeaderSize ≤ b.bytes
  live_free : ∀ b ∈ s.live, b.pool = true → ∀ thread cls f, InList s thread cls f →
    Apart b.start b.bytes f (bytesOf cls)
  live_arena : ∀ b ∈ s.live, b.pool = true → ∀ thread, (s.pools thread).arenaLeft ≠ 0 →
    Apart b.start b.bytes (s.pools thread).arena (s.pools thread).arenaLeft
  list_nodup : ∀ thread cls, ∃ nodes,
    Linked s.word ((s.pools thread).freeList cls) nodes ∧ nodes.Nodup
  list_unique : ∀ thread cls thread' cls' f, InList s thread cls f → InList s thread' cls' f →
    thread = thread' ∧ cls = cls'
  free_bytes : ∀ thread cls f, InList s thread cls f → ∀ n, (f, n) ∈ s.carved ↔ n = bytesOf cls
  passed_eq : s.passed = s.returned

/-- The invariant says that live blocks are apart and aligned. -/
theorem Inv.sound (h : Inv s) : Sound s := by
  obtain ⟨⟨owner, hgood⟩, hpassed⟩ := h
  -- a byte has one owner, which is all that the parts below need
  have hlist : ∀ thread cls f, InList s thread cls f →
      Owned owner (.free thread cls f) f (bytesOf cls) ∧ (f, bytesOf cls) ∈ s.carved := by
    intro thread cls f hin
    obtain ⟨nodes, hlinked, hmem⟩ := hin
    obtain ⟨nodes', hnodes⟩ := hgood.lists thread cls
    obtain rfl := hlinked.unique hnodes.linked
    exact ⟨hnodes.owned f hmem, (hnodes.block f hmem).2.2⟩
  have hpos : ∀ cls, 0 < bytesOf cls := fun cls => by
    have := bytesOf_le cls
    omega
  constructor
  · refine (hgood.distinct.filter Block.pool).imp_of_mem fun {b b'} hb hb' hne => ?_
    exact (hgood.live b (List.mem_of_mem_filter hb)).2.apart
      (hgood.live b' (List.mem_of_mem_filter hb')).2 (by simpa using hne) b.bytes_pos b'.bytes_pos
  · intro b hb hpool
    have hserved := hgood.served b hb hpool
    have hbytes : b.bytes = bytesOf (classOf b.size) := by
      unfold Block.bytes
      rw [if_pos hpool]
    refine ⟨hserved.ptr_eq, ?_, hbytes ▸ hserved.fits⟩
    rw [hserved.ptr_eq]
    exact Nat.dvd_add hserved.aligned (by decide)
  · intro b hb _ thread cls f hin
    exact (hgood.live b hb).2.apart (hlist thread cls f hin).1 (by simp) b.bytes_pos (hpos cls)
  · intro b hb _ thread hleft
    exact (hgood.live b hb).2.apart (hgood.arenas thread).owned (by simp) b.bytes_pos
      (Nat.pos_of_ne_zero hleft)
  · intro thread cls
    obtain ⟨nodes, hnodes⟩ := hgood.lists thread cls
    exact ⟨nodes, hnodes.linked, hnodes.nodup⟩
  -- a block in two lists would have two owners
  · intro thread cls thread' cls' f hin hin'
    have heq := (hlist thread cls f hin).1.eq_of_mem (hlist thread' cls' f hin').1 le_rfl
      (by have := hpos cls; omega) le_rfl (by have := hpos cls'; omega)
    cases heq
    exact ⟨rfl, rfl⟩
  · intro thread cls f hin n
    obtain ⟨howned, hcarved⟩ := hlist thread cls f hin
    constructor
    · intro hn
      cases hgood.kept _ hn with
      | live b hb hpool heq =>
        have hstart : f = b.start := congrArg Prod.fst heq
        have hsame := howned.eq_of_mem (hgood.live b hb).2 (x := f) le_rfl
          (by have := hpos cls; omega) hstart.ge (by have := b.bytes_pos; omega)
        cases hsame
      | hand _ _ hsome => exact absurd hsome (by simp)
      | free thread' cls' nodes hlinked hmem heq =>
        have hsame := howned.eq_of_mem (hlist thread' cls' f ⟨nodes, hlinked, hmem⟩).1 le_rfl
          (by have := hpos cls; omega) le_rfl (by have := hpos cls'; omega)
        cases hsame
        exact heq
    · rintro rfl
      exact hcarved
  · exact hpassed

/-- After any sequence of calls by any threads the heap is sound. -/
theorem sound_of_run {as : List Action} (h : Run step allowed {} as s) : Sound s := by
  have hinit : Inv {} := ⟨⟨_, good_init⟩, rfl⟩
  exact (h.invariant hinit fun _ _ _ hinv ha hstep => hinv.step ha hstep).sound

/-- Two threads: a block of the first is freed by the second and used there again, next to a
block of the real allocator that goes back. -/
def demoActions : List Action :=
  let first : Block := { pool := true, ptr := 0x10010, size := 40 }
  let large : Block := { pool := false, ptr := 0x900000, size := 200000 }
  [.alloc 0 40 (some 0x10000) none, .alloc 0 16 none none, .write 0x10018 7,
    .alloc 1 200000 none (some 0x900000), .free 1 (some first), .alloc 1 48 none none,
    .free 0 (some large), .free 0 none]

theorem sound_of_run_demo : ∃ s, Run step allowed {} demoActions s ∧
    (s.live.length = 2 ∧ s.passed = [0x900000]) ∧ Sound s := by
  obtain ⟨s, hrun, hlast⟩ := Run.exists_of_follow step allowed {} demoActions
    (fun s => decide (s.live.length = 2 ∧ s.passed = [0x900000])) (by decide +kernel)
  exact ⟨s, hrun, of_decide_eq_true hlast, sound_of_run hrun⟩

end FastAlloc
end Bg3le
