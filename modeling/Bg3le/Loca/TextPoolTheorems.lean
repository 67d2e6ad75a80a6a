import Bg3le.Loca.TextPool

/-!
# Storing keeps a pool

A new key goes before the others of its bucket, so it is filed and keeps the others filed as long
as it is linked to one of them or to something negative. Nothing checks that there is a link for
every key before one is read.
-/

namespace Bg3le
namespace TextPool

open Chains

variable {hashOf : UInt32 → UInt32} {create : Bytes → Option UInt32} {pool pool' : Pool}
  {id hash other : UInt32} {handle text : Bytes} {locked : Bool} {i n : ℕ}

/-! ## Finding -/

/-- An index that a chain comes to is one of 31 bits. -/
theorem lt_of_path {c : ℤ} {path : List ℕ} (h : Path pool.nextInt c path i)
    (hc : ∃ x : Int32, c = x.toInt) : i < 2 ^ 31 := by
  induction h with
  | last i =>
    obtain ⟨x, hx⟩ := hc
    have := x.toInt_lt
    omega
  | @step c i path _ ih => exact ih ⟨pool.next c, rfl⟩

/-- A table has at most `2 ^ 31` keys. -/
theorem Table.size_le (h : Table hashOf pool) : pool.keysSize.toNat ≤ 2 ^ 31 := by
  by_contra hlarge
  obtain ⟨path, hpath, -⟩ := h.reached (2 ^ 31) (by omega)
  have := lt_of_path hpath ⟨_, rfl⟩
  omega

/-- The loop with so many steps left is a walk. -/
theorem findFrom_eq_walk (hnext : pool.nextSize = pool.keysSize)
    (hsize : pool.keysSize.toNat < 2 ^ 32 - 1) {k : ℕ} {steps : UInt32} {index : Int32}
    (hsteps : steps.toNat + k = pool.keysSize.toNat + 1) :
    findFrom pool id (k + 1) steps index =
      (walk pool.keysSize.toNat pool.nextInt (fun i => (pool.keys i).id == id) k index.toInt).elim
        .missing .found := by
  induction k generalizing steps index with
  | zero =>
    have hover : ¬ steps ≤ pool.keysSize := by
      rw [UInt32.le_iff_toNat_le]
      omega
    simp only [findFrom, hover, and_false, if_false, walk, Option.elim_none]
  | succ k ih =>
    have hin : steps ≤ pool.keysSize := by
      rw [UInt32.le_iff_toNat_le]
      omega
    have hnextStep : (steps + 1).toNat + k = pool.keysSize.toNat + 1 := by
      rw [UInt32.toNat_add]
      have : (1 : UInt32).toNat = 1 := rfl
      omega
    rw [findFrom, walk]
    simp only [hin, and_true]
    by_cases hneg : 0 ≤ index.toInt
    · by_cases hlt : index.toInt.toNat < pool.keysSize.toNat
      · have hpast : ¬ pool.nextSize.toNat ≤ index.toInt.toNat := by
          rw [hnext]
          omega
        simp only [hneg, hlt, hpast, Nat.not_le.mpr hlt, and_self, if_true, if_false,
          beq_iff_eq]
        split
        · rfl
        · exact ih hnextStep
      · simp only [hneg, hlt, Nat.le_of_not_lt hlt, and_false, if_true, if_false,
          Option.elim_none]
    · simp only [hneg, false_and, if_false, Option.elim_none]

/-- A handle is found at the index of its key, and nowhere if it has none. -/
theorem Table.findIndex_cases (h : Table hashOf pool) (id : UInt32) :
    (∃ i < pool.keysSize.toNat, (pool.keys i).id = id ∧
      findIndex (pool.keysSize.toNat + 2) pool id (hashOf id) = .found i) ∨
    ((∀ i < pool.keysSize.toNat, (pool.keys i).id ≠ id) ∧
      findIndex (pool.keysSize.toNat + 2) pool id (hashOf id) = .missing) := by
  have hsize := h.size_le
  by_cases hzero : pool.headsSize = 0
  · right
    have hempty : pool.keysSize.toNat = 0 := by
      by_contra hpos
      have hheads := h.heads_pos (UInt32.lt_iff_toNat_lt.mpr (Nat.pos_of_ne_zero hpos))
      rw [hzero] at hheads
      exact absurd hheads (by decide)
    refine ⟨fun i hi => absurd hi (by omega), ?_⟩
    simp only [findIndex, hzero, true_or, if_true]
  -- with buckets the search is a walk of one chain
  · have hwalk : findIndex (pool.keysSize.toNat + 2) pool id (hashOf id) =
        (walk pool.keysSize.toNat pool.nextInt (fun i => (pool.keys i).id == id)
          (pool.keysSize.toNat + 1) (pool.head (hashOf id)).toInt).elim .missing .found := by
      simp only [findIndex, hzero, h.heads_ne_null hzero, Bool.false_eq_true, or_self, if_false]
      exact findFrom_eq_walk h.next_size (by omega) (by simp)
    rw [hwalk]
    by_cases hkey : ∃ i < pool.keysSize.toNat, (pool.keys i).id = id
    · left
      obtain ⟨i, hi, rfl⟩ := hkey
      refine ⟨i, hi, rfl, ?_⟩
      have hfound := walk_of_reaches (h.reached i hi) (p := fun j => (pool.keys j).id == (pool.keys i).id)
        (beq_self_eq_true _) (fun j hj hid => h.distinct j hj i hi (beq_iff_eq.mp hid))
        (Nat.le_succ _)
      rw [hfound, Option.elim_some]
    · right
      have hnone : ∀ i < pool.keysSize.toNat, (pool.keys i).id ≠ id :=
        fun i hi hid => hkey ⟨i, hi, hid⟩
      refine ⟨hnone, ?_⟩
      cases hw : walk pool.keysSize.toNat pool.nextInt (fun i => (pool.keys i).id == id)
          (pool.keysSize.toNat + 1) (pool.head (hashOf id)).toInt with
      | none => rfl
      | some i =>
        obtain ⟨hid, hreaches⟩ := walk_spec hw
        exact absurd (beq_iff_eq.mp hid) (hnone i hreaches.lt)

/-- A key is found where it stands. -/
theorem Table.findIndex_of_key (h : Table hashOf pool) (hi : i < pool.keysSize.toNat)
    (hid : (pool.keys i).id = id) :
    findIndex (pool.keysSize.toNat + 2) pool id (hashOf id) = .found i := by
  obtain ⟨j, hj, hkey, hfound⟩ | ⟨hnone, -⟩ := h.findIndex_cases id
  · rw [hfound, h.distinct j hj i hi (hkey.trans hid.symm)]
  · exact absurd hid (hnone i hi)

/-- Where there is none, none is found. -/
theorem Table.findIndex_of_not_key (h : Table hashOf pool)
    (hnone : ∀ i < pool.keysSize.toNat, (pool.keys i).id ≠ id) :
    findIndex (pool.keysSize.toNat + 2) pool id (hashOf id) = .missing := by
  obtain ⟨j, hj, hkey, -⟩ | ⟨-, hmissing⟩ := h.findIndex_cases id
  · exact absurd hkey (hnone j hj)
  · exact hmissing

/-- What is found is the key. -/
theorem Table.key_of_findIndex (h : Table hashOf pool)
    (hfound : findIndex (pool.keysSize.toNat + 2) pool id (hashOf id) = .found i) :
    i < pool.keysSize.toNat ∧ (pool.keys i).id = id := by
  obtain ⟨j, hj, hkey, hj'⟩ | ⟨-, hmissing⟩ := h.findIndex_cases id
  · obtain rfl := Walk.found.inj (hj'.symm.trans hfound)
    exact ⟨hj, hkey⟩
  · exact absurd (hmissing.symm.trans hfound) (by simp)

/-! ## A new key -/

/-- A new entry is linked to the head, or to a value that ends the chain. -/
theorem linkTo_toInt (pool : Pool) (bucket : UInt32) :
    (pool.linkTo bucket).toInt = (pool.heads bucket.toNat).toInt ∧
        0 ≤ (pool.heads bucket.toNat).toInt ∨
      (pool.heads bucket.toNat).toInt < 0 := by
  unfold Pool.linkTo
  dsimp only
  split
  · next hneg => exact Or.inr hneg
  · next hpos => exact Or.inl ⟨rfl, by omega⟩

/-- There is one key more. -/
theorem keysSize_append (hn : pool.keysSize.toNat < 2 ^ 31) {view : View} :
    (pool.append id hash view).keysSize.toNat = pool.keysSize.toNat + 1 := by
  show (pool.keysSize + 1).toNat = _
  rw [UInt32.toNat_add]
  have : (1 : UInt32).toNat = 1 := rfl
  omega

/-- A table with room has buckets. -/
theorem headsSize_pos_of_hasRoom (hn : pool.keysSize.toNat < 2 ^ 31) (hroom : pool.hasRoom = true) :
    0 < pool.headsSize := by
  unfold Pool.hasRoom at hroom
  simp only [Bool.and_eq_true, decide_eq_true_eq] at hroom
  have hdesired := UInt32.le_iff_toNat_le.mp hroom.2
  rw [UInt32.lt_iff_toNat_lt]
  simp only [UInt32.toNat_add, UInt32.toNat_shiftRight] at hdesired
  have h1 : (1 : UInt32).toNat = 1 := rfl
  have h0 : (0 : UInt32).toNat = 0 := rfl
  have h2 : 2 ^ (1 % 32) = 2 := rfl
  rw [h1, Nat.shiftRight_eq_div_pow, h2] at hdesired
  have hsmall : (pool.keysSize.toNat + 1) % 2 ^ 32 = pool.keysSize.toNat + 1 :=
    Nat.mod_eq_of_lt (by omega)
  rw [hsmall, Nat.mod_eq_of_lt (by omega)] at hdesired
  omega

/-- The chain that the new key is put before reaches what the bucket reached, and ends. -/
theorem Table.ends_linkTo (h : Table hashOf pool) {bucket : UInt32}
    (hbucket : bucket < pool.headsSize)
    (hlink : (pool.linkTo bucket).toInt < pool.keysSize.toNat) :
    Ends pool.keysSize.toNat pool.nextInt (pool.linkTo bucket).toInt := by
  rcases linkTo_toInt pool bucket with ⟨hsame, -⟩ | hneg
  · rw [hsame]
    exact h.ends _ (UInt32.lt_iff_toNat_lt.mp hbucket)
  · by_cases hpos : (pool.linkTo bucket).toInt < 0
    · exact .neg hpos
    · -- what wraps to an index comes into the chain of that key
      obtain ⟨i, hi⟩ := Int.eq_ofNat_of_zero_le (Int.not_lt.mp hpos)
      rw [hi] at hlink ⊢
      have hlt : i < pool.keysSize.toNat := by exact_mod_cast hlink
      have hreached := h.reached i hlt
      have hsome : (hashOf (pool.keys i).id % pool.headsSize).toNat < pool.headsSize.toNat := by
        rw [UInt32.toNat_mod]
        exact Nat.mod_lt _ (UInt32.lt_iff_toNat_lt.mp (h.heads_pos
          (UInt32.lt_iff_toNat_lt.mpr (Nat.lt_of_le_of_lt (Nat.zero_le i) hlt))))
      exact (h.ends _ hsome).of_reaches hreached

/-- The new entry is linked to the head that was. -/
theorem nextInt_append {view : View} : (pool.append id hash view).nextInt =
    Function.update pool.nextInt pool.keysSize.toNat
      (pool.linkTo (hash % pool.headsSize)).toInt := by
  funext i
  show (Function.update pool.next _ _ i).toInt = _
  by_cases hi : i = pool.keysSize.toNat
  · subst hi
    rw [Function.update_self, Function.update_self]
  · rw [Function.update_of_ne hi, Function.update_of_ne hi]
    rfl

/-- It is the head of its bucket. -/
theorem heads_append (hn : pool.keysSize.toNat < 2 ^ 31) {view : View} (b : ℕ) :
    ((pool.append id hash view).heads b).toInt =
      Function.update (fun b => (pool.heads b).toInt) (hash % pool.headsSize).toNat
        (pool.keysSize.toNat : ℤ) b := by
  show (Function.update pool.heads _ _ b).toInt = _
  by_cases hb : b = (hash % pool.headsSize).toNat
  · subst hb
    rw [Function.update_self, Function.update_self]
    have hcast : pool.keysSize.toInt32 = Int32.ofNat pool.keysSize.toNat := by
      rw [← UInt32.toInt32_ofNat', UInt32.ofNat_toNat]
    rw [hcast, Int32.toInt_ofNat_of_lt hn]
  · rw [Function.update_of_ne hb, Function.update_of_ne hb]

/-- The other keys stay. -/
theorem keys_append_of_lt {view : View} (hi : i < pool.keysSize.toNat) :
    (pool.append id hash view).keys i = pool.keys i :=
  Function.update_of_ne hi.ne _ _

theorem keys_append_self {view : View} :
    (pool.append id hash view).keys pool.keysSize.toNat = ⟨id, 0⟩ :=
  Function.update_self ..

/-- A new key that is linked right keeps the table. -/
theorem Table.append (h : Table hashOf pool) (hroom : pool.hasRoom = true)
    (hn : pool.keysSize.toNat < 2 ^ 31)
    (hnew : ∀ i < pool.keysSize.toNat, (pool.keys i).id ≠ id)
    (hlink : (pool.linkTo (hashOf id % pool.headsSize)).toInt < pool.keysSize.toNat)
    (view : View) : Table hashOf (pool.append id (hashOf id) view) where
  distinct i hi j hj heq := by
    rw [keysSize_append hn] at hi hj
    rcases Nat.lt_succ_iff_lt_or_eq.mp hi with hi | rfl
    · rw [keys_append_of_lt hi] at heq
      rcases Nat.lt_succ_iff_lt_or_eq.mp hj with hj | rfl
      · rw [keys_append_of_lt hj] at heq
        exact h.distinct i hi j hj heq
      · rw [keys_append_self] at heq
        exact absurd heq (hnew i hi)
    · rw [keys_append_self] at heq
      rcases Nat.lt_succ_iff_lt_or_eq.mp hj with hj | rfl
      · rw [keys_append_of_lt hj] at heq
        exact absurd heq.symm (hnew j hj)
      · rfl
  reached i hi := by
    rw [keysSize_append hn] at hi ⊢
    have hhead (other : UInt32) : ((pool.append id (hashOf id) view).head other).toInt =
        Function.update (fun b => (pool.heads b).toInt) (hashOf id % pool.headsSize).toNat
          (pool.keysSize.toNat : ℤ) (other % pool.headsSize).toNat := heads_append hn _
    rw [nextInt_append, hhead]
    rcases Nat.lt_succ_iff_lt_or_eq.mp hi with hi | rfl
    · rw [keys_append_of_lt hi]
      have hreached := h.reached i hi
      apply Reaches.push hreached
      intro hb
      -- an old key of this bucket is now reached through the new one, which links to the old head
      rcases linkTo_toInt pool (hashOf id % pool.headsSize) with ⟨hsame, -⟩ | hneg
      · rw [hsame, ← hb]
        exact hreached
      · rw [← hb] at hneg
        exact absurd hreached.nonneg (Int.not_le.mpr hneg)
    · rw [keys_append_self, Function.update_self]
      exact .here (Nat.lt_succ_self _)
  ends b hb := by
    rw [keysSize_append hn, nextInt_append, heads_append hn]
    apply Ends.push (h.ends b hb)
    intro hbucket
    apply h.ends_linkTo _ hlink
    rw [UInt32.lt_iff_toNat_lt, ← hbucket]
    exact hb
  heads_pos _ := by
    show 0 < pool.headsSize
    exact headsSize_pos_of_hasRoom hn hroom
  heads_ne_null := h.heads_ne_null
  next_size := rfl

/-! ## What a store leaves -/

/-- A view has the whole text below `2 ^ 32` bytes. -/
theorem text_viewOf : (viewOf text).text = text ↔ text.length < 2 ^ 32 := by
  unfold viewOf View.text
  rw [UInt32.toNat_ofNat']
  constructor
  · intro h
    have hlength := congrArg List.length h
    rw [List.length_take] at hlength
    omega
  · intro h
    rw [Nat.mod_eq_of_lt h]
    exact List.take_length

/-- Another text leaves the keys. -/
theorem findIndex_overwrite (fuel : ℕ) (view : View) :
    findIndex fuel (pool.overwrite i view) id hash = findIndex fuel pool id hash := by
  have hfrom (steps : UInt32) (index : Int32) :
      findFrom (pool.overwrite i view) id fuel steps index = findFrom pool id fuel steps index := by
    induction fuel generalizing steps index with
    | zero => rfl
    | succ fuel ih =>
      rw [findFrom, findFrom]
      simp only [ih]
      rfl
  unfold findIndex
  rw [hfrom]
  rfl

/-- So it keeps the table. -/
theorem Table.overwrite (h : Table hashOf pool) (view : View) :
    Table hashOf (pool.overwrite i view) :=
  ⟨h.distinct, h.reached, h.ends, h.heads_pos, h.heads_ne_null, h.next_size⟩

/-- The other handles have the text they had. -/
theorem Table.same_overwrite (h : Table hashOf pool) (hid : (pool.keys i).id = id)
    (hother : other ≠ id) (view : View) : SameHandle hashOf pool (pool.overwrite i view) other := by
  refine ⟨findIndex_overwrite _ view, ?_⟩
  intro j hfound
  have hj := h.key_of_findIndex hfound
  have hne : j ≠ i := by
    rintro rfl
    exact hother (hj.2.symm.trans hid)
  exact Function.update_of_ne hne _ _

/-- Every other handle is found where it was. -/
theorem Table.same_append (h : Table hashOf pool) {view : View}
    (h' : Table hashOf (pool.append id (hashOf id) view)) (hn : pool.keysSize.toNat < 2 ^ 31)
    (hother : other ≠ id) : SameHandle hashOf pool (pool.append id (hashOf id) view) other := by
  obtain ⟨i, hi, hid, hfound⟩ | ⟨hnone, hmissing⟩ := h.findIndex_cases other
  · have hi' : i < (pool.append id (hashOf id) view).keysSize.toNat := by
      rw [keysSize_append hn]
      omega
    have hid' : ((pool.append id (hashOf id) view).keys i).id = other := by
      rw [keys_append_of_lt hi, hid]
    refine ⟨(h'.findIndex_of_key hi' hid').trans hfound.symm, ?_⟩
    intro j hj
    have hlt := (h.key_of_findIndex hj).1
    exact Function.update_of_ne hlt.ne _ _
  · have hnone' : ∀ i < (pool.append id (hashOf id) view).keysSize.toNat,
        ((pool.append id (hashOf id) view).keys i).id ≠ other := by
      intro i hi
      rw [keysSize_append hn] at hi
      rcases Nat.lt_succ_iff_lt_or_eq.mp hi with hi | rfl
      · rw [keys_append_of_lt hi]
        exact hnone i hi
      · rw [keys_append_self]
        exact hother.symm
    refine ⟨(h'.findIndex_of_not_key hnone').trans hmissing.symm, ?_⟩
    intro j hj
    exact absurd (hmissing.symm.trans hj) (by simp)

/-- A text that fits is kept. -/
theorem Table.keeps (h : Table hashOf pool) (hcreate : create handle = some id)
    (hhash : hashOf id = stringHash handle) (hfits : Fits hashOf create pool handle text) :
    Keeps hashOf create pool handle text true := by
  obtain ⟨hkey, hnew⟩ := hfits id hcreate
  have hstore : store create pool handle text true = storeKey pool id (hashOf id) text := by
    simp only [store, handleKey, hcreate, Option.map_some, hhash, if_true]
  unfold Keeps
  rw [hstore]
  obtain ⟨i, hi, hid, hfound⟩ | ⟨hnone, hmissing⟩ := h.findIndex_cases id
  · obtain ⟨hvalue, hlength⟩ := hkey i hi hid
    right
    refine ⟨pool.overwrite i (viewOf text), id, ?_, hcreate, h.overwrite _,
      ⟨i, (findIndex_overwrite _ _).trans hfound, ?_⟩,
      fun other hother => h.same_overwrite hid hother _⟩
    · simp only [storeKey, hfound, hvalue, if_true]
    · show (Function.update pool.values i (viewOf text) i).text = text
      rw [Function.update_self]
      exact text_viewOf.mpr hlength
  · by_cases hroom : pool.hasRoom = true
    · obtain ⟨hlength, hn, hlink⟩ := hnew hnone hroom
      have h' := h.append hroom hn hnone hlink (viewOf text)
      right
      refine ⟨_, id, ?_, hcreate, h', ⟨pool.keysSize.toNat, ?_, ?_⟩,
        fun other hother => h.same_append h' hn hother⟩
      · simp only [storeKey, hmissing, hroom, if_true]
      · apply h'.findIndex_of_key
        · rw [keysSize_append hn]
          exact Nat.lt_succ_self _
        · rw [keys_append_self]
      · show (Function.update pool.values pool.keysSize.toNat (viewOf text) _).text = text
        rw [Function.update_self]
        exact text_viewOf.mpr hlength
    · left
      simp only [storeKey, hmissing, hroom, Bool.false_eq_true, if_false]

/-- A text that is kept fits. -/
theorem Table.fits (h : Table hashOf pool) (hcreate : create handle = some id)
    (hhash : hashOf id = stringHash handle) (hkeeps : Keeps hashOf create pool handle text true) :
    Fits hashOf create pool handle text := by
  intro id' hcreate'
  obtain rfl : id = id' := Option.some.inj (hcreate.symm.trans hcreate')
  have hstore : store create pool handle text true = storeKey pool id (hashOf id) text := by
    simp only [store, handleKey, hcreate, Option.map_some, hhash, if_true]
  unfold Keeps at hkeeps
  rw [hstore] at hkeeps
  constructor
  · intro i hi hid
    have hfound := h.findIndex_of_key hi hid
    simp only [storeKey, hfound] at hkeeps
    by_cases hvalue : i < pool.valuesSize.toNat
    · refine ⟨hvalue, ?_⟩
      simp only [hvalue, if_true] at hkeeps
      rcases hkeeps with hfalse | ⟨pool', id', hsome, hcreate', h', ⟨j, hj, htext⟩, -⟩
      · exact absurd (congrArg Prod.fst (Option.some.inj hfalse)) (by simp)
      · obtain rfl : id = id' := Option.some.inj (hcreate.symm.trans hcreate')
        obtain rfl := (Prod.mk.inj (Option.some.inj hsome)).2
        obtain rfl := Walk.found.inj (hfound.symm.trans ((findIndex_overwrite _ _).symm.trans hj))
        rw [show (pool.overwrite i (viewOf text)).values i = viewOf text from
          Function.update_self ..] at htext
        exact text_viewOf.mp htext
    · simp only [hvalue, if_false] at hkeeps
      rcases hkeeps with hnone | ⟨_, _, hnone, -⟩ <;> exact absurd hnone (by simp)
  · intro hnone hroom
    have hmissing := h.findIndex_of_not_key hnone
    simp only [storeKey, hmissing, hroom, if_true] at hkeeps
    rcases hkeeps with hfalse | ⟨pool', id', hsome, hcreate', h', ⟨j, hj, htext⟩, -⟩
    · exact absurd (congrArg Prod.fst (Option.some.inj hfalse)) (by simp)
    · obtain rfl : id = id' := Option.some.inj (hcreate.symm.trans hcreate')
      obtain rfl := (Prod.mk.inj (Option.some.inj hsome)).2
      -- the larger pool has no more than 2 ^ 31 keys either
      have hn : pool.keysSize.toNat < 2 ^ 31 := by
        have hle := h.size_le
        have hle' : (pool.keysSize + 1).toNat ≤ 2 ^ 31 := h'.size_le
        rw [UInt32.toNat_add, show (1 : UInt32).toNat = 1 from rfl] at hle'
        omega
      have hself : findIndex ((pool.append id (hashOf id) (viewOf text)).keysSize.toNat + 2)
          (pool.append id (hashOf id) (viewOf text)) id (hashOf id) =
          .found pool.keysSize.toNat := by
        apply h'.findIndex_of_key
        · rw [keysSize_append hn]
          exact Nat.lt_succ_self _
        · rw [keys_append_self]
      obtain rfl := Walk.found.inj (hself.symm.trans hj)
      refine ⟨?_, hn, ?_⟩
      · rw [show (pool.append id (hashOf id) (viewOf text)).values pool.keysSize.toNat =
          viewOf text from Function.update_self ..] at htext
        exact text_viewOf.mp htext
      · have hbucket : (hashOf id % pool.headsSize).toNat < pool.headsSize.toNat := by
          rw [UInt32.toNat_mod]
          exact Nat.mod_lt _ (UInt32.lt_iff_toNat_lt.mp (headsSize_pos_of_hasRoom hn hroom))
        have hends := h'.ends _ hbucket
        rw [keysSize_append hn, nextInt_append, heads_append hn, Function.update_self] at hends
        have hends' := hends.tail
        rw [Function.update_self] at hends'
        have hlt := hends'.lt
        by_contra hlink
        have hself : (pool.linkTo (hashOf id % pool.headsSize)).toInt = pool.keysSize.toNat := by
          omega
        apply not_ends_self _ hends
        rw [Function.update_self]
        exact hself

/-! ## Any table -/

/-- Whether the loop's counter lets it go on to the entry after so many. -/
def Counted (pool : Pool) (k : ℕ) : Prop :=
  k ≤ pool.keysSize.toNat ∨ pool.keysSize.toNat = 2 ^ 32 - 1

theorem Counted.of_le {k j : ℕ} (h : Counted pool k) (hj : j ≤ k) : Counted pool j :=
  h.imp_left fun hk => hj.trans hk

/-- The loop counts in 32 bits. -/
theorem counted_iff (k : ℕ) (hk : k ≤ pool.keysSize.toNat + 1) :
    UInt32.ofNat k ≤ pool.keysSize ↔ Counted pool k := by
  have hlt := pool.keysSize.toNat_lt
  rw [UInt32.le_iff_toNat_le, UInt32.toNat_ofNat', Counted]
  omega

theorem Passes.of_le {head : Int32} {k j : ℕ} (h : Passes pool id head k) (hj : j ≤ k) :
    Passes pool id head j :=
  fun l hl => h l (hl.trans hj)

theorem ofNat_le_of_counted {k : ℕ} (h : Counted pool k) : UInt32.ofNat k ≤ pool.keysSize := by
  have hlt := pool.keysSize.toNat_lt
  have hmod := Nat.mod_le k (2 ^ 32)
  rw [UInt32.le_iff_toNat_le, UInt32.toNat_ofNat']
  rcases h with hle | hfull
  · omega
  · omega

/-- An entry that the loop passes. -/
theorem findFrom_pass {head : Int32} {fuel k : ℕ} (hcounted : Counted pool k)
    (hpasses : Passes pool id head k)
    (hlink : (chainAt pool head k).toInt.toNat < pool.nextSize.toNat) :
    findFrom pool id (fuel + 1) (UInt32.ofNat k) (chainAt pool head k) =
      findFrom pool id fuel (UInt32.ofNat (k + 1)) (chainAt pool head (k + 1)) := by
  obtain ⟨hpos, hlt, hid⟩ := hpasses k (Nat.le_refl k)
  rw [findFrom, UInt32.ofNat_add]
  simp only [hpos, ofNat_le_of_counted hcounted, Nat.not_le.mpr hlt, hid, Nat.not_le.mpr hlink,
    and_self, if_true, if_false]
  rfl

/-- The entries that the loop passes, one after the other. -/
theorem findFrom_passes {head : Int32} {fuel k : ℕ}
    (hpass : ∀ j < k, Counted pool j ∧ Passes pool id head j ∧
      (chainAt pool head j).toInt.toNat < pool.nextSize.toNat) :
    findFrom pool id (fuel + k) 0 head =
      findFrom pool id fuel (UInt32.ofNat k) (chainAt pool head k) := by
  induction k generalizing fuel with
  | zero => rfl
  | succ k ih =>
    obtain ⟨hcounted, hpasses, hlink⟩ := hpass k (Nat.lt_succ_self k)
    rw [Nat.add_comm k 1, ← Nat.add_assoc, ih fun j hj => hpass j (Nat.lt_succ_of_lt hj),
      findFrom_pass hcounted hpasses hlink, Nat.add_comm 1 k]

/-- The loop returns where it passes no further entry. -/
theorem findFrom_stop {head : Int32} {k : ℕ}
    (hstop : ¬ (UInt32.ofNat k ≤ pool.keysSize ∧ 0 ≤ (chainAt pool head k).toInt ∧
      (chainAt pool head k).toInt.toNat < pool.keysSize.toNat ∧
      (pool.keys (chainAt pool head k).toInt.toNat).id ≠ id)) :
    findFrom pool id 1 (UInt32.ofNat k) (chainAt pool head k) ≠ .running ∧
      findFrom pool id 1 (UInt32.ofNat k) (chainAt pool head k) ≠ .outside := by
  rw [findFrom]
  dsimp only
  split
  · next hgo =>
    split
    · simp
    · next hlt =>
      split
      · simp
      · next hid => exact absurd ⟨hgo.2, hgo.1, Nat.lt_of_not_le hlt, hid⟩ hstop
  · simp

/-- What the loop does where a passed entry has no link. -/
theorem findFrom_outside {head : Int32} {fuel k : ℕ} (hcounted : Counted pool k)
    (hpasses : Passes pool id head k)
    (hlink : ¬ (chainAt pool head k).toInt.toNat < pool.nextSize.toNat) :
    findFrom pool id (fuel + 1) (UInt32.ofNat k) (chainAt pool head k) = .outside := by
  obtain ⟨hpos, hlt, hid⟩ := hpasses k (Nat.le_refl k)
  rw [findFrom]
  simp only [hpos, ofNat_le_of_counted hcounted, Nat.not_le.mpr hlt, hid,
    Nat.le_of_not_lt hlink, and_self, if_true, if_false]

/-- The loop passes over what it can, and stops by itself or at a null pointer. -/
theorem findFrom_zero_or (head : Int32) (fuel k : ℕ)
    (hpass : ∀ j < k, Counted pool j ∧ Passes pool id head j ∧
      (chainAt pool head j).toInt.toNat < pool.nextSize.toNat) (hfuel : fuel ≤ k) :
    findFrom pool id fuel 0 head = .running := by
  have hpasses : findFrom pool id (0 + fuel) 0 head =
      findFrom pool id 0 (UInt32.ofNat fuel) (chainAt pool head fuel) :=
    findFrom_passes fun j hj => hpass j (hj.trans_le hfuel)
  rw [Nat.zero_add] at hpasses
  rw [hpasses]
  rfl

/-- Whether the loop comes past the entry after so many. -/
def Goes (pool : Pool) (id : UInt32) (head : Int32) (k : ℕ) : Prop :=
  Counted pool k ∧ Passes pool id head k

theorem Goes.of_le {head : Int32} {k j : ℕ} (h : Goes pool id head k) (hj : j ≤ k) :
    Goes pool id head j :=
  ⟨h.1.of_le hj, h.2.of_le hj⟩

/-- A link is missing only where the loop reads it. -/
theorem link_of_safe {head : Int32} {fuel : ℕ}
    (hrunning : findFrom pool id fuel 0 head ≠ .running)
    (houtside : findFrom pool id fuel 0 head ≠ .outside) (k : ℕ) (hgoes : Goes pool id head k) :
    (chainAt pool head k).toInt.toNat < pool.nextSize.toNat := by
  induction k using Nat.strong_induction_on with
  | _ k ih =>
    by_contra hlink
    have hpass : ∀ j < k, Counted pool j ∧ Passes pool id head j ∧
        (chainAt pool head j).toInt.toNat < pool.nextSize.toNat := by
      intro j hj
      have hgoes' := hgoes.of_le hj.le
      exact ⟨hgoes'.1, hgoes'.2, ih j hj hgoes'⟩
    by_cases hfuel : fuel ≤ k
    · exact hrunning (findFrom_zero_or head fuel k hpass hfuel)
    · obtain ⟨rest, rfl⟩ : ∃ rest, fuel = rest + 1 + k := ⟨fuel - k - 1, by omega⟩
      rw [findFrom_passes hpass, findFrom_outside hgoes.1 hgoes.2 hlink] at houtside
      exact houtside rfl

/-- The loop returns where it does not come past all entries. -/
theorem safe_of_link {head : Int32} {k : ℕ} (hstop : ¬ Goes pool id head k)
    (hlink : ∀ j, Goes pool id head j →
      (chainAt pool head j).toInt.toNat < pool.nextSize.toNat) :
    ∃ fuel, findFrom pool id fuel 0 head ≠ .running ∧ findFrom pool id fuel 0 head ≠ .outside := by
  induction k using Nat.strong_induction_on with
  | _ k ih =>
    by_cases hbefore : ∃ j < k, ¬ Goes pool id head j
    · obtain ⟨j, hj, hstop'⟩ := hbefore
      exact ih j hj hstop'
    · have hgoes : ∀ j < k, Goes pool id head j := by
        intro j hj
        by_contra hstop'
        exact hbefore ⟨j, hj, hstop'⟩
      refine ⟨1 + k, ?_⟩
      rw [findFrom_passes fun j hj => ⟨(hgoes j hj).1, (hgoes j hj).2, hlink j (hgoes j hj)⟩]
      apply findFrom_stop
      rintro ⟨hcounter, hpos, hlt, hid⟩
      have hpasses : Passes pool id head k := by
        intro j hj
        rcases Nat.lt_or_eq_of_le hj with hj | rfl
        · exact (hgoes j hj).2 j (Nat.le_refl j)
        · exact ⟨hpos, hlt, hid⟩
      have hk : k ≤ pool.keysSize.toNat + 1 ∨ pool.keysSize.toNat = 2 ^ 32 - 1 := by
        by_cases hzero : k = 0
        · omega
        · rcases (hgoes (k - 1) (by omega)).1 with hle | hfull
          · omega
          · exact Or.inr hfull
      apply hstop
      rcases hk with hk | hfull
      · exact ⟨(counted_iff k hk).mp hcounter, hpasses⟩
      · exact ⟨Or.inr hfull, hpasses⟩

/-- `find_index` returns and stays within its arrays just where each key that it passes has a
link. -/
theorem safe_iff_linked (pool : Pool) (id hash : UInt32) : Safe pool id hash ↔ Linked pool id hash := by
  by_cases hempty : pool.headsSize = 0 ∨ pool.headsNull = true
  · have hmissing (fuel : ℕ) : findIndex fuel pool id hash = .missing := if_pos hempty
    apply iff_of_true
    · exact ⟨0, by rw [hmissing]; simp, by rw [hmissing]; simp⟩
    · intro hsize hnull
      exact absurd hempty (by simp [hsize, hnull])
  · have hfind (fuel : ℕ) : findIndex fuel pool id hash =
        findFrom pool id fuel 0 (pool.head hash) := if_neg hempty
    rw [not_or, Bool.not_eq_true] at hempty
    unfold Safe
    simp only [hfind]
    constructor
    · rintro ⟨fuel, hrunning, houtside⟩ - -
      have hlink := link_of_safe hrunning houtside
      refine ⟨fun k hcounted hpasses => hlink k ⟨hcounted, hpasses⟩, ?_⟩
      intro hfull
      by_contra hpasses
      rw [not_exists_not] at hpasses
      apply hrunning
      apply findFrom_zero_or _ fuel fuel _ (Nat.le_refl fuel)
      exact fun j _ => ⟨Or.inr hfull, hpasses j, hlink j ⟨Or.inr hfull, hpasses j⟩⟩
    · intro hlinked
      obtain ⟨hlink, hends⟩ := hlinked hempty.1 hempty.2
      have hstop : ∃ k, ¬ Goes pool id (pool.head hash) k := by
        by_cases hfull : pool.keysSize.toNat = 2 ^ 32 - 1
        · obtain ⟨k, hk⟩ := hends hfull
          exact ⟨k, fun hgoes => hk hgoes.2⟩
        · refine ⟨pool.keysSize.toNat + 1, fun hgoes => ?_⟩
          rcases hgoes.1 with hle | hfull'
          · omega
          · exact hfull hfull'
      obtain ⟨k, hk⟩ := hstop
      exact safe_of_link hk fun j hgoes => hlink j hgoes.1 hgoes.2

/-! ## The two functions -/

/-- A store under the lock keeps a pool in order just where what it writes fits, and a search
returns and stays within its arrays just where each key that it passes has a link. -/
theorem store_find_iff (hashOf : UInt32 → UInt32) (create : Bytes → Option UInt32)
    (hhash : ∀ handle id, create handle = some id → hashOf id = stringHash handle) :
    (∀ pool handle text locked, Table hashOf pool →
      (Keeps hashOf create pool handle text locked ↔
        (locked = true → Fits hashOf create pool handle text))) ∧
      ∀ pool id hash, Safe pool id hash ↔ Linked pool id hash := by
  refine ⟨?_, safe_iff_linked⟩
  intro pool handle text locked h
  cases hcreate : create handle with
  | none =>
    apply iff_of_true
    · left
      simp only [store, handleKey, hcreate, Option.map_none]
    · intro _ id hid
      rw [hcreate] at hid
      exact absurd hid (by simp)
  | some id =>
    cases locked with
    | false =>
      apply iff_of_true
      · left
        simp only [store, handleKey, hcreate, Option.map_some, Bool.false_eq_true, if_false]
      · exact fun hlocked => absurd hlocked (by simp)
    | true =>
      simp only [forall_const]
      exact ⟨h.fits hcreate (hhash handle id hcreate), h.keeps hcreate (hhash handle id hcreate)⟩

/-- An engine that has made three handles. -/
def createOf (handle : Bytes) : Option UInt32 :=
  if handle = bytes "h3" then some 7
  else if handle = bytes "h4" then some 8
  else if handle = bytes "h5" then some 9
  else none

def hashOfMade (id : UInt32) : UInt32 :=
  if id = 7 then stringHash (bytes "h3")
  else if id = 8 then stringHash (bytes "h4")
  else stringHash (bytes "h5")

/-- An id that was made has the hash of its text. -/
theorem hashOfMade_eq (handle : Bytes) (id : UInt32) (h : createOf handle = some id) :
    hashOfMade id = stringHash handle := by
  unfold createOf at h
  split at h
  · next hhandle =>
    obtain rfl := Option.some.inj h
    rw [hhandle]
    rfl
  · split at h
    · next hhandle =>
      obtain rfl := Option.some.inj h
      rw [hhandle]
      rfl
    · obtain ⟨hhandle, hid⟩ := Option.ite_none_right_eq_some.mp h
      obtain rfl := Option.some.inj hid
      rw [hhandle]
      rfl

/-- The first two of the handles, in one of five buckets, and room for the third. -/
def twoTexts : Pool where
  headsNull := false
  headsSize := 5
  heads b := if b = 0 then 1 else -1
  nextCapacity := 4
  nextSize := 2
  next i := if i = 0 then -2 else 0
  keysCapacity := 4
  keysSize := 2
  keys i := if i = 0 then ⟨7, 0⟩ else ⟨8, 0⟩
  valuesSize := 4
  values i := if i = 0 then viewOf (bytes "Fire") else viewOf (bytes "Ice")

theorem twoTexts_table : Table hashOfMade twoTexts where
  distinct := by decide
  reached i hi := by
    -- both keys are in the first bucket, the second one before the first
    have hhead : ∀ i < 2, (twoTexts.head (hashOfMade (twoTexts.keys i).id)).toInt = 1 := by
      decide +kernel
    rw [hhead i hi]
    have hcases : i = 0 ∨ i = 1 := by
      have : i < 2 := hi
      omega
    rcases hcases with rfl | rfl
    · exact ⟨[1, 0], .step (.last 0), by decide⟩
    · exact .here (by decide)
  ends b _ := by
    by_cases hb : b = 0
    · subst hb
      exact .step (by decide) (.step (by decide) (.neg (by decide)))
    · apply Ends.neg
      show (if b = 0 then (1 : Int32) else -1).toInt < 0
      rw [if_neg hb]
      decide
  heads_pos := by decide
  heads_ne_null _ := rfl
  next_size := rfl

/-- One of the two texts is overwritten, a third is filed before them, and a search for a handle
without a text goes through both. -/
theorem store_find_iff_twoTexts :
    Keeps hashOfMade createOf twoTexts (bytes "h3") (bytes "Frost") true ∧
      Keeps hashOfMade createOf twoTexts (bytes "h5") (bytes "Acid") true ∧
      Safe twoTexts 9 (hashOfMade 9) := by
  obtain ⟨hstore, hfind⟩ := store_find_iff hashOfMade createOf hashOfMade_eq
  refine ⟨(hstore _ _ _ _ twoTexts_table).mpr ?_, (hstore _ _ _ _ twoTexts_table).mpr ?_,
    (hfind _ _ _).mpr ?_⟩
  · intro _ id hid
    obtain rfl : 7 = id := Option.some.inj (by simpa [createOf] using hid)
    exact ⟨by decide, by decide⟩
  · intro _ id hid
    obtain rfl : 9 = id := Option.some.inj hid
    refine ⟨by decide, fun _ _ => ⟨by decide, by decide, ?_⟩⟩
    decide +kernel
  · intro _ _
    refine ⟨?_, fun hfull => absurd hfull (by decide)⟩
    intro k _ _
    cases k with
    | zero => decide +kernel
    | succ k =>
      show (if _ = 0 then (-2 : Int32) else 0).toInt.toNat < 2
      split <;> decide

/-- A pool of one key that has no link. -/
def unlinked : Pool where
  headsNull := false
  headsSize := 1
  heads _ := 0
  nextCapacity := 1
  nextSize := 0
  next _ := -1
  keysCapacity := 1
  keysSize := 1
  keys _ := ⟨7, 0⟩
  valuesSize := 1
  values _ := viewOf []

/-- The search for another handle reads the link. -/
theorem unlinked_outside : findIndex 1 unlinked 8 0 = .outside ∧ ¬ Safe unlinked 8 0 := by
  have houtside (fuel : ℕ) : findIndex (fuel + 1) unlinked 8 0 = .outside := rfl
  refine ⟨houtside 0, ?_⟩
  rintro ⟨fuel, hrunning, hsafe⟩
  cases fuel with
  | zero => exact hrunning rfl
  | succ fuel => exact hsafe (houtside fuel)

end TextPool
end Bg3le
