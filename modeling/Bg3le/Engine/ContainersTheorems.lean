import Bg3le.Engine.Containers

/-!
# Insertions keep the engine's maps

An entry is filed under the hash of its key when the chain of that bucket comes to it. Both
insertions file a new entry before the others of its bucket, in place or while a map is rebuilt,
so every key stays where its chain finds it, as long as the heads are read and allocated whole.
-/

namespace Bg3le
namespace Engine

open Chains

/-! ## The primes -/

theorem nearestSmallMultiHashMapPrime_pos (num : ℕ) : 0 < nearestSmallMultiHashMapPrime num := by
  have hall : ∀ prime ∈ smallMultiHashMapPrimes, 0 < prime := by decide
  unfold nearestSmallMultiHashMapPrime
  cases hfind : smallMultiHashMapPrimes.find? (num ≤ ·) with
  | none => decide
  | some prime => exact hall prime (List.mem_of_find?_eq_some hfind)

/-- The primes are fewer than 2^30 up to the largest number that is wanted for 2^29 keys. -/
theorem nearestSmallMultiHashMapPrime_lt {num : ℕ} (h : num ≤ 3 * 2 ^ 28) :
    nearestSmallMultiHashMapPrime num < 2 ^ 30 := by
  have hall : ∀ prime ∈ smallMultiHashMapPrimes.take 38, prime < 2 ^ 30 := by decide
  have hlast : 0x30000059 ∈ smallMultiHashMapPrimes.take 38 := by decide
  have hfound : ((smallMultiHashMapPrimes.take 38).find? (num ≤ ·)).isSome = true := by
    rw [List.find?_isSome]
    exact ⟨_, hlast, decide_eq_true (by omega)⟩
  obtain ⟨prime, hfind⟩ := Option.isSome_iff_exists.mp hfound
  have hwhole : smallMultiHashMapPrimes.find? (num ≤ ·) = some prime := by
    rw [← List.take_append_drop 38 smallMultiHashMapPrimes, List.find?_append, hfind,
      Option.some_or]
  unfold nearestSmallMultiHashMapPrime
  rw [hwhole, Option.getD_some]
  exact hall prime (List.mem_of_find?_eq_some hfind)

variable {K V : Type} {hash : K → Option ℕ} {m m' : RawMap K V} {key k : K} {value : V}
  {bucket buckets i n : ℕ} {prev : ℤ}

namespace RawMap

/-- Every key is filed: its bucket's chain comes to its entry. The arrays have the room that
their sizes and capacities promise. -/
structure Filed (hash : K → Option ℕ) (m : RawMap K V) : Prop where
  distinct : ∀ i < m.keysSize, ∀ j < m.keysSize, m.keys.get i = m.keys.get j → i = j
  filed : ∀ i < m.keysSize, ∃ h, hash (m.keys.get i) = some h ∧
    Reaches m.keysSize m.nextIds.get (m.hashKeys.get (h % m.buckets)) i
  buckets_pos : 0 < m.keysSize → 0 < m.buckets
  headsRoom : m.buckets ≤ m.hashKeys.room
  keysRoom : m.keysSize ≤ m.keys.room
  nextRoom : m.keysSize ≤ m.nextIds.room
  valuesRoom : m.keysSize ≤ m.values.room
  keysCapacity : m.keysCapacity ≤ m.keys.room
  nextCapacity : m.nextCapacity ≤ m.nextIds.room
  valuesCapacity : m.valuesCapacity ≤ m.values.room

/-- The representation invariant: every key is filed, and every chain ends in something
negative. -/
structure Chained (hash : K → Option ℕ) (m : RawMap K V) : Prop extends Filed hash m where
  ends : ∀ b < m.buckets, Ends m.keysSize m.nextIds.get (m.hashKeys.get b)

/-- The bucket counts that the engine and its insertions choose. `ResizeHashMap` wants half as many
buckets again as there are keys, so this is every map that never had more than 2^29 keys. -/
def Sized (m : RawMap K V) : Prop :=
  m.buckets = 0 ∨ ∃ wanted ≤ 3 * 2 ^ 28, m.buckets = nearestSmallMultiHashMapPrime wanted

/-- The representation invariant with the engine's own bucket count. -/
structure Kept (hash : K → Option ℕ) (m : RawMap K V) : Prop extends Chained hash m where
  sized : m.Sized

/-- The value that the chain of a key's bucket leads to. -/
def lookup [DecidableEq K] (hash : K → Option ℕ) (m : RawMap K V) (key : K) : Option V :=
  (hash key).bind fun h =>
    (walk m.keysSize m.nextIds.get (m.keys.get · = key) (m.keysSize + 1)
      (m.hashKeys.get (h % m.buckets))).map m.values.get

/-- The map with a new entry stored in place. -/
def appended (m : RawMap K V) (bucket : ℕ) (key : K) (value : V) : RawMap K V :=
  { m with
    hashKeys := ⟨m.hashKeys.room, Function.update m.hashKeys.get bucket (m.keysSize : ℤ)⟩
    nextIds := ⟨m.nextIds.room,
      Function.update m.nextIds.get m.keysSize (linkTo (m.heads bucket) bucket)⟩
    keys := ⟨m.keys.room, Function.update m.keys.get m.keysSize key⟩
    values := ⟨m.values.room, Function.update m.values.get m.keysSize value⟩
    nextSize := m.keysSize + 1
    valuesSize := if m.valuesSize ≠ 0 then m.keysSize + 1 else m.valuesSize
    keysSize := m.keysSize + 1 }

/-- The other map has one more entry. -/
structure Extends (m m' : RawMap K V) (key : K) (value : V) : Prop where
  keysSize : m'.keysSize = m.keysSize + 1
  keys : m'.keys.get = Function.update m.keys.get m.keysSize key
  values : m'.values.get = Function.update m.values.get m.keysSize value

/-! ## Lookups -/

section Lookup

variable [DecidableEq K]

/-- In a filed map a lookup finds exactly the entry that has the key. -/
theorem Filed.lookup_iff {v : V} (hm : m.Filed hash) :
    m.lookup hash key = some v ↔ ∃ i < m.keysSize, m.keys.get i = key ∧ m.values.get i = v := by
  unfold lookup
  constructor
  · intro h
    obtain ⟨_, -, h⟩ := Option.bind_eq_some_iff.mp h
    obtain ⟨i, hi, hv⟩ := Option.map_eq_some_iff.mp h
    obtain ⟨hkey, hreaches⟩ := walk_spec hi
    exact ⟨i, hreaches.lt, of_decide_eq_true hkey, hv⟩
  · rintro ⟨i, hi, rfl, rfl⟩
    obtain ⟨h, hhash, hreaches⟩ := hm.filed i hi
    have hwalk := walk_of_reaches hreaches (p := (m.keys.get · = m.keys.get i))
      (decide_eq_true rfl) (fun j hj hkey => hm.distinct j hj i hi (of_decide_eq_true hkey))
      (Nat.le_succ _)
    rw [hhash, Option.bind_some, hwalk, Option.map_some]

/-- Maps with the same entries give the same. -/
theorem Filed.lookup_eq (hm : m.Filed hash) (hm' : m'.Filed hash)
    (h : ∀ v, (∃ i < m'.keysSize, m'.keys.get i = k ∧ m'.values.get i = v) ↔
      ∃ i < m.keysSize, m.keys.get i = k ∧ m.values.get i = v) :
    m'.lookup hash k = m.lookup hash k := by
  apply Option.ext
  intro v
  rw [hm.lookup_iff, hm'.lookup_iff]
  exact h v

/-- A map extended by a key finds it and answers as before for the others. -/
theorem Extends.lookup (h : m.Extends m' key value) (hm : m.Filed hash) (hm' : m'.Filed hash) :
    m'.lookup hash key = some value ∧ ∀ k ≠ key, m'.lookup hash k = m.lookup hash k := by
  constructor
  · rw [hm'.lookup_iff]
    refine ⟨m.keysSize, by rw [h.keysSize]; exact Nat.lt_succ_self _, ?_, ?_⟩
    · rw [h.keys, Function.update_self]
    · rw [h.values, Function.update_self]
  · intro k hk
    apply hm.lookup_eq hm'
    intro v
    rw [h.keysSize, h.keys, h.values]
    constructor
    · rintro ⟨i, hi, hkey, hv⟩
      have hne : i ≠ m.keysSize := by
        rintro rfl
        rw [Function.update_self] at hkey
        exact hk hkey.symm
      rw [Function.update_of_ne hne] at hkey hv
      exact ⟨i, by omega, hkey, hv⟩
    · rintro ⟨i, hi, hkey, hv⟩
      refine ⟨i, Nat.lt_succ_of_lt hi, ?_, ?_⟩
      · rwa [Function.update_of_ne hi.ne]
      · rwa [Function.update_of_ne hi.ne]

end Lookup

/-! ## Overwriting a value -/

/-- The map with the value of an entry overwritten. -/
def overwritten (m : RawMap K V) (i : ℕ) (value : V) : RawMap K V :=
  { m with values := ⟨m.values.room, Function.update m.values.get i value⟩ }

/-- Overwriting a value files nothing anew. -/
theorem Filed.overwritten (hm : m.Filed hash) : (m.overwritten i value).Filed hash :=
  ⟨hm.distinct, hm.filed, hm.buckets_pos, hm.headsRoom, hm.keysRoom, hm.nextRoom, hm.valuesRoom,
    hm.keysCapacity, hm.nextCapacity, hm.valuesCapacity⟩

/-- An overwritten value is found, and the others answer as before. -/
theorem Filed.lookup_overwritten [DecidableEq K] (hm : m.Filed hash) (value : V)
    (hi : i < m.keysSize) (hkey : m.keys.get i = key) :
    (m.overwritten i value).lookup hash key = some value ∧
      ∀ k ≠ key, (m.overwritten i value).lookup hash k = m.lookup hash k := by
  constructor
  · rw [hm.overwritten.lookup_iff]
    exact ⟨i, hi, hkey, Function.update_self ..⟩
  · intro k hk
    apply hm.lookup_eq hm.overwritten
    intro v
    have hne (j : ℕ) (hj : m.keys.get j = k) : j ≠ i := by
      rintro rfl
      exact hk (hj.symm.trans hkey)
    constructor
    · rintro ⟨j, hj, hkj, hv⟩
      change Function.update m.values.get i value j = v at hv
      rw [Function.update_of_ne (hne j hkj)] at hv
      exact ⟨j, hj, hkj, hv⟩
    · rintro ⟨j, hj, hkj, hv⟩
      refine ⟨j, hj, hkj, ?_⟩
      change Function.update m.values.get i value j = v
      rwa [Function.update_of_ne (hne j hkj)]

theorem store_eq {buffer : Buffer V} (hi : i < buffer.room) :
    buffer.store i value = some ⟨buffer.room, Function.update buffer.get i value⟩ :=
  if_pos hi

/-! ## A new entry in place -/

theorem linkTo_of_nonneg (h : 0 ≤ prev) : linkTo prev bucket = prev :=
  if_neg (Int.not_lt.mpr h)

/-- The end of a chain is kept as a negative link. -/
theorem linkTo_neg (h : prev < 0) (hbucket : bucket < 2 ^ 30) : linkTo prev bucket < 0 := by
  have hself : int32 bucket = bucket := Int.bmod_eq_of_le (by omega) (by omega)
  have hlink : int32 (-2 - bucket) = -2 - bucket := Int.bmod_eq_of_le (by omega) (by omega)
  rw [linkTo, if_pos h, hself, hlink]
  omega

/-- The heads read are the buckets, counted in thirty bits. -/
theorem headsRead_eq (m : RawMap K V) : m.headsRead = m.buckets % 2 ^ 30 := by
  unfold headsRead
  omega

theorem heads_of_lt (h : bucket < m.headsRead) : m.heads bucket = m.hashKeys.get bucket :=
  if_pos h

/-- Where there is room an entry is appended in place. -/
theorem appendInPlace_eq (hm : m.Filed hash) (hroom : m.hasRoom = true)
    (hbucket : bucket < m.buckets) :
    m.appendInPlace bucket key value = some (m.appended bucket key value) := by
  unfold hasRoom at hroom
  simp only [Bool.and_eq_true, decide_eq_true_eq] at hroom
  obtain ⟨⟨⟨-, hkeys⟩, hnext⟩, hvalues⟩ := hroom
  unfold appendInPlace
  simp only [store_eq (hvalues.trans_le hm.valuesCapacity),
    store_eq (hkeys.trans_le hm.keysCapacity), store_eq (hnext.trans_le hm.nextCapacity),
    store_eq (hbucket.trans_le hm.headsRoom), Option.bind_eq_bind, Option.bind_some]
  rfl

theorem extends_appended : m.Extends (m.appended bucket key value) key value := ⟨rfl, rfl, rfl⟩

/-- Distinct keys and a new one. -/
theorem distinct_extended (hdistinct : ∀ i < n, ∀ j < n, m.keys.get i = m.keys.get j → i = j)
    (hnew : ∀ i < n, m.keys.get i ≠ key) :
    ∀ i < n + 1, ∀ j < n + 1, Function.update m.keys.get n key i =
      Function.update m.keys.get n key j → i = j := by
  intro i hi j hj heq
  rcases Nat.lt_succ_iff_lt_or_eq.mp hi with hi | rfl
  · rcases Nat.lt_succ_iff_lt_or_eq.mp hj with hj | rfl
    · rw [Function.update_of_ne hi.ne, Function.update_of_ne hj.ne] at heq
      exact hdistinct i hi j hj heq
    · rw [Function.update_of_ne hi.ne, Function.update_self] at heq
      exact absurd heq (hnew i hi)
  · rcases Nat.lt_succ_iff_lt_or_eq.mp hj with hj | rfl
    · rw [Function.update_of_ne hj.ne, Function.update_self] at heq
      exact absurd heq.symm (hnew j hj)
    · rfl

/-- The head that is read for a bucket leads to every key filed there. -/
def HeadLeads (hash : K → Option ℕ) (m : RawMap K V) (bucket : ℕ) : Prop :=
  ∀ i < m.keysSize, ∀ h, hash (m.keys.get i) = some h → h % m.buckets = bucket →
    Reaches m.keysSize m.nextIds.get (m.heads bucket) i

theorem Sized.buckets_lt (h : m.Sized) : m.buckets < 2 ^ 30 := by
  rcases h with hzero | ⟨wanted, hwanted, hbuckets⟩
  · rw [hzero]
    decide
  · rw [hbuckets]
    exact nearestSmallMultiHashMapPrime_lt hwanted

/-- With a bucket count of the engine's, every head is read. -/
theorem Kept.headLeads (hm : m.Kept hash) (bucket : ℕ) : m.HeadLeads hash bucket := by
  intro i hi h hhash hb
  obtain ⟨h', hhash', hreaches⟩ := hm.filed i hi
  obtain rfl : h = h' := Option.some.inj (hhash.symm.trans hhash')
  have hlt : bucket < m.headsRead := by
    rw [headsRead_eq, Nat.mod_eq_of_lt hm.sized.buckets_lt, ← hb]
    exact Nat.mod_lt _ (hm.buckets_pos (Nat.zero_lt_of_lt hi))
  rw [heads_of_lt hlt, ← hb]
  exact hreaches

/-- An entry appended at its bucket's head keeps the map filed. -/
theorem Filed.appended (hm : m.Filed hash) (value : V) (hroom : m.hasRoom = true)
    (hnew : ∀ i < m.keysSize, m.keys.get i ≠ key) {h : ℕ} (hhash : hash key = some h)
    (hhead : m.HeadLeads hash (h % m.buckets)) :
    (m.appended (h % m.buckets) key value).Filed hash := by
  unfold hasRoom at hroom
  simp only [Bool.and_eq_true, decide_eq_true_eq] at hroom
  obtain ⟨⟨⟨hpos, hkeys⟩, hnext⟩, hvalues⟩ := hroom
  refine ⟨distinct_extended hm.distinct hnew, ?_, fun _ => hm.buckets_pos hpos, hm.headsRoom,
    hkeys.trans_le hm.keysCapacity, hnext.trans_le hm.nextCapacity,
    hvalues.trans_le hm.valuesCapacity, hm.keysCapacity, hm.nextCapacity, hm.valuesCapacity⟩
  intro i hi
  change ∃ h', hash (Function.update m.keys.get m.keysSize key i) = some h' ∧ _
  rcases Nat.lt_succ_iff_lt_or_eq.mp hi with hi | rfl
  · rw [Function.update_of_ne hi.ne]
    obtain ⟨h', hhash', hreaches⟩ := hm.filed i hi
    refine ⟨h', hhash', hreaches.push fun hb => ?_⟩
    have hleads := hhead i hi h' hhash' hb
    rwa [linkTo_of_nonneg hleads.nonneg]
  · rw [Function.update_self]
    refine ⟨h, hhash, ?_⟩
    change Reaches _ _ (Function.update m.hashKeys.get (h % m.buckets) (m.keysSize : ℤ)
      (h % m.buckets)) _
    rw [Function.update_self]
    exact .here (Nat.lt_succ_self _)

/-- The head that is read leads to an end: the first entry's chain does, too. -/
theorem Chained.ends_head (hm : m.Chained hash) (hpos : 0 < m.keysSize)
    (hbucket : bucket < m.buckets) :
    Ends m.keysSize m.nextIds.get (linkTo (m.heads bucket) bucket) := by
  by_cases hread : bucket < m.headsRead
  · rw [heads_of_lt hread]
    by_cases hneg : m.hashKeys.get bucket < 0
    · apply Ends.neg
      apply linkTo_neg hneg
      rw [headsRead_eq] at hread
      omega
    · rw [linkTo_of_nonneg (Int.not_lt.mp hneg)]
      exact hm.ends bucket hbucket
  · have hzero : m.heads bucket = 0 := if_neg hread
    rw [hzero, linkTo_of_nonneg (Int.le_refl 0)]
    obtain ⟨h, -, hreaches⟩ := hm.filed 0 hpos
    exact (hm.ends _ (Nat.mod_lt _ (hm.buckets_pos hpos))).of_reaches hreaches

/-- An entry appended at its bucket's head keeps the chains. -/
theorem Chained.appended (hm : m.Chained hash) (value : V) (hroom : m.hasRoom = true)
    (hnew : ∀ i < m.keysSize, m.keys.get i ≠ key) {h : ℕ} (hhash : hash key = some h)
    (hhead : m.HeadLeads hash (h % m.buckets)) :
    (m.appended (h % m.buckets) key value).Chained hash where
  toFiled := hm.toFiled.appended value hroom hnew hhash hhead
  ends b hb := by
    have hpos : 0 < m.keysSize := by
      unfold hasRoom at hroom
      simp only [Bool.and_eq_true, decide_eq_true_eq] at hroom
      exact hroom.1.1.1
    exact (hm.ends b hb).push fun _ =>
      hm.ends_head hpos (Nat.mod_lt _ (hm.buckets_pos hpos))

/-! ## A new map in fresh buffers -/

/-- After filing anew each entry is reached from its bucket. -/
theorem refile_reaches (bucketOf : ℕ → ℕ) (t : ℕ) :
    ∀ i < t, Reaches t (refile bucketOf t).2 ((refile bucketOf t).1 (bucketOf i)) i := by
  induction t with
  | zero => exact fun i hi => absurd hi (Nat.not_lt_zero i)
  | succ t ih =>
    intro i hi
    rcases Nat.lt_succ_iff_lt_or_eq.mp hi with hi | rfl
    · have hreaches := ih i hi
      refine hreaches.push fun hb => ?_
      rw [← hb]
      rwa [linkTo_of_nonneg hreaches.nonneg]
    · simp only [refile, Function.update_self]
      exact .here (Nat.lt_succ_self i)

/-- After filing anew each chain ends. -/
theorem refile_ends {bucketOf : ℕ → ℕ} (hbuckets : ∀ i, bucketOf i < 2 ^ 30) (t b : ℕ) :
    Ends t (refile bucketOf t).2 ((refile bucketOf t).1 b) := by
  induction t generalizing b with
  | zero => exact .neg (show (-1 : ℤ) < 0 by decide)
  | succ t ih =>
    refine (ih b).push fun _ => ?_
    by_cases hneg : (refile bucketOf t).1 (bucketOf t) < 0
    · exact .neg (linkTo_neg hneg (hbuckets t))
    · rw [linkTo_of_nonneg (Int.not_lt.mp hneg)]
      exact ih (bucketOf t)

/-- The map with a new entry, filed anew in so many buckets. -/
def rebuilt (m : RawMap K V) (buckets : ℕ) (hashes : ℕ → ℕ) (key : K) (value : V) : RawMap K V where
  hashKeys := ⟨buckets, (refile (fun i => hashes i % buckets) (m.keysSize + 1)).1⟩
  buckets := buckets
  hashKeysSize := m.hashKeysSize
  nextIds := ⟨m.keysSize + 1, (refile (fun i => hashes i % buckets) (m.keysSize + 1)).2⟩
  nextCapacity := m.keysSize + 1
  nextSize := m.keysSize + 1
  keys := ⟨m.keysSize + 1, Function.update m.keys.get m.keysSize key⟩
  keysCapacity := m.keysSize + 1
  keysSize := m.keysSize + 1
  values := ⟨m.keysSize + 1, Function.update m.values.get m.keysSize value⟩
  valuesCapacity := m.keysSize + 1
  valuesSize := if m.valuesSize = 0 then 0 else m.keysSize + 1

/-- The heads are allocated whole for fewer than 2^30 buckets, and for no more. -/
theorem rebuild_eq {hashes : ℕ → ℕ} (hpos : 0 < buckets) :
    m.rebuild buckets hashes key value =
      if buckets < 2 ^ 30 then some (m.rebuilt buckets hashes key value) else none := by
  have hroom : 4 * buckets % 2 ^ 32 / 4 = buckets % 2 ^ 30 := by omega
  unfold rebuild
  simp only [hroom]
  by_cases hlt : buckets < 2 ^ 30
  · rw [if_pos hlt, if_neg (by rw [Nat.mod_eq_of_lt hlt]; omega)]
    simp only [Nat.mod_eq_of_lt hlt]
    rfl
  · rw [if_neg hlt, if_pos]
    right
    have := Nat.mod_lt buckets (show 0 < 2 ^ 30 by decide)
    omega

theorem extends_rebuilt {hashes : ℕ → ℕ} : m.Extends (m.rebuilt buckets hashes key value) key value :=
  ⟨rfl, rfl, rfl⟩

/-- A map rebuilt with one more entry is filed. -/
theorem Filed.rebuilt (hm : m.Filed hash) (value : V) (hpos : 0 < buckets)
    (hnew : ∀ i < m.keysSize, m.keys.get i ≠ key) {hashes : ℕ → ℕ}
    (hhashes : ∀ i < m.keysSize + 1,
      hash (Function.update m.keys.get m.keysSize key i) = some (hashes i)) :
    (m.rebuilt buckets hashes key value).Filed hash where
  distinct := distinct_extended hm.distinct hnew
  filed i hi := ⟨hashes i, hhashes i hi, refile_reaches _ _ i hi⟩
  buckets_pos _ := hpos
  headsRoom := le_rfl
  keysRoom := le_rfl
  nextRoom := le_rfl
  valuesRoom := le_rfl
  keysCapacity := le_rfl
  nextCapacity := le_rfl
  valuesCapacity := le_rfl

/-- A map rebuilt with one more entry is chained. -/
theorem Chained.rebuilt (hm : m.Chained hash) (value : V) (hpos : 0 < buckets)
    (hlt : buckets < 2 ^ 30) (hnew : ∀ i < m.keysSize, m.keys.get i ≠ key) {hashes : ℕ → ℕ}
    (hhashes : ∀ i < m.keysSize + 1,
      hash (Function.update m.keys.get m.keysSize key i) = some (hashes i)) :
    (m.rebuilt buckets hashes key value).Chained hash where
  toFiled := hm.toFiled.rebuilt value hpos hnew hhashes
  ends b _ := refile_ends (fun _ => (Nat.mod_lt _ hpos).trans hlt) _ b

/-! ## A small map -/

/-- The keys 2 and 7 in one bucket of five, with or without room for a third. -/
def pairMap (capacity : ℕ) : RawMap UInt32 UInt32 where
  hashKeys := ⟨5, fun b => if b = 2 then 1 else -1⟩
  buckets := 5
  hashKeysSize := 5
  nextIds := ⟨capacity, fun i => if i = 1 then 0 else -4⟩
  nextCapacity := capacity
  nextSize := 2
  keys := ⟨capacity, fun i => if i = 0 then 2 else 7⟩
  keysCapacity := capacity
  keysSize := 2
  values := ⟨capacity, fun i => if i = 0 then 20 else 70⟩
  valuesCapacity := capacity
  valuesSize := 0

theorem pairMap_kept {capacity : ℕ} (hcapacity : 2 ≤ capacity) :
    (pairMap capacity).Kept (some ∘ UInt32.toNat) where
  distinct := by
    show ∀ i < 2, ∀ j < 2, (if i = 0 then (2 : UInt32) else 7) = (if j = 0 then 2 else 7) → i = j
    decide
  filed i hi := by
    have hwalk : ∀ i < 2, walk 2 (pairMap 2).nextIds.get (· = i) 3
        ((pairMap 2).hashKeys.get (((pairMap 2).keys.get i).toNat % 5)) = some i := by
      decide
    exact ⟨_, rfl, (walk_spec (hwalk i hi)).2⟩
  buckets_pos _ := Nat.zero_lt_succ 4
  headsRoom := le_rfl
  keysRoom := hcapacity
  nextRoom := hcapacity
  valuesRoom := hcapacity
  keysCapacity := le_rfl
  nextCapacity := le_rfl
  valuesCapacity := le_rfl
  ends b _ := by
    have hend : Ends 2 (fun i => if i = 1 then 0 else -4) (1 : ℕ) := by
      apply Ends.step (by decide)
      exact Ends.step (c := 0) (by decide) (.neg (by decide))
    show Ends 2 _ (if b = 2 then 1 else -1)
    split
    · exact hend
    · exact .neg (by decide)
  sized := .inr ⟨5, by decide, rfl⟩

end RawMap

end Engine
end Bg3le
