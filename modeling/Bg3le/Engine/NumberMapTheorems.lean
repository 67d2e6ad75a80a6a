import Bg3le.Engine.ContainersTheorems

/-!
# Maps of numbers

Over any run of `intMapInsert`, `intMapFind` gives each key the value it was last given, as long as
the heads are read and allocated whole and no insertion brings the map to more than 2^22 entries:
the insertion takes a map of 2^22 entries and leaves one that `intMapFind` refuses.
-/

namespace Bg3le
namespace Engine

open Chains

variable {K V : Type} [DecidableEq K] {number : K → ℕ} {nearestPrime : ℕ → ℕ} {heap : Heap}
  {m m' : RawMap K V} {key k : K} {value : V} {i : ℕ}

/-- What `intMapFind` finds at a key. -/
def found (number : K → ℕ) (m : RawMap K V) (key : K) : Option V :=
  (intMapFind number m key).map m.values.get

/-! ## Finding -/

theorem findFrom_eq (hm : m.Filed (some ∘ number)) (steps : ℕ) (cur : ℤ) :
    m.findFrom key steps cur =
      walk m.keysSize m.nextIds.get (m.keys.get · = key) steps cur := by
  induction steps generalizing cur with
  | zero => rfl
  | succ steps ih =>
    rw [RawMap.findFrom, walk]
    have hkeys := hm.keysRoom
    have hnext := hm.nextRoom
    split
    · next hcur =>
      rw [if_neg (by omega), if_neg (show ¬ m.nextIds.room ≤ cur.toNat by omega), ih]
      simp only [decide_eq_true_eq]
    · rfl

theorem intMapFind_eq_none_of_lt (h : 2 ^ 22 < m.keysSize) : intMapFind number m key = none :=
  if_pos (.inl h)

theorem found_eq (hm : m.Filed (some ∘ number)) (hsize : m.keysSize ≤ 2 ^ 22) :
    found number m key = m.lookup (some ∘ number) key := by
  unfold found intMapFind RawMap.lookup
  by_cases hbuckets : m.buckets = 0
  · have hzero : m.keysSize = 0 := by
      have := hm.buckets_pos
      omega
    rw [if_pos (.inr hbuckets), hzero]
    simp [walk]
  · have hlt := Nat.mod_lt (number key) (Nat.pos_of_ne_zero hbuckets)
    have hroom := hm.headsRoom
    rw [if_neg (by omega), if_neg (by omega), findFrom_eq hm]
    rfl

/-- The entry that is found. -/
theorem intMapFind_spec (hm : m.Filed (some ∘ number)) (h : intMapFind number m key = some i) :
    i < m.keysSize ∧ m.keys.get i = key := by
  unfold intMapFind at h
  split at h
  · cases h
  split at h
  · cases h
  rw [findFrom_eq hm] at h
  obtain ⟨hkey, hreaches⟩ := walk_spec h
  exact ⟨hreaches.lt, of_decide_eq_true hkey⟩

theorem intMapFind_of_filed (hm : m.Filed (some ∘ number)) (hsize : m.keysSize ≤ 2 ^ 22)
    (hi : i < m.keysSize) : (intMapFind number m (m.keys.get i)).isSome = true := by
  have hlookup : found number m (m.keys.get i) = some (m.values.get i) := by
    rw [found_eq hm hsize, hm.lookup_iff]
    exact ⟨i, hi, rfl, rfl⟩
  obtain ⟨j, hj, -⟩ := Option.map_eq_some_iff.mp hlookup
  rw [hj]
  rfl

/-- What is not found is none of the keys. -/
theorem new_of_intMapFind (hm : m.Filed (some ∘ number)) (hsize : m.keysSize ≤ 2 ^ 22)
    (h : intMapFind number m key = none) : ∀ i < m.keysSize, m.keys.get i ≠ key := by
  rintro i hi rfl
  have hsome := intMapFind_of_filed hm hsize hi
  rw [h] at hsome
  exact absurd hsome (by decide)

/-! ## One insertion -/

/-- The insertion gets to a new entry. -/
structure AddsNumber (number : K → ℕ) (heap : Heap) (m : RawMap K V) (key : K) : Prop where
  ready : heap.allocatorReady = true
  taken : m.refused = false
  new : intMapFind number m key = none

/-- The heads are read and allocated whole, and the map has room for a key in what `intMapFind`
takes. -/
structure StaysFindable (number : K → ℕ) (nearestPrime : ℕ → ℕ) (heap : Heap) (m : RawMap K V)
    (key : K) : Prop where
  size (hadds : AddsNumber number heap m key) (hstores : m.hasRoom = true ∨ heap.gives = true) :
    m.keysSize ≠ 2 ^ 22
  inPlace (hadds : AddsNumber number heap m key) (hroom : m.hasRoom = true) :
    m.HeadLeads (some ∘ number) (number key % m.buckets)
  rebuilt (hadds : AddsNumber number heap m key) (hroom : m.hasRoom = false)
    (hgives : heap.gives = true) : nearestPrime (m.keysSize + 1 + 2) < 2 ^ 30

omit [DecidableEq K] in
theorem keysSize_le_of_taken (h : m.refused = false) : m.keysSize ≤ 2 ^ 22 := by
  unfold RawMap.refused at h
  simp only [Bool.or_eq_false_iff, decide_eq_false_iff_not] at h
  omega

theorem intMapInsert_of_adds (hm : m.Filed (some ∘ number)) (hprime : ∀ num, 0 < nearestPrime num)
    (hadds : AddsNumber number heap m key) :
    intMapInsert number nearestPrime heap m key value =
      if m.hasRoom then some (true, m.appended (number key % m.buckets) key value)
      else if heap.gives then
        if nearestPrime (m.keysSize + 1 + 2) < 2 ^ 30 then
          some (true, m.rebuilt (nearestPrime (m.keysSize + 1 + 2))
            (fun i => number (Function.update m.keys.get m.keysSize key i)) key value)
        else none
      else some (false, m) := by
  have hsize := keysSize_le_of_taken hadds.taken
  have hvalues : ¬ (0 < m.keysSize ∧ m.values.room < m.keysSize) := by
    have := hm.valuesRoom
    omega
  have hreadable : ¬ (0 < m.keysSize ∧ m.keys.room < m.keysSize ∨
      0 < m.buckets ∧ m.hashKeys.room < m.headsRead) := by
    have hkeys := hm.keysRoom
    have hheads := hm.headsRoom
    rw [RawMap.headsRead_eq]
    have := Nat.mod_le m.buckets (2 ^ 30)
    omega
  -- none of the refusals applies to a filed map
  have hsampled : (m.sample.all fun i => (intMapFind number m (m.keys.get i)).isSome) = true := by
    apply List.all_eq_true.mpr
    intro i hi
    exact intMapFind_of_filed hm hsize (List.mem_range.mp (List.mem_filter.mp hi).1)
  unfold intMapInsert
  simp only [hadds.ready, hadds.taken, hadds.new, hsampled, if_neg hreadable, if_neg hvalues,
    Bool.not_true, Bool.or_false, Bool.false_eq_true, if_false]
  split
  · next hroom =>
    have hpos : 0 < m.keysSize := by
      unfold RawMap.hasRoom at hroom
      simp only [Bool.and_eq_true, decide_eq_true_eq] at hroom
      exact hroom.1.1.1
    rw [RawMap.appendInPlace_eq hm hroom (Nat.mod_lt _ (hm.buckets_pos hpos))]
    rfl
  · by_cases hgives : heap.gives = true
    · rw [if_neg (by rw [hgives]; decide), if_pos hgives, RawMap.rebuild_eq (hprime _)]
      split <;> rfl
    · rw [if_pos (by simpa using hgives), if_neg hgives]

/-- What an insertion leaves: the keys filed, and found with the values they are to have. -/
structure Inserted (number : K → ℕ) (m : RawMap K V) (key : K) (value : V) (stored : Bool)
    (m' : RawMap K V) : Prop where
  filed : m'.Filed (some ∘ number)
  refused : stored = false → m' = m
  stored : stored = true → found number m' key = some value ∧
    ∀ k ≠ key, found number m' k = found number m k

theorem Inserted.extends (hm : m.Filed (some ∘ number)) (hsize : m.keysSize < 2 ^ 22)
    (hm' : m'.Filed (some ∘ number)) (h : m.Extends m' key value) :
    Inserted number m key value true m' := by
  have hsize' : m'.keysSize ≤ 2 ^ 22 := by
    rw [h.keysSize]
    exact hsize
  refine ⟨hm', fun h => by simp at h, fun _ => ?_⟩
  obtain ⟨hself, hothers⟩ := h.lookup hm hm'
  refine ⟨(found_eq hm' hsize').trans hself, fun k hk => ?_⟩
  rw [found_eq hm' hsize', found_eq hm hsize.le]
  exact hothers k hk

theorem Inserted.unchanged (hm : m.Filed (some ∘ number)) : Inserted number m key value false m :=
  ⟨hm, fun _ => rfl, fun h => by simp at h⟩

/-- An insertion that keeps the map findable leaves what it is to. -/
theorem intMapInsert_inserted (value : V) (hm : m.Filed (some ∘ number))
    (hprime : ∀ num, 0 < nearestPrime num)
    (hstays : StaysFindable number nearestPrime heap m key) :
    ∃ stored m', intMapInsert number nearestPrime heap m key value = some (stored, m') ∧
      Inserted number m key value stored m' := by
  by_cases hready : (!heap.allocatorReady || m.refused) = true
  · refine ⟨false, m, ?_, .unchanged hm⟩
    unfold intMapInsert
    rw [if_pos hready]
  rw [Bool.not_eq_true, Bool.or_eq_false_iff, Bool.not_eq_false'] at hready
  have hsize := keysSize_le_of_taken hready.2
  -- a key found is overwritten; another is appended, or filed by a rebuild
  cases hfind : intMapFind number m key with
  | some i =>
    obtain ⟨hi, hkey⟩ := intMapFind_spec hm hfind
    refine ⟨true, m.overwritten i value, ?_, hm.overwritten, fun h => by simp at h, fun _ => ?_⟩
    · unfold intMapInsert
      simp only [hready.1, hready.2, hfind, RawMap.store_eq (hi.trans_le hm.valuesRoom)]
      rfl
    · obtain ⟨hself, hothers⟩ := hm.lookup_overwritten value hi hkey
      have hsize' : (m.overwritten i value).keysSize ≤ 2 ^ 22 := hsize
      refine ⟨(found_eq hm.overwritten hsize').trans hself, fun k hk => ?_⟩
      rw [found_eq hm.overwritten hsize', found_eq hm hsize]
      exact hothers k hk
  | none =>
    have hadds : AddsNumber number heap m key := ⟨hready.1, hready.2, hfind⟩
    have hnew := new_of_intMapFind hm hsize hfind
    rw [intMapInsert_of_adds hm hprime hadds]
    by_cases hroom : m.hasRoom = true
    · rw [if_pos hroom]
      have hlt := lt_of_le_of_ne hsize (hstays.size hadds (.inl hroom))
      exact ⟨true, _, rfl, .extends hm hlt
        (hm.appended value hroom hnew rfl (hstays.inPlace hadds hroom)) RawMap.extends_appended⟩
    · rw [if_neg hroom]
      by_cases hgives : heap.gives = true
      · rw [if_pos hgives, if_pos (hstays.rebuilt hadds (by simpa using hroom) hgives)]
        have hlt := lt_of_le_of_ne hsize (hstays.size hadds (.inr hgives))
        exact ⟨true, _, rfl, .extends hm hlt
          (hm.rebuilt value (hprime _) hnew fun _ _ => rfl) RawMap.extends_rebuilt⟩
      · rw [if_neg hgives]
        exact ⟨false, m, rfl, .unchanged hm⟩

/-! ## Runs -/

/-- One call of `intMapInsert`. -/
structure Insertion (K V : Type) where
  heap : Heap
  key : K
  value : V

/-- The insertions that were done, as keys and values in order, and the map they leave. -/
def insertAll (number : K → ℕ) (nearestPrime : ℕ → ℕ) (m : RawMap K V) :
    List (Insertion K V) → Option (List (K × V) × RawMap K V)
  | [] => some ([], m)
  | call :: calls => do
    let (stored, m') ← intMapInsert number nearestPrime call.heap m call.key call.value
    let (rest, last) ← insertAll number nearestPrime m' calls
    return (if stored then (call.key, call.value) :: rest else rest, last)

/-- Every insertion of a run keeps the map findable. -/
def StaysFindableAll (number : K → ℕ) (nearestPrime : ℕ → ℕ) (m : RawMap K V) :
    List (Insertion K V) → Prop
  | [] => True
  | call :: calls => StaysFindable number nearestPrime call.heap m call.key ∧
      ∀ stored m', intMapInsert number nearestPrime call.heap m call.key call.value =
        some (stored, m') → StaysFindableAll number nearestPrime m' calls

/-- The value a key was last given. -/
def lastGiven (key : K) (stored : List (K × V)) : Option V :=
  (stored.reverse.find? (·.1 = key)).map Prod.snd

theorem lastGiven_cons (e : K × V) (stored : List (K × V)) :
    lastGiven key (e :: stored) =
      (lastGiven key stored).or (if e.1 = key then some e.2 else none) := by
  unfold lastGiven
  rw [List.reverse_cons, List.find?_append, Option.map_or, List.find?_singleton]
  by_cases h : e.1 = key <;> simp [h]

/-- After a run whose insertions all keep the map findable, every key has the value it was last
given, or else the one it had. -/
theorem insertAll_found {calls : List (Insertion K V)} (hprime : ∀ num, 0 < nearestPrime num)
    (hm : m.Chained (some ∘ number)) (hstays : StaysFindableAll number nearestPrime m calls) :
    ∃ stored m', insertAll number nearestPrime m calls = some (stored, m') ∧
      ∀ key, found number m' key = (lastGiven key stored).or (found number m key) := by
  replace hm := hm.toFiled
  induction calls generalizing m with
  | nil => exact ⟨[], m, rfl, fun key => rfl⟩
  | cons call calls ih =>
    obtain ⟨hfirst, hrest⟩ := hstays
    obtain ⟨stored, m₁, hinsert, hinserted⟩ :=
      intMapInsert_inserted call.value hm hprime hfirst
    obtain ⟨rest, last, hall, hfound⟩ := ih (hrest stored m₁ hinsert) hinserted.filed
    refine ⟨if stored then (call.key, call.value) :: rest else rest, last, ?_, fun key => ?_⟩
    · rw [insertAll, hinsert]
      simp only [Option.bind_eq_bind, Option.bind_some, hall]
      rfl
    · rw [hfound]
      cases stored with
      | false => rw [hinserted.refused rfl]; rfl
      | true =>
        obtain ⟨hself, hothers⟩ := hinserted.stored rfl
        rw [if_pos rfl, lastGiven_cons, Option.or_assoc]
        congr 1
        by_cases hkey : call.key = key
        · rw [if_pos hkey, ← hkey, hself]
          rfl
        · rw [if_neg hkey, hothers key (Ne.symm hkey)]
          rfl

/-! ## Maps with the engine's bucket counts -/

/-- An insertion keeps them, and adds at most one key. -/
theorem intMapInsert_kept {stored : Bool} (hm : m.Kept (some ∘ number))
    (h : intMapInsert number nearestSmallMultiHashMapPrime heap m key value = some (stored, m')) :
    m'.Kept (some ∘ number) ∧ m'.keysSize ≤ m.keysSize + 1 := by
  by_cases hready : (!heap.allocatorReady || m.refused) = true
  · unfold intMapInsert at h
    rw [if_pos hready] at h
    obtain ⟨-, rfl⟩ := Prod.mk.inj (Option.some.inj h)
    exact ⟨hm, Nat.le_succ _⟩
  rw [Bool.not_eq_true, Bool.or_eq_false_iff, Bool.not_eq_false'] at hready
  have hsize := keysSize_le_of_taken hready.2
  cases hfind : intMapFind number m key with
  | some i =>
    obtain ⟨hi, -⟩ := intMapFind_spec hm.toFiled hfind
    unfold intMapInsert at h
    simp only [hready.1, hready.2, hfind, RawMap.store_eq (hi.trans_le hm.valuesRoom)] at h
    obtain ⟨-, rfl⟩ := Prod.mk.inj (Option.some.inj h)
    exact ⟨⟨⟨hm.toFiled.overwritten, hm.ends⟩, hm.sized⟩, Nat.le_succ _⟩
  | none =>
    have hnew := new_of_intMapFind hm.toFiled hsize hfind
    have hwanted : m.keysSize + 1 + 2 ≤ 3 * 2 ^ 28 := by omega
    rw [intMapInsert_of_adds hm.toFiled nearestSmallMultiHashMapPrime_pos
      ⟨hready.1, hready.2, hfind⟩, if_pos (nearestSmallMultiHashMapPrime_lt hwanted)] at h
    split at h
    · next hroom =>
      obtain ⟨-, rfl⟩ := Prod.mk.inj (Option.some.inj h)
      exact ⟨⟨hm.toChained.appended value hroom hnew rfl (hm.headLeads _), hm.sized⟩, le_rfl⟩
    · split at h
      · obtain ⟨-, rfl⟩ := Prod.mk.inj (Option.some.inj h)
        exact ⟨⟨hm.toChained.rebuilt value (nearestSmallMultiHashMapPrime_pos _)
          (nearestSmallMultiHashMapPrime_lt hwanted) hnew fun _ _ => rfl, .inr ⟨_, hwanted, rfl⟩⟩,
          le_rfl⟩
      · obtain ⟨-, rfl⟩ := Prod.mk.inj (Option.some.inj h)
        exact ⟨hm, Nat.le_succ _⟩

/-- With them, a run keeps the map findable as long as it cannot come to 2^22 keys. -/
theorem staysFindableAll_of_kept {calls : List (Insertion K V)} (hm : m.Kept (some ∘ number))
    (hfew : m.keysSize + calls.length ≤ 2 ^ 22) :
    StaysFindableAll number nearestSmallMultiHashMapPrime m calls := by
  induction calls generalizing m with
  | nil => trivial
  | cons call calls ih =>
    rw [List.length_cons] at hfew
    refine ⟨⟨fun _ _ => by omega, fun _ _ => hm.headLeads _, fun _ _ _ => ?_⟩, ?_⟩
    · exact nearestSmallMultiHashMapPrime_lt (by omega)
    · intro stored m' hinsert
      obtain ⟨hkept, hsize⟩ := intMapInsert_kept hm hinsert
      exact ih hkept (by omega)

/-- Two keys stored in place in the bucket of two others, one of them given another value, the map
rebuilt for a fifth key, and a value replaced in the fresh buffers. -/
theorem insertAll_pairMap :
    ∃ stored m', insertAll UInt32.toNat nearestSmallMultiHashMapPrime (RawMap.pairMap 4)
        [⟨⟨true, true, true, true, true⟩, 12, 120⟩, ⟨⟨true, true, true, true, true⟩, 7, 71⟩,
          ⟨⟨true, true, true, true, true⟩, 17, 170⟩, ⟨⟨true, true, true, true, true⟩, 5, 50⟩,
          ⟨⟨true, true, true, true, true⟩, 12, 121⟩] = some (stored, m') ∧
      ∀ key, found UInt32.toNat m' key =
        (lastGiven key stored).or (found UInt32.toNat (RawMap.pairMap 4) key) :=
  have hkept := @RawMap.pairMap_kept 4 (by decide)
  insertAll_found nearestSmallMultiHashMapPrime_pos hkept.toChained
    (staysFindableAll_of_kept hkept (by decide))

example : (insertAll UInt32.toNat nearestSmallMultiHashMapPrime (RawMap.pairMap 4)
    [⟨⟨true, true, true, true, true⟩, 12, 120⟩, ⟨⟨true, true, true, true, true⟩, 7, 71⟩,
      ⟨⟨true, true, true, true, true⟩, 17, 170⟩, ⟨⟨true, true, true, true, true⟩, 5, 50⟩,
      ⟨⟨true, true, true, true, true⟩, 12, 121⟩]).map (fun (_, m) =>
        (m.buckets, [2, 7, 12, 17, 5].map (found UInt32.toNat m))) =
    some (7, [some 20, some 71, some 121, some 170, some 50]) := by
  decide

/-! ## A map that is filled up -/

/-- The keys below 2^22, each in a bucket of its own, of as many as the engine wants for them. -/
def fullMap : RawMap UInt32 UInt32 where
  hashKeys := ⟨0x60000D, fun b => if b < 2 ^ 22 then b else -1⟩
  buckets := 0x60000D
  hashKeysSize := 0x60000D
  nextIds := ⟨2 ^ 22 + 1, fun i => -2 - i⟩
  nextCapacity := 2 ^ 22 + 1
  nextSize := 2 ^ 22
  keys := ⟨2 ^ 22 + 1, UInt32.ofNat⟩
  keysCapacity := 2 ^ 22 + 1
  keysSize := 2 ^ 22
  values := ⟨2 ^ 22 + 1, UInt32.ofNat⟩
  valuesCapacity := 2 ^ 22 + 1
  valuesSize := 2 ^ 22

theorem toNat_ofNat_of_lt_full {i : ℕ} (hi : i < 2 ^ 22) : (UInt32.ofNat i).toNat = i :=
  UInt32.toNat_ofNat_of_lt' (hi.trans (by decide))

theorem fullMap_chained : fullMap.Chained (some ∘ UInt32.toNat) where
  distinct i hi j hj heq := by
    have heq := congrArg UInt32.toNat heq
    change (UInt32.ofNat i).toNat = (UInt32.ofNat j).toNat at heq
    rwa [toNat_ofNat_of_lt_full hi, toNat_ofNat_of_lt_full hj] at heq
  filed i hi := by
    refine ⟨_, rfl, ?_⟩
    show Reaches _ _ (if (UInt32.ofNat i).toNat % 0x60000D < 2 ^ 22 then
      (((UInt32.ofNat i).toNat % 0x60000D : ℕ) : ℤ) else -1) i
    have hmod : i % 0x60000D = i := Nat.mod_eq_of_lt (hi.trans (by decide))
    rw [toNat_ofNat_of_lt_full hi, hmod, if_pos (show i < 2 ^ 22 from hi)]
    exact .here hi
  buckets_pos _ := by decide
  headsRoom := le_rfl
  keysRoom := Nat.le_succ _
  nextRoom := Nat.le_succ _
  valuesRoom := Nat.le_succ _
  keysCapacity := le_rfl
  nextCapacity := le_rfl
  valuesCapacity := le_rfl
  ends b _ := by
    show Ends _ _ (if b < 2 ^ 22 then (b : ℤ) else -1)
    split
    · next hb => exact .step hb (.neg (show -2 - (b : ℤ) < 0 by omega))
    · exact .neg (by decide)

/-- One key more than 2^22, and no key is found. -/
theorem fullMap_loses_keys : ¬ ∀ (nearestPrime : ℕ → ℕ) (m : RawMap UInt32 UInt32)
    (calls : List (Insertion UInt32 UInt32)), (∀ num, 0 < nearestPrime num) →
    m.Chained (some ∘ UInt32.toNat) →
    ∃ stored m', insertAll UInt32.toNat nearestPrime m calls = some (stored, m') ∧
      ∀ key, found UInt32.toNat m' key =
        (lastGiven key stored).or (found UInt32.toNat m key) := by
  intro hall
  obtain ⟨stored, m', hinsert, hfound⟩ := hall (fun num => num + 1) fullMap
    [⟨⟨true, true, true, true, true⟩, 4194304, 7⟩] (fun num => Nat.succ_pos num) fullMap_chained
  have hadds : AddsNumber UInt32.toNat ⟨true, true, true, true, true⟩ fullMap 4194304 :=
    ⟨rfl, by decide +kernel, by decide +kernel⟩
  rw [insertAll, intMapInsert_of_adds fullMap_chained.toFiled (fun num => Nat.succ_pos num) hadds,
    if_pos (by decide)] at hinsert
  obtain ⟨rfl, rfl⟩ := Prod.mk.inj (Option.some.inj hinsert)
  have hlost := hfound 5
  have hnone : found UInt32.toNat (fullMap.appended ((4194304 : UInt32).toNat % fullMap.buckets)
      4194304 7) 5 = none := by
    unfold found
    rw [intMapFind_eq_none_of_lt (show 2 ^ 22 < 2 ^ 22 + 1 by decide)]
    rfl
  rw [hnone] at hlost
  revert hlost
  decide +kernel

end Engine
end Bg3le
