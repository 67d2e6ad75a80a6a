import Bg3le.Engine.ContainersTheorems

/-!
# Maps of fixed strings

`fsMapInsert` keeps a map of fixed strings: whichever of its three ways it takes, every key stays
under its hash, the key it was given has the new value and no other key a different one. It reads
the heads by a count of 32 bits, which is all of them for the bucket counts that the engine and
its insertions choose.
-/

namespace Bg3le
namespace Engine

open Chains

variable {V : Type} {hash : UInt32 → Option ℕ} {nearestPrime : ℕ → ℕ} {heap : Heap}
  {m : RawMap UInt32 V} {key : UInt32} {value : V}

/-- What an insertion owes. Refused, it leaves the map as it was; done, the map is kept and gives
the key its value, and every other key what it gave before. -/
def KeepsMap (hash : UInt32 → Option ℕ) (m : RawMap UInt32 V) (key : UInt32) (value : V) :
    Option (Option ℕ × RawMap UInt32 V) → Prop
  | none => False
  | some (none, m') => m' = m
  | some (some _, m') => m'.Kept hash ∧ m'.lookup hash key = some value ∧
      ∀ k ≠ key, m'.lookup hash k = m.lookup hash k

/-- The insertion gets to a new entry: nothing is refused, and the key is none of the map's. -/
structure AddsEntry (hash : UInt32 → Option ℕ) (heap : Heap) (m : RawMap UInt32 V) (key : UInt32)
    (h : ℕ) : Prop where
  ready : heap.allocatorReady = true
  taken : m.refused = false
  sampled : m.sampleFiled hash = true
  new : ∀ i < m.keysSize, m.keys.get i ≠ key
  hashed : hash key = some h

theorem RawMap.Filed.readable {m : RawMap UInt32 V} (hm : m.Filed hash) :
    ¬ (0 < m.keysSize ∧ (m.keys.room < m.keysSize ∨ m.nextIds.room < m.keysSize) ∨
      0 < m.buckets ∧ m.hashKeys.room < m.headsRead) := by
  have hkeys := hm.keysRoom
  have hnext := hm.nextRoom
  have hheads := hm.headsRoom
  rw [RawMap.headsRead_eq]
  have := Nat.mod_le m.buckets (2 ^ 30)
  omega

/-- The hashes of the keys are known. -/
theorem RawMap.Filed.hashes_eq (hm : m.Filed hash) :
    m.hashes hash = some fun i => (hash (m.keys.get i)).getD 0 := by
  unfold RawMap.hashes
  rw [if_pos]
  apply List.all_eq_true.mpr
  intro i hi
  obtain ⟨h, hhash, -⟩ := hm.filed i (List.mem_range.mp hi)
  rw [hhash]
  rfl

theorem find_keys_none (hnew : ∀ i < m.keysSize, m.keys.get i ≠ key) :
    (List.range m.keysSize).find? (m.keys.get · = key) = none := by
  apply List.find?_eq_none.mpr
  intro i hi
  simpa using hnew i (List.mem_range.mp hi)

/-- Where it gets to a new entry, the insertion stores it in place or rebuilds. -/
theorem fsMapInsert_of_adds {h : ℕ} (hm : m.Chained hash) (hprime : ∀ num, 0 < nearestPrime num)
    (hadds : AddsEntry hash heap m key h) :
    fsMapInsert hash nearestPrime heap m key value =
      if m.hasRoom then some (some m.keysSize, m.appended (h % m.buckets) key value)
      else if heap.gives then
        if nearestPrime (m.keysSize + 1 + 2) < 2 ^ 30 then
          some (some m.keysSize, m.rebuilt (nearestPrime (m.keysSize + 1 + 2))
            (Function.update (fun i => (hash (m.keys.get i)).getD 0) m.keysSize h) key value)
        else none
      else some (none, m) := by
  unfold fsMapInsert
  have hvalues : ¬ (0 < m.keysSize ∧ m.values.room < m.keysSize) := by
    have := hm.valuesRoom
    omega
  simp only [hadds.ready, hadds.taken, hadds.sampled, hadds.hashed, find_keys_none hadds.new,
    if_neg hm.toFiled.readable, if_neg hvalues, hm.toFiled.hashes_eq, Bool.not_true, Bool.or_false,
    Bool.false_eq_true, if_false]
  split
  · next hroom =>
    have hpos : 0 < m.keysSize := by
      unfold RawMap.hasRoom at hroom
      simp only [Bool.and_eq_true, decide_eq_true_eq] at hroom
      exact hroom.1.1.1
    rw [RawMap.appendInPlace_eq hm.toFiled hroom (Nat.mod_lt _ (hm.buckets_pos hpos))]
    rfl
  · by_cases hgives : heap.gives = true
    · rw [if_neg (by rw [hgives]; decide), if_pos hgives, RawMap.rebuild_eq (hprime _)]
      split <;> rfl
    · rw [if_pos (by simpa using hgives), if_neg hgives]

/-- Where it does not, it refuses or overwrites a value. -/
theorem keepsMap_of_not_adds (hm : m.Kept hash) (hadds : ∀ h, ¬ AddsEntry hash heap m key h) :
    KeepsMap hash m key value (fsMapInsert hash nearestPrime heap m key value) := by
  unfold fsMapInsert
  by_cases hready : (!heap.allocatorReady || m.refused) = true
  · rw [if_pos hready]
    rfl
  rw [if_neg hready, if_neg hm.toFiled.readable]
  by_cases hsampled : (!m.sampleFiled hash) = true
  · rw [if_pos hsampled]
    rfl
  rw [if_neg hsampled]
  split
  · next i hi =>
    have hkey : m.keys.get i = key := by simpa using List.find?_some hi
    have hlt : i < m.keysSize := List.mem_range.mp (List.mem_of_find?_eq_some hi)
    rw [RawMap.store_eq (hlt.trans_le hm.valuesRoom)]
    exact ⟨⟨⟨hm.toFiled.overwritten, hm.ends⟩, hm.sized⟩,
      hm.toFiled.lookup_overwritten value hlt hkey⟩
  · next hnone =>
    split
    · rfl
    · next h hhash =>
      rw [Bool.not_eq_true, Bool.or_eq_false_iff, Bool.not_eq_false'] at hready
      refine absurd ⟨hready.1, hready.2, by simpa using hsampled, ?_, hhash⟩ (hadds h)
      intro i hi hkey
      exact absurd (decide_eq_true hkey) (List.find?_eq_none.mp hnone i (List.mem_range.mpr hi))

/-- The insertion stores the key. -/
structure StoresKey (hash : UInt32 → Option ℕ) (heap : Heap) (m : RawMap UInt32 V)
    (key : UInt32) : Prop where
  ready : heap.allocatorReady = true
  taken : m.refused = false
  sampled : m.sampleFiled hash = true
  stored : (∃ i < m.keysSize, m.keys.get i = key) ∨
    (hash key).isSome = true ∧ (m.hasRoom = true ∨ heap.gives = true)

theorem fsMapInsert_of_stores (hm : m.Chained hash) (hprime : ∀ num, 0 < nearestPrime num)
    (hlt : nearestPrime (m.keysSize + 1 + 2) < 2 ^ 30) (hstores : StoresKey hash heap m key)
    (value : V) :
    ∃ i m', fsMapInsert hash nearestPrime heap m key value = some (some i, m') := by
  by_cases hnew : ∃ i < m.keysSize, m.keys.get i = key
  · obtain ⟨i, hi, hkey⟩ := hnew
    have hfound : ((List.range m.keysSize).find? (m.keys.get · = key)).isSome = true := by
      rw [List.find?_isSome]
      exact ⟨i, List.mem_range.mpr hi, decide_eq_true hkey⟩
    obtain ⟨j, hj⟩ := Option.isSome_iff_exists.mp hfound
    have hjlt : j < m.keysSize := List.mem_range.mp (List.mem_of_find?_eq_some hj)
    unfold fsMapInsert
    simp only [hstores.ready, hstores.taken, hstores.sampled, hj, if_neg hm.toFiled.readable,
      Bool.not_true, Bool.or_false, Bool.false_eq_true, if_false,
      RawMap.store_eq (hjlt.trans_le hm.valuesRoom)]
    exact ⟨_, _, rfl⟩
  · obtain ⟨hhash, hroom⟩ := hstores.stored.resolve_left hnew
    obtain ⟨h, hh⟩ := Option.isSome_iff_exists.mp hhash
    have hadds : AddsEntry hash heap m key h :=
      ⟨hstores.ready, hstores.taken, hstores.sampled, fun i hi hkey => hnew ⟨i, hi, hkey⟩, hh⟩
    rw [fsMapInsert_of_adds hm hprime hadds]
    by_cases hinPlace : m.hasRoom = true
    · rw [if_pos hinPlace]
      exact ⟨_, _, rfl⟩
    · rw [if_neg hinPlace, if_pos (hroom.resolve_left hinPlace), if_pos hlt]
      exact ⟨_, _, rfl⟩

theorem fsMapInsert_of_not_stores (hm : m.Chained hash) (hprime : ∀ num, 0 < nearestPrime num)
    (hstores : ¬ StoresKey hash heap m key) :
    fsMapInsert hash nearestPrime heap m key value = some (none, m) := by
  by_cases hadds : ∃ h, AddsEntry hash heap m key h
  · obtain ⟨h, hadds⟩ := hadds
    have hno (hroom : m.hasRoom = true ∨ heap.gives = true) : False :=
      hstores ⟨hadds.ready, hadds.taken, hadds.sampled,
        .inr ⟨by rw [hadds.hashed]; rfl, hroom⟩⟩
    rw [fsMapInsert_of_adds hm hprime hadds, if_neg fun hroom => hno (.inl hroom),
      if_neg fun hgives => hno (.inr hgives)]
  · unfold fsMapInsert
    by_cases hready : (!heap.allocatorReady || m.refused) = true
    · rw [if_pos hready]
    rw [if_neg hready, if_neg hm.toFiled.readable]
    by_cases hsampled : (!m.sampleFiled hash) = true
    · rw [if_pos hsampled]
    rw [if_neg hsampled]
    rw [Bool.not_eq_true, Bool.or_eq_false_iff, Bool.not_eq_false'] at hready
    have hnew : ∀ i < m.keysSize, m.keys.get i ≠ key := fun i hi hkey =>
      hstores ⟨hready.1, hready.2, by simpa using hsampled, .inl ⟨i, hi, hkey⟩⟩
    rw [find_keys_none hnew]
    cases hhash : hash key with
    | none => rfl
    | some h => exact absurd ⟨h, hready.1, hready.2, by simpa using hsampled, hnew, hhash⟩ hadds

/-- The hashes of a rebuild are those of its keys. -/
theorem hashes_rebuilt {h : ℕ} (hm : m.Filed hash) (hhash : hash key = some h) :
    ∀ i < m.keysSize + 1, hash (Function.update m.keys.get m.keysSize key i) =
      some (Function.update (fun i => (hash (m.keys.get i)).getD 0) m.keysSize h i) := by
  intro i hi
  rcases Nat.lt_succ_iff_lt_or_eq.mp hi with hi | rfl
  · obtain ⟨h', hhash', -⟩ := hm.filed i hi
    rw [Function.update_of_ne hi.ne, Function.update_of_ne hi.ne, hhash', Option.getD_some]
  · rw [Function.update_self, Function.update_self, hhash]

/-- A map that takes another key wants few buckets for a rebuild. -/
theorem wanted_le (htaken : m.refused = false) : m.keysSize + 1 + 2 ≤ 3 * 2 ^ 28 := by
  unfold RawMap.refused at htaken
  simp only [Bool.or_eq_false_iff, decide_eq_false_iff_not] at htaken
  omega

/-- Whatever way it takes, an insertion keeps the map. -/
theorem fsMapInsert_keepsMap (hm : m.Kept hash) :
    KeepsMap hash m key value
      (fsMapInsert hash nearestSmallMultiHashMapPrime heap m key value) := by
  by_cases hadds : ∃ h, AddsEntry hash heap m key h
  · obtain ⟨h, hadds⟩ := hadds
    have hwanted := wanted_le hadds.taken
    rw [fsMapInsert_of_adds hm.toChained nearestSmallMultiHashMapPrime_pos hadds,
      if_pos (nearestSmallMultiHashMapPrime_lt hwanted)]
    by_cases hroom : m.hasRoom = true
    · rw [if_pos hroom]
      have hchained := hm.toChained.appended value hroom hadds.new hadds.hashed (hm.headLeads _)
      exact ⟨⟨hchained, hm.sized⟩, RawMap.extends_appended.lookup hm.toFiled hchained.toFiled⟩
    · rw [if_neg hroom]
      by_cases hgives : heap.gives = true
      · rw [if_pos hgives]
        have hchained := hm.toChained.rebuilt value (nearestSmallMultiHashMapPrime_pos _)
          (nearestSmallMultiHashMapPrime_lt hwanted) hadds.new
          (hashes_rebuilt hm.toFiled hadds.hashed)
        exact ⟨⟨hchained, .inr ⟨_, hwanted, rfl⟩⟩,
          RawMap.extends_rebuilt.lookup hm.toFiled hchained.toFiled⟩
      · rw [if_neg hgives]
        rfl
  · exact keepsMap_of_not_adds hm fun h h' => hadds ⟨h, h'⟩

/-! ## The three ways -/

/-- A value is replaced, a key of the same bucket stored in place, and the map rebuilt. -/
theorem fsMapInsert_pairMap :
    KeepsMap (some ∘ UInt32.toNat) (RawMap.pairMap 4) 2 21
        (fsMapInsert (some ∘ UInt32.toNat) nearestSmallMultiHashMapPrime
          ⟨true, true, true, true, true⟩ (RawMap.pairMap 4) 2 21) ∧
      KeepsMap (some ∘ UInt32.toNat) (RawMap.pairMap 4) 12 120
        (fsMapInsert (some ∘ UInt32.toNat) nearestSmallMultiHashMapPrime
          ⟨true, true, true, true, true⟩ (RawMap.pairMap 4) 12 120) ∧
      KeepsMap (some ∘ UInt32.toNat) (RawMap.pairMap 2) 12 120
        (fsMapInsert (some ∘ UInt32.toNat) nearestSmallMultiHashMapPrime
          ⟨true, true, true, true, true⟩ (RawMap.pairMap 2) 12 120) :=
  ⟨fsMapInsert_keepsMap (RawMap.pairMap_kept (by decide)), fsMapInsert_keepsMap (RawMap.pairMap_kept (by decide)),
    fsMapInsert_keepsMap (RawMap.pairMap_kept (by decide))⟩

end Engine
end Bg3le
