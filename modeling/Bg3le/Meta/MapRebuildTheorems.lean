import Bg3le.Engine.ContainersTheorems
import Bg3le.Meta.MapRebuild

/-!
# A rebuilt map has the other entries as they were

Key, value and hash of an entry are copied from one position, so each key is filed under its own
hash and has the value that it had.
-/

namespace Bg3le
namespace ComponentMeta

open Chains
open Engine

variable {K V : Type} {hash : K → Option ℕ} {nearestPrime : ℕ → ℕ} {heap : Heap}
  {new : V} {m m' : RawMap K V} {key k : K} {i : ℕ}

/-! ## Looking through the keys -/

/-- The key of the entry has a hash, whose bucket's chain comes to the entry. -/
def Reachable (hash : K → Option ℕ) (m : RawMap K V) (i : ℕ) : Prop :=
  ∃ h, hash (m.keys.get i) = some h ∧
    Reaches m.keysSize m.nextIds.get (m.hashKeys.get (h % m.buckets)) i

theorem reached_iff {h : ℕ} : reached m h i = true ↔
    Reaches m.keysSize m.nextIds.get (m.hashKeys.get (h % m.buckets)) i := by
  unfold reached
  constructor
  · intro hsome
    obtain ⟨j, hj⟩ := Option.isSome_iff_exists.mp hsome
    obtain ⟨hsame, hreaches⟩ := walk_spec hj
    rwa [of_decide_eq_true hsame] at hreaches
  · intro hreaches
    have hwalk := walk_of_reaches hreaches (p := (· = i)) (decide_eq_true rfl)
      (fun j _ hj => of_decide_eq_true hj) (Nat.le_succ _)
    rw [hwalk]
    rfl

section

variable [DecidableEq K]

/-- With every entry reachable, the loop ends with an entry of the key, if there is one. -/
theorem findKey_spec {is : List ℕ} (hreach : ∀ i ∈ is, Reachable hash m i) (key : K)
    (found : Option ℕ) :
    ∃ found', findKey hash m key is found = some found' ∧
      (∀ i ∈ found', found = some i ∨ i ∈ is ∧ m.keys.get i = key) ∧
      (found' = none → found = none ∧ ∀ i ∈ is, m.keys.get i ≠ key) := by
  induction is generalizing found with
  | nil => exact ⟨found, rfl, fun i hi => .inl hi, fun hnone => ⟨hnone, nofun⟩⟩
  | cons i is ih =>
    obtain ⟨h, hhash, hreaches⟩ := hreach i List.mem_cons_self
    obtain ⟨found', hfound', hsome, hnone⟩ :=
      ih (fun j hj => hreach j (List.mem_cons_of_mem i hj))
        (if m.keys.get i = key then some i else found)
    refine ⟨found', ?_, ?_, ?_⟩
    · unfold findKey
      rw [hhash]
      dsimp only
      rw [if_pos (reached_iff.mpr hreaches)]
      exact hfound'
    · intro j hj
      rcases hsome j hj with hfirst | ⟨hmem, hkey⟩
      · split_ifs at hfirst with hkey
        · rw [← Option.some.inj hfirst]
          exact .inr ⟨List.mem_cons_self, hkey⟩
        · exact .inl hfirst
      · exact .inr ⟨List.mem_cons_of_mem i hmem, hkey⟩
    · intro hnot
      obtain ⟨hfirst, hrest⟩ := hnone hnot
      split_ifs at hfirst with hkey
      refine ⟨hfirst, fun j hj => ?_⟩
      rcases List.mem_cons.mp hj with rfl | hj
      · exact hkey
      · exact hrest j hj

/-- The loop stops at an entry that is not reachable. -/
theorem findKey_of_unreachable {is : List ℕ} (hi : i ∈ is) (hnot : ¬ Reachable hash m i)
    (found : Option ℕ) : findKey hash m key is found = none := by
  induction is generalizing found with
  | nil => exact absurd hi List.not_mem_nil
  | cons j is ih =>
    unfold findKey
    cases hhash : hash (m.keys.get j) with
    | none => rfl
    | some h =>
      dsimp only
      by_cases hreached : reached m h j
      · rw [if_pos hreached]
        rcases List.mem_cons.mp hi with rfl | hi
        · exact absurd ⟨h, hhash, reached_iff.mp hreached⟩ hnot
        · exact ih hi _
      · rw [if_neg hreached]

end

/-! ## Fresh buffers -/

/-- The entry holds the key and the value. -/
def HasEntry (m : RawMap K V) (key : K) (value : V) : Prop :=
  ∃ i < m.keysSize, m.keys.get i = key ∧ m.values.get i = value

/-- The sizes are those with which a rebuild takes the map. -/
def SizesAgree (m : RawMap K V) : Prop :=
  m.nextSize = m.keysSize ∧ (m.valuesSize = 0 ∨ m.valuesSize = m.keysSize)

/-- Entries of different keys that have hashes are all filed by a rebuild. -/
theorem filed_rebuildWith (hprime : ∀ num, 0 < nearestPrime num) {kept total keyHash : ℕ}
    {order : ℕ → ℕ}
    (hdistinct : ∀ i < total, ∀ j < total,
      copied kept order m.keys.get key i = copied kept order m.keys.get key j → i = j)
    (hhashes : ∀ i < total, hash (copied kept order m.keys.get key i) =
      some (copied kept order (fun i => (hash (m.keys.get i)).getD 0) keyHash i)) :
    (rebuildWith hash nearestPrime m kept total order key keyHash new).Filed hash where
  distinct := hdistinct
  filed i hi := ⟨_, hhashes i hi, RawMap.refile_reaches _ _ i hi⟩
  buckets_pos _ := hprime _
  headsRoom := le_rfl
  keysRoom := by
    show total ≤ if 0 < total then total else 1
    split_ifs <;> omega
  nextRoom := by
    show total ≤ if 0 < total then total else 1
    split_ifs <;> omega
  valuesRoom := by
    show total ≤ if 0 < total then total else 1
    split_ifs <;> omega
  keysCapacity := le_rfl
  nextCapacity := le_rfl
  valuesCapacity := le_rfl

theorem sizesAgree_rebuildWith (kept total keyHash : ℕ) (order : ℕ → ℕ) :
    SizesAgree (rebuildWith hash nearestPrime m kept total order key keyHash new) := by
  refine ⟨rfl, ?_⟩
  show (if m.valuesSize = 0 then 0 else total) = 0 ∨ (if m.valuesSize = 0 then 0 else total) = total
  split_ifs
  · exact .inl rfl
  · exact .inr rfl

theorem hash_getD (hm : m.Filed hash) (hi : i < m.keysSize) :
    hash (m.keys.get i) = some ((hash (m.keys.get i)).getD 0) := by
  obtain ⟨h, hhash, -⟩ := hm.filed i hi
  rw [hhash]
  rfl

/-- The map with the key behind its entries. -/
theorem rebuildWith_insert (hm : m.Filed hash) (hprime : ∀ num, 0 < nearestPrime num) {keyHash : ℕ}
    (hkey : hash key = some keyHash) (hnew : ∀ i < m.keysSize, m.keys.get i ≠ key) :
    (rebuildWith hash nearestPrime m m.keysSize (m.keysSize + 1) id key keyHash new).Filed hash ∧
      ∀ k v, HasEntry (rebuildWith hash nearestPrime m m.keysSize (m.keysSize + 1) id key keyHash new)
        k v ↔ HasEntry m k v ∨ k = key ∧ v = new := by
  -- an old entry stays in its place, the new one is last
  have hold {α : Type} (old : ℕ → α) (a : α) {i : ℕ} (hi : i < m.keysSize) :
      copied m.keysSize id old a i = old i := if_pos hi
  have hlast {α : Type} (old : ℕ → α) (a : α) : copied m.keysSize id old a m.keysSize = a :=
    if_neg (lt_irrefl _)
  constructor
  · apply filed_rebuildWith hprime
    · intro i hi j hj hsame
      rcases Nat.lt_succ_iff_lt_or_eq.mp hi with hi | rfl
      · rcases Nat.lt_succ_iff_lt_or_eq.mp hj with hj | rfl
        · rw [hold _ _ hi, hold _ _ hj] at hsame
          exact hm.distinct i hi j hj hsame
        · rw [hold _ _ hi, hlast] at hsame
          exact absurd hsame (hnew i hi)
      · rcases Nat.lt_succ_iff_lt_or_eq.mp hj with hj | rfl
        · rw [hlast, hold _ _ hj] at hsame
          exact absurd hsame.symm (hnew j hj)
        · rfl
    · intro i hi
      rcases Nat.lt_succ_iff_lt_or_eq.mp hi with hi | rfl
      · rw [hold _ _ hi, hold _ _ hi]
        exact hash_getD hm hi
      · rw [hlast, hlast]
        exact hkey
  · intro k v
    constructor
    · rintro ⟨i, hi, hk, hv⟩
      change copied m.keysSize id m.keys.get key i = k at hk
      change copied m.keysSize id m.values.get new i = v at hv
      rcases Nat.lt_succ_iff_lt_or_eq.mp hi with hi | rfl
      · rw [hold _ _ hi] at hk hv
        exact .inl ⟨i, hi, hk, hv⟩
      · rw [hlast] at hk hv
        exact .inr ⟨hk.symm, hv.symm⟩
    · rintro (⟨i, hi, hk, hv⟩ | ⟨rfl, rfl⟩)
      · exact ⟨i, Nat.lt_succ_of_lt hi, (hold _ _ hi).trans hk, (hold _ _ hi).trans hv⟩
      · exact ⟨m.keysSize, Nat.lt_succ_self _, hlast _ _, hlast _ _⟩

/-- The map with the last entry in the place of the key's. -/
theorem rebuildWith_remove (hm : m.Filed hash) (hprime : ∀ num, 0 < nearestPrime num) {keyHash : ℕ}
    (hi : i < m.keysSize) (hkey : m.keys.get i = key) :
    (rebuildWith hash nearestPrime m (m.keysSize - 1) (m.keysSize - 1)
        (Function.update id i (m.keysSize - 1)) key keyHash new).Filed hash ∧
      ∀ k v, HasEntry (rebuildWith hash nearestPrime m (m.keysSize - 1) (m.keysSize - 1)
          (Function.update id i (m.keysSize - 1)) key keyHash new) k v ↔ HasEntry m k v ∧ k ≠ key := by
  have hcopied {α : Type} (old : ℕ → α) (a : α) {j : ℕ} (hj : j < m.keysSize - 1) :
      copied (m.keysSize - 1) (Function.update id i (m.keysSize - 1)) old a j =
        old (if j = i then m.keysSize - 1 else j) := by
    unfold copied
    rw [if_pos hj, Function.update_apply]
    rfl
  have hlt {j : ℕ} (hj : j < m.keysSize - 1) : (if j = i then m.keysSize - 1 else j) < m.keysSize := by
    split_ifs <;> omega
  have hne {j : ℕ} (hj : j < m.keysSize - 1) : (if j = i then m.keysSize - 1 else j) ≠ i := by
    split_ifs <;> omega
  constructor
  · apply filed_rebuildWith hprime
    · intro j hj j' hj' hsame
      rw [hcopied _ _ hj, hcopied _ _ hj'] at hsame
      have hplace := hm.distinct _ (hlt hj) _ (hlt hj') hsame
      split_ifs at hplace <;> omega
    · intro j hj
      rw [hcopied _ _ hj, hcopied _ _ hj]
      exact hash_getD hm (hlt hj)
  · intro k v
    constructor
    · rintro ⟨j, hj, hk, hv⟩
      change copied (m.keysSize - 1) _ m.keys.get key j = k at hk
      change copied (m.keysSize - 1) _ m.values.get new j = v at hv
      rw [hcopied _ _ hj] at hk hv
      refine ⟨⟨_, hlt hj, hk, hv⟩, fun hsame => hne hj ?_⟩
      exact hm.distinct _ (hlt hj) i hi (hk.trans (hsame.trans hkey.symm))
    · rintro ⟨⟨j, hj, hk, hv⟩, hother⟩
      have hji : j ≠ i := fun hsame => hother (hk.symm.trans (hsame ▸ hkey))
      -- the last entry is where the hole was
      by_cases hlast : j = m.keysSize - 1
      · refine ⟨i, show i < m.keysSize - 1 by omega, ?_, ?_⟩
        · show copied (m.keysSize - 1) _ m.keys.get key i = k
          rw [hcopied _ _ (by omega), if_pos rfl, ← hlast, hk]
        · show copied (m.keysSize - 1) _ m.values.get new i = v
          rw [hcopied _ _ (by omega), if_pos rfl, ← hlast, hv]
      · refine ⟨j, show j < m.keysSize - 1 by omega, ?_, ?_⟩
        · show copied (m.keysSize - 1) _ m.keys.get key j = k
          rw [hcopied _ _ (by omega), if_neg hji, hk]
        · show copied (m.keysSize - 1) _ m.values.get new j = v
          rw [hcopied _ _ (by omega), if_neg hji, hv]

/-! ## Rebuilding -/

/-- The key is in the map. -/
def Present (m : RawMap K V) (key : K) : Prop := ∃ v, HasEntry m key v

/-- An insertion either gives up, or gives the map with the key. -/
structure Inserts (hash : K → Option ℕ) (m : RawMap K V) (key : K) (new : V)
    (result : Bool × RawMap K V) : Prop where
  refused : result.1 = false → result.2 = m
  filed : result.1 = true → result.2.Filed hash ∧ SizesAgree result.2
  present : Present m key → result.2 = m
  absent : ¬ Present m key → result.1 = true →
    ∀ k v, HasEntry result.2 k v ↔ HasEntry m k v ∨ k = key ∧ v = new

/-- A rebuild is possible: the sizes of the map and the memory allow it. -/
def Possible (hash : K → Option ℕ) (heap : Heap) (m : RawMap K V) (key : K) : Prop :=
  heap.allocatorReady = true ∧ heap.gives = true ∧ rebuildRefuses m = false ∧ (hash key).isSome

/-- A removal gives the map without the key if it had it and the rebuild was possible. -/
structure Removes (hash : K → Option ℕ) (heap : Heap) (m : RawMap K V) (key : K)
    (result : Bool × RawMap K V) : Prop where
  said : result.1 = true ↔ Present m key ∧ Possible hash heap m key
  refused : result.1 = false → result.2 = m
  filed : result.1 = true → result.2.Filed hash ∧ SizesAgree result.2
  entries : result.1 = true → ∀ k v, HasEntry result.2 k v ↔ HasEntry m k v ∧ k ≠ key

theorem sizesAgree_of_taken (h : rebuildRefuses m = false) : SizesAgree m := by
  unfold rebuildRefuses at h
  simp only [Bool.or_eq_false_iff, Bool.and_eq_false_iff, decide_eq_false_iff_not] at h
  refine ⟨not_not.mp h.1.1.2, ?_⟩
  rcases h.1.2 with hvalues | hvalues
  · exact .inl (not_not.mp hvalues)
  · exact .inr (not_not.mp hvalues)

theorem present_iff : Present m key ↔ ∃ i < m.keysSize, m.keys.get i = key := by
  constructor
  · rintro ⟨v, i, hi, hkey, -⟩
    exact ⟨i, hi, hkey⟩
  · rintro ⟨i, hi, hkey⟩
    exact ⟨m.values.get i, i, hi, hkey, rfl⟩

/-- Either nothing is done, or the map is one that a rebuild takes. -/
theorem refused_or (hash : K → Option ℕ) (heap : Heap) (m : RawMap K V) (key : K) :
    (heap.allocatorReady = false ∨ rebuildRefuses m = true ∨ hash key = none) ∨
      heap.allocatorReady = true ∧ rebuildRefuses m = false ∧ ∃ keyHash, hash key = some keyHash := by
  cases heap.allocatorReady with
  | false => exact .inl (.inl rfl)
  | true =>
    cases rebuildRefuses m with
    | true => exact .inl (.inr (.inl rfl))
    | false =>
      cases hash key with
      | none => exact .inl (.inr (.inr rfl))
      | some keyHash => exact .inr ⟨rfl, rfl, keyHash, rfl⟩

variable [DecidableEq K]

/-- What the loop over all keys of a map finds. -/
theorem findKey_of_filed (hm : m.Filed hash) (key : K) :
    (∃ i < m.keysSize, m.keys.get i = key ∧
        findKey hash m key (List.range m.keysSize) none = some (some i)) ∨
      (∀ i < m.keysSize, m.keys.get i ≠ key) ∧
        findKey hash m key (List.range m.keysSize) none = some none := by
  obtain ⟨found, hfound, hsome, hnone⟩ := findKey_spec
    (fun i hi => hm.filed i (List.mem_range.mp hi)) key none
  cases found with
  | none => exact .inr ⟨fun i hi => (hnone rfl).2 i (List.mem_range.mpr hi), hfound⟩
  | some i =>
    rcases hsome i rfl with hfirst | ⟨hmem, hkey⟩
    · exact absurd hfirst.symm (Option.some_ne_none i)
    · exact .inl ⟨i, List.mem_range.mp hmem, hkey, hfound⟩

theorem mapRebuild_of_refused {insert : Bool}
    (h : heap.allocatorReady = false ∨ rebuildRefuses m = true ∨ hash key = none) :
    mapRebuild hash nearestPrime heap new m key insert = (false, m) := by
  unfold mapRebuild
  dsimp only
  rcases h with hready | hrefuses | hhash
  · rw [hready]
    rfl
  · rw [hrefuses, if_pos rfl, ite_self]
  · rw [hhash, ite_self, ite_self]

theorem mapRebuild_of_absent (hready : heap.allocatorReady = true) (hrefuses : rebuildRefuses m = false)
    {keyHash : ℕ} (hhash : hash key = some keyHash) {insert : Bool}
    (hfind : findKey hash m key (List.range m.keysSize) none = some none) :
    mapRebuild hash nearestPrime heap new m key insert =
      if !insert then (insert, m) else if !heap.gives then (false, m)
      else (true, rebuildWith hash nearestPrime m m.keysSize (m.keysSize + 1) id key keyHash new) := by
  unfold mapRebuild
  dsimp only
  rw [hready, hrefuses, hhash, hfind]
  rfl

theorem mapRebuild_of_present (hready : heap.allocatorReady = true) (hrefuses : rebuildRefuses m = false)
    {keyHash : ℕ} (hhash : hash key = some keyHash) {insert : Bool}
    (hfind : findKey hash m key (List.range m.keysSize) none = some (some i)) :
    mapRebuild hash nearestPrime heap new m key insert =
      if insert then (insert, m) else if !heap.gives then (false, m)
      else (true, rebuildWith hash nearestPrime m (m.keysSize - 1) (m.keysSize - 1)
        (Function.update id i (m.keysSize - 1)) key keyHash new) := by
  unfold mapRebuild
  dsimp only
  rw [hready, hrefuses, hhash, hfind]
  rfl

theorem mapRebuild_inserts (hm : m.Filed hash) (hprime : ∀ num, 0 < nearestPrime num) :
    Inserts hash m key new (mapRebuild hash nearestPrime heap new m key true) := by
  have hunchanged : Inserts hash m key new (false, m) :=
    ⟨fun _ => rfl, fun hfalse => absurd hfalse Bool.false_ne_true, fun _ => rfl,
      fun _ hfalse => absurd hfalse Bool.false_ne_true⟩
  rcases refused_or hash heap m key with hrefused | ⟨hready, hrefuses, keyHash, hhash⟩
  · rw [mapRebuild_of_refused hrefused]
    exact hunchanged
  · rcases findKey_of_filed hm key with ⟨i, hi, hkey, hfind⟩ | ⟨hnew, hfind⟩
    · rw [mapRebuild_of_present hready hrefuses hhash hfind, if_pos rfl]
      refine ⟨fun _ => rfl, fun _ => ⟨hm, sizesAgree_of_taken hrefuses⟩, fun _ => rfl, fun habsent => ?_⟩
      exact absurd (present_iff.mpr ⟨i, hi, hkey⟩) habsent
    · rw [mapRebuild_of_absent hready hrefuses hhash hfind, Bool.not_true, if_neg Bool.false_ne_true]
      split_ifs
      · exact hunchanged
      · obtain ⟨hfiled, hentries⟩ := rebuildWith_insert  hm hprime hhash hnew
        refine ⟨fun htrue => absurd htrue.symm Bool.false_ne_true, fun _ =>
          ⟨hfiled, sizesAgree_rebuildWith _ _ _ _⟩, fun hpresent => ?_, fun _ _ => hentries⟩
        obtain ⟨i, hi, hkey⟩ := present_iff.mp hpresent
        exact absurd hkey (hnew i hi)

theorem mapRebuild_removes (hm : m.Filed hash) (hprime : ∀ num, 0 < nearestPrime num) :
    Removes hash heap m key (mapRebuild hash nearestPrime heap new m key false) := by
  have hunchanged (hnot : ¬(Present m key ∧ Possible hash heap m key)) :
      Removes hash heap m key (false, m) :=
    ⟨⟨fun hfalse => absurd hfalse Bool.false_ne_true, fun h => absurd h hnot⟩, fun _ => rfl,
      fun hfalse => absurd hfalse Bool.false_ne_true, fun hfalse => absurd hfalse Bool.false_ne_true⟩
  rcases refused_or hash heap m key with hrefused | ⟨hready, hrefuses, keyHash, hhash⟩
  · rw [mapRebuild_of_refused hrefused]
    apply hunchanged
    rintro ⟨-, hready, -, hrefuses, hsome⟩
    rcases hrefused with hnot | hnot | hnot
    · exact Bool.false_ne_true (hnot.symm.trans hready)
    · exact Bool.false_ne_true (hrefuses.symm.trans hnot)
    · rw [hnot] at hsome
      exact Bool.false_ne_true hsome
  · rcases findKey_of_filed hm key with ⟨i, hi, hkey, hfind⟩ | ⟨hnew, hfind⟩
    · rw [mapRebuild_of_present hready hrefuses hhash hfind, if_neg Bool.false_ne_true]
      cases hgives : heap.gives with
      | false =>
        apply hunchanged
        rintro ⟨-, -, hall, -⟩
        exact Bool.false_ne_true (hgives.symm.trans hall)
      | true =>
        obtain ⟨hfiled, hentries⟩ :=
          rebuildWith_remove (V := V)   hm hprime hi hkey
        have hpossible : Possible hash heap m key := ⟨hready, hgives, hrefuses, by rw [hhash]; rfl⟩
        exact ⟨⟨fun _ => ⟨present_iff.mpr ⟨i, hi, hkey⟩, hpossible⟩, fun _ => rfl⟩,
          fun htrue => absurd htrue.symm Bool.false_ne_true,
          fun _ => ⟨hfiled, sizesAgree_rebuildWith _ _ _ _⟩, fun _ => hentries⟩
    · rw [mapRebuild_of_absent hready hrefuses hhash hfind, Bool.not_false, if_pos rfl]
      apply hunchanged
      rintro ⟨hpresent, -⟩
      obtain ⟨i, hi, hkey⟩ := present_iff.mp hpresent
      exact hnew i hi hkey

/-- On a map with an entry that is not reachable nothing is done. -/
theorem mapRebuild_of_unreachable (hi : i < m.keysSize) (hnot : ¬ Reachable hash m i)
    (insert : Bool) : mapRebuild hash nearestPrime heap new m key insert = (false, m) := by
  have hfind : findKey hash m key (List.range m.keysSize) none = none :=
    findKey_of_unreachable (List.mem_range.mpr hi) hnot none
  unfold mapRebuild
  dsimp only
  rw [hfind]
  cases hash key <;> simp

/-- A rebuild does what it is for on a map whose keys are distinct and reachable, and nothing on a
map with a key that is not, whatever memory there is. -/
theorem mapRebuild_keeps (hash : K → Option ℕ) (nearestPrime : ℕ → ℕ) (heap : Heap) (new : V)
    (m : RawMap K V) (key : K) (hprime : ∀ num, 0 < nearestPrime num) :
    (m.Filed hash →
        Inserts hash m key new (mapRebuild hash nearestPrime heap new m key true) ∧
        Removes hash heap m key (mapRebuild hash nearestPrime heap new m key false)) ∧
      ((∃ i < m.keysSize, ¬ Reachable hash m i) →
        ∀ insert, mapRebuild hash nearestPrime heap new m key insert = (false, m)) := by
  constructor
  · intro hm
    exact ⟨mapRebuild_inserts hm hprime, mapRebuild_removes hm hprime⟩
  · rintro ⟨i, hi, hnot⟩ insert
    exact mapRebuild_of_unreachable hi hnot insert

/-- The keys 3, 4 and 5 in two buckets, their heads as given. -/
def threeEntries (heads : ℕ → ℤ) : RawMap ℕ ℕ where
  hashKeys := ⟨2, heads⟩
  buckets := 2
  hashKeysSize := 2
  nextIds := ⟨3, fun i => if i = 0 then -3 else if i = 1 then -2 else 0⟩
  nextCapacity := 3
  nextSize := 3
  keys := ⟨3, fun i => i + 3⟩
  keysCapacity := 3
  keysSize := 3
  values := ⟨3, fun i => 10 * (i + 3)⟩
  valuesCapacity := 3
  valuesSize := 3

/-- The heads that lead to the keys. -/
def wholeHeads (b : ℕ) : ℤ := if b = 0 then 1 else 2

theorem threeEntries_filed : (threeEntries wholeHeads).Filed (some : ℕ → Option ℕ) where
  distinct i _ j _ heq := Nat.add_right_cancel heq
  filed i hi := by
    have hreached : ∀ i < 3, reached (threeEntries wholeHeads) (i + 3) i = true := by
      decide
    exact ⟨i + 3, rfl, reached_iff.mp (hreached i hi)⟩
  buckets_pos _ := Nat.two_pos
  headsRoom := le_rfl
  keysRoom := le_rfl
  nextRoom := le_rfl
  valuesRoom := le_rfl
  keysCapacity := le_rfl
  nextCapacity := le_rfl
  valuesCapacity := le_rfl

/-- The key 4 is taken out, so that the last entry moves into its place, and the key 7 is added. A
map with a head that leads to the wrong entries is refused. -/
theorem mapRebuild_keeps_threeEntries :
    Removes some ⟨true, true, true, true, true⟩ (threeEntries wholeHeads) 4
        (mapRebuild some nearestSmallMultiHashMapPrime ⟨true, true, true, true, true⟩ 0
          (threeEntries wholeHeads) 4 false) ∧
      Inserts some (threeEntries wholeHeads) 7 0
        (mapRebuild some nearestSmallMultiHashMapPrime ⟨true, true, true, true, true⟩ 0
          (threeEntries wholeHeads) 7 true) ∧
      mapRebuild some nearestSmallMultiHashMapPrime ⟨true, true, true, true, true⟩ 0
        (threeEntries fun _ => 2) 4 false = (false, threeEntries fun _ => 2) := by
  have hkeeps (heads : ℕ → ℤ) (key : ℕ) := mapRebuild_keeps some nearestSmallMultiHashMapPrime
    ⟨true, true, true, true, true⟩ 0 (threeEntries heads) key nearestSmallMultiHashMapPrime_pos
  refine ⟨((hkeeps wholeHeads 4).1 threeEntries_filed).2,
    ((hkeeps wholeHeads 7).1 threeEntries_filed).1, (hkeeps (fun _ => 2) 4).2 ⟨1, by decide, ?_⟩ false⟩
  rintro ⟨h, hhash, hreaches⟩
  obtain rfl : 4 = h := Option.some.inj hhash
  have hnot : reached (threeEntries fun _ => 2) 4 1 = false := by decide
  rw [reached_iff.mpr hreaches] at hnot
  exact absurd hnot (by decide)

example : let removed := (mapRebuild some nearestSmallMultiHashMapPrime
      ⟨true, true, true, true, true⟩ 0 (threeEntries wholeHeads) 4 false).2
    [3, 4, 5].map (removed.lookup some) = [some 30, none, some 50] ∧
      removed.keys.get 1 = 5 := by
  decide

end ComponentMeta
end Bg3le
