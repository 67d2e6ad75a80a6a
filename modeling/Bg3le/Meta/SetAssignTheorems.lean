import Bg3le.Engine.ContainersTheorems
import Bg3le.Meta.SetAssign
import Bg3le.Meta.WriteFieldTheorems

/-!
# What an assignment makes of a set

The keys of the list are filed anew, so an assignment that goes through leaves a sound set of
them. The view assigns the keys that are in the set as they come back from Lua, so its edits
leave the other keys alone exactly where they come back as what they were.
-/

namespace Bg3le
namespace HashSets

open Chains
open Engine Lua WriteField

/-! ## The table -/

section

variable {K : Type} {hashOf : K → Option ℕ} {m : RawSet K} {items : List K} {k : K} {i : ℕ}

/-- What the engine keeps true of a set: its keys differ, each is reached from the bucket of its
hash, and there is one next id for each key. -/
structure RawSet.Sound (hashOf : K → Option ℕ) (m : RawSet K) : Prop where
  distinct : m.toList.Nodup
  filed : ∀ i < m.keysSize, ∃ hash, hashOf (m.keys.get i) = some hash ∧
    Reaches m.keysSize m.nextIds.get (m.hashKeys.get (hash % m.buckets)) i
  nextSize : m.nextSize = m.keysSize
  buckets_pos : 0 < m.keysSize → 0 < m.buckets
  headsRoom : m.buckets ≤ m.hashKeys.room
  keysRoom : m.keysSize ≤ m.keys.room
  nextRoom : m.nextSize ≤ m.nextIds.room
  keysCapacity : m.keysCapacity ≤ m.keys.room
  nextCapacity : m.nextCapacity ≤ m.nextIds.room

variable [Inhabited K]

/-- The set made from the items holds them in their order. -/
@[simp] theorem toList_refilled : (refilled hashOf items).toList = items := by
  apply List.ext_getElem
  · simp [RawSet.toList, refilled]
  · intro i hi hi'
    simp [RawSet.toList, refilled, hi']

/-- The set made from distinct items finds each of them by its hash. -/
theorem sound_refilled (hdistinct : items.Nodup) (hhashes : ∀ key ∈ items, (hashOf key).isSome) :
    (refilled hashOf items).Sound hashOf where
  distinct := by rwa [toList_refilled]
  filed i hi := by
    have hi : i < items.length := hi
    obtain ⟨hash, hhash⟩ := Option.isSome_iff_exists.mp (hhashes _ (List.getElem_mem hi))
    have hkey : (refilled hashOf items).keys.get i = items[i] := by simp [refilled, hi]
    have hreaches := RawMap.refile_reaches (fun i => ((items[i]?).bind hashOf).getD 0 %
      nearestSmallMultiHashMapPrime (items.length + 2)) items.length i hi
    have hlast : ((items[i]?).bind hashOf).getD 0 = hash := by simp [hi, hhash]
    simp only [hlast] at hreaches
    exact ⟨hash, by rw [hkey, hhash], hreaches⟩
  nextSize := rfl
  buckets_pos _ := nearestSmallMultiHashMapPrime_pos _
  headsRoom := le_rfl
  keysRoom := by
    show items.length ≤ if 0 < items.length then items.length else 1
    split <;> omega
  nextRoom := by
    show items.length ≤ if 0 < items.length then items.length else 1
    split <;> omega
  keysCapacity := le_rfl
  nextCapacity := le_rfl

end

/-! ## The keys of a list -/

section

variable {host : Host} {what : Bytes} {f : SetField} {v x : Value} {vs keys : List Value}
  {kept ks : List Bytes} {k : Bytes} {m : RawSet Bytes} {i : ℕ} {present : Bool}

/-- The key that a value is. -/
def keyFor (host : Host) (f : SetField) (v : Value) : Option Bytes :=
  if f.elemKind = .fixedString then
    (toText host.toHost v).bind fun name =>
      ((host.indexOf (cString name)).or (host.intern (cString name))).map fun id =>
        LittleEndian.encode 4 id.toNat
  else
    (enumArg host.toHost f.labels v).bind fun v =>
      match writeScalar host.toHost f.elemKind v with
      | .stored b => some b
      | _ => none

/-- An entry gives a key exactly when the field can hold it. -/
theorem entryKey_ok_iff : entryKey host what f i v = .ok k ↔ keyFor host f v = some k := by
  unfold entryKey keyFor
  split
  · cases htext : toText host.toHost v with
    | none => simp
    | some name =>
      cases hid : (host.indexOf (cString name)).or (host.intern (cString name)) with
      | none => simp [hid]
      | some id => simp [hid]
  · cases henum : enumArg host.toHost f.labels v with
    | none => simp
    | some x => cases hx : writeScalar host.toHost f.elemKind x <;> simp [hx]

/-- An entry that gives no key does not answer that it was done. -/
theorem entryKey_error {answer : Answer} (h : entryKey host what f i v = .error answer) :
    answer ≠ .done := by
  unfold entryKey at h
  split at h
  · split at h
    · cases h
      nofun
    · split at h
      · cases h
      · cases h
        nofun
  · split at h
    · cases h
      nofun
    · split at h <;> cases h <;> nofun

/-- Entries that give no keys do not answer that they were done. -/
theorem keysFrom_error {answer : Answer} (h : keysFrom host what f i vs kept = .error answer) :
    answer ≠ .done := by
  induction vs generalizing i kept with
  | nil => cases h
  | cons v vs ih =>
    rw [keysFrom] at h
    cases hentry : entryKey host what f i v with
    | error why =>
      rw [hentry] at h
      cases h
      exact entryKey_error hentry
    | ok key =>
      rw [hentry] at h
      exact ih h

/-- Keeping a key and then the new ones of the rest keeps the new ones of all. -/
theorem keep_eraseDups (kept : List Bytes) (key : Bytes) (rest : List Bytes) :
    let kept' := if kept.contains key then kept else kept ++ [key]
    kept' ++ (rest.filter fun other => !kept'.contains other).eraseDups =
      kept ++ ((key :: rest).filter fun other => !kept.contains other).eraseDups := by
  by_cases hseen : kept.contains key
  · simp only [hseen, ↓reduceIte]
    rw [List.filter_cons_of_neg (by simpa using hseen)]
  · simp only [hseen, Bool.false_eq_true, ↓reduceIte]
    rw [List.filter_cons_of_pos (by simpa using hseen), List.eraseDups_cons, List.filter_filter,
      List.append_assoc, List.singleton_append]
    congr 3
    apply List.filter_congr
    intro other _
    by_cases heq : other = key
    · simp [heq]
    · simp [heq]

/-- The keys are those of all the entries, each where it is met first. -/
theorem keysFrom_ok_iff : keysFrom host what f i vs kept = .ok ks ↔
    ∃ all, vs.mapM (keyFor host f) = some all ∧
      ks = kept ++ (all.filter fun key => !kept.contains key).eraseDups := by
  induction vs generalizing i kept with
  | nil => simp [keysFrom, eq_comm]
  | cons v vs ih =>
    rw [keysFrom]
    cases hentry : entryKey host what f i v with
    | error answer =>
      have hnone : keyFor host f v = none := by
        rw [Option.eq_none_iff_forall_ne_some]
        intro key hkey
        rw [entryKey_ok_iff.mpr hkey] at hentry
        cases hentry
      simp [hnone]
    | ok key =>
      have hkey := entryKey_ok_iff.mp hentry
      have hmap : (v :: vs).mapM (keyFor host f) =
          (vs.mapM (keyFor host f)).map (key :: ·) := by
        simp [List.mapM_cons, hkey, Option.map_eq_bind]
      simp only [ih, hmap, Option.map_eq_some_iff]
      constructor
      · rintro ⟨all, hall, rfl⟩
        exact ⟨key :: all, ⟨all, hall, rfl⟩, keep_eraseDups kept key all⟩
      · rintro ⟨_, ⟨all, hall, rfl⟩, rfl⟩
        exact ⟨all, hall, (keep_eraseDups kept key all).symm⟩

/-- The keys collected are distinct. -/
theorem nodup_keysFrom (h : keysFrom host what f i vs kept = .ok ks) (hkept : kept.Nodup) :
    ks.Nodup := by
  induction vs generalizing i kept with
  | nil =>
    cases h
    exact hkept
  | cons v vs ih =>
    rw [keysFrom] at h
    cases hentry : entryKey host what f i v with
    | error answer => simp [hentry] at h
    | ok key =>
      rw [hentry] at h
      refine ih h ?_
      split
      · exact hkept
      · next hnew =>
        rw [List.contains_iff_mem] at hnew
        exact List.nodup_append.mpr ⟨hkept, List.nodup_singleton _, by grind⟩

/-! ## `assign_set` -/

/-- Every entry is a key, and the set can be replaced by these. -/
structure Goes (host : Host) (f : SetField) (m : RawSet Bytes) (vs : List Value)
    (all : List Bytes) : Prop where
  writable : keyWritable f.elemKind = true
  converted : vs.mapM (keyFor host f) = some all
  hasAssign : f.hasAssign = true
  elemSize : f.elemKind.size = f.elemSize
  taken : assignTakes (host.hashOf f.elemKind) host.heap m all.eraseDups = true

/-- An assignment goes through, or gives an error and leaves the set. -/
theorem assignKeys_cases (host : Host) (what : Bytes) (f : SetField) (vs : List Value)
    (m : RawSet Bytes) :
    (∃ all, Goes host f m vs all ∧ all.eraseDups.Nodup ∧
        assignKeys host what f vs m = (.done, refilled (host.hashOf f.elemKind) all.eraseDups)) ∨
      ((∀ all, ¬ Goes host f m vs all) ∧
        ∃ answer ≠ .done, assignKeys host what f vs m = (answer, m)) := by
  unfold assignKeys
  split
  · next hkind =>
    exact .inr ⟨fun all h => by simp [h.writable] at hkind, .failed _, nofun, rfl⟩
  next hkind =>
  cases hkeys : keysFrom host what f 1 vs [] with
  | error answer =>
    refine .inr ⟨fun all h => ?_, answer, keysFrom_error hkeys, rfl⟩
    rw [keysFrom_ok_iff.mpr ⟨all, h.converted, rfl⟩] at hkeys
    cases hkeys
  | ok keys =>
    obtain ⟨all, hall, hkept⟩ := keysFrom_ok_iff.mp hkeys
    obtain rfl : keys = all.eraseDups := by simpa using hkept
    have hsame {other : List Bytes} (h : Goes host f m vs other) : other = all :=
      Option.some.inj (h.converted.symm.trans hall)
    dsimp only
    split
    · next hfield =>
      refine .inr ⟨fun other h => ?_, .failed _, nofun, rfl⟩
      simp [h.hasAssign, h.elemSize] at hfield
    · next hfield =>
      simp only [not_or, Bool.not_eq_true, Bool.not_eq_false', not_not] at hfield
      cases htaken : assignTakes (host.hashOf f.elemKind) host.heap m all.eraseDups with
      | true =>
        refine .inl ⟨all, ⟨by simpa using hkind, hall, hfield.1, hfield.2, htaken⟩,
          nodup_keysFrom hkeys List.nodup_nil, ?_⟩
        simp [setAssign, htaken]
      | false =>
        refine .inr ⟨fun other h => ?_, .failed _, nofun, by simp only [setAssign, htaken]; rfl⟩
        have := h.taken
        rw [hsame h, htaken] at this
        cases this

/-- The hashes that were found up front file the keys. -/
theorem Goes.sound {all : List Bytes} (h : Goes host f m vs all) (hdistinct : all.eraseDups.Nodup) :
    (refilled (host.hashOf f.elemKind) all.eraseDups).Sound (host.hashOf f.elemKind) := by
  have htaken := h.taken
  simp only [assignTakes, Bool.and_eq_true, List.all_eq_true] at htaken
  exact sound_refilled hdistinct htaken.1.1.1.2

/-- An assignment reports an error and leaves the set, or leaves a sound one with the distinct keys
of the list in the order in which they come first. -/
def Assigned (host : Host) (f : SetField) (given : Value) (m : RawSet Bytes)
    (result : Answer × RawSet Bytes) : Prop :=
  (result.1 ≠ .done → result.2 = m) ∧
    (result.1 = .done → result.2.Sound (host.hashOf f.elemKind) ∧ ∃ entries all, given = .table entries ∧
      (packed entries).mapM (keyFor host f) = some all ∧ result.2.toList = all.eraseDups)

/-- An assignment stores the set given or leaves the old one. -/
theorem assignSet_assigned (host : Host) (what : Bytes) (f : SetField) (given : Value)
    (m : RawSet Bytes) : Assigned host f given m (assignSet host what f given m) := by
  unfold assignSet
  split
  · next entries =>
    obtain ⟨all, hgoes, hdistinct, heq⟩ | ⟨-, answer, hanswer, heq⟩ :=
      assignKeys_cases host what f (packed entries) m
    · rw [heq]
      exact ⟨fun h => absurd rfl h, fun _ => ⟨hgoes.sound hdistinct, entries, all, rfl,
        hgoes.converted, toList_refilled⟩⟩
    · rw [heq]
      exact ⟨fun _ => rfl, fun h => absurd h hanswer⟩
  · exact ⟨fun _ => rfl, nofun⟩

/-! ## The view -/

/-- The key that a value names in a set; nil names none. -/
def named (host : Host) (f : SetField) (v : Value) : Option Bytes :=
  if v.isNil then none else keyFor host f v

/-- The key that a key comes back as, when it is read and then converted. -/
def comesBackAs (host : Host) (f : SetField) (key : Bytes) : Option Bytes :=
  (readKey host f key).bind (named host f)

/-- An edit reports an error and leaves the set, or leaves a sound one in which only the membership
of the value's key has changed. -/
def Changed (host : Host) (f : SetField) (v : Value) (present : Bool) (m : RawSet Bytes)
    (result : Answer × RawSet Bytes) : Prop :=
  (result.1 ≠ .done → result.2 = m) ∧
    (result.1 = .done → result.2.Sound (host.hashOf f.elemKind) ∧ ∀ k,
      if named host f v = some k then k ∈ result.2.toList ↔ present
      else k ∈ result.2.toList ↔ k ∈ m.toList)

/-- What is written comes back as what it was. -/
def ComesBack (host : Host) (f : SetField) (v : Value) (present : Bool) (m : RawSet Bytes)
    (written : List Bytes) : Prop :=
  ∀ k, if named host f v = some k then present ∨ ∀ k' ∈ written, comesBackAs host f k' ≠ some k
    else k ∈ m.toList ↔ ∃ k' ∈ written, comesBackAs host f k' = some k

/-- Where nothing is written, the value's key is in the set, or out of it, already; where the set
is written, its keys come back as what they were. -/
def Right (host : Host) (f : SetField) (v : Value) (present : Bool) (m : RawSet Bytes) : Prop :=
  ∀ keys, m.toList.mapM (readKey host f) = some keys →
    match find host f keys v, present with
    | some _, true => ∀ k, named host f v = some k → k ∈ m.toList
    | none, false => ∀ k, named host f v = some k → k ∉ m.toList
    | none, true =>
      (∃ all, Goes host f m ((appended host keys v).filter fun x => !x.isNil) all) →
        ComesBack host f v true m m.toList
    | some i, false =>
      (∃ all, Goes host f m ((keys.eraseIdx i).filter fun x => !x.isNil) all) →
        ComesBack host f v false m (m.toList.eraseIdx i)

theorem named_of_nil (h : v.isNil = true) : named host f v = none := if_pos h

theorem mem_all (h : (vs.filter fun x => !x.isNil).mapM (keyFor host f) = some ks) :
    k ∈ ks ↔ ∃ x ∈ vs, named host f x = some k := by
  rw [mapM_eq_some_iff] at h
  have hmem : k ∈ ks ↔ some k ∈ ks.map some := by simp
  rw [hmem, ← h, List.mem_map]
  constructor
  · rintro ⟨x, hx, hkey⟩
    obtain ⟨hx, hnil⟩ := List.mem_filter.mp hx
    have hnil : x.isNil = false := by simpa using hnil
    exact ⟨x, hx, by rw [named, hnil]; exact hkey⟩
  · rintro ⟨x, hx, hkey⟩
    cases hnil : x.isNil with
    | true => simp [named_of_nil hnil] at hkey
    | false => exact ⟨x, List.mem_filter.mpr ⟨hx, by simp [hnil]⟩, by simpa [named, hnil] using hkey⟩

/-- The value takes the place of a hole, or stands at the end. -/
theorem exists_appended : (∃ x ∈ appended host keys v, named host f x = some k) ↔
    named host f v = some k ∨ ∃ x ∈ keys, named host f x = some k := by
  obtain ⟨n, hborder⟩ : ∃ n, (host.border keys).val = n := ⟨_, rfl⟩
  have hhole : (keys[n]?).getD .nil = .nil := hborder ▸ (host.border keys).property.2.1
  have hsplit (x : Value) : x ∈ keys ↔ x ∈ keys.take n ∨ x ∈ keys.drop n := by
    rw [← List.mem_append, List.take_append_drop]
  have hdrop : (∃ x ∈ keys.drop n, named host f x = some k) ↔
      ∃ x ∈ keys.drop (n + 1), named host f x = some k := by
    by_cases hlt : n < keys.length
    · rw [List.drop_eq_getElem_cons hlt]
      have hnil : keys[n] = .nil := by simpa [hlt] using hhole
      simp [hnil, named, Value.isNil]
    · rw [List.drop_eq_nil_of_le (by omega), List.drop_eq_nil_of_le (by omega)]
  have hkeys : (∃ x ∈ keys, named host f x = some k) ↔
      (∃ x ∈ keys.take n, named host f x = some k) ∨ ∃ x ∈ keys.drop n, named host f x = some k := by
    simp only [hsplit, or_and_right, exists_or]
  rw [hkeys, hdrop, appended, hborder]
  simp [or_and_right, exists_or, or_left_comm]

/-- Reading the keys back gives those the entries named. -/
theorem exists_read_iff (hread : ks.map (readKey host f) = keys.map some) :
    (∃ x ∈ keys, named host f x = some k) ↔ ∃ k' ∈ ks, comesBackAs host f k' = some k := by
  have hx (x) : x ∈ keys ↔ ∃ k' ∈ ks, readKey host f k' = some x := by
    have hmem : x ∈ keys ↔ some x ∈ keys.map some := by simp
    rw [hmem, ← hread, List.mem_map]
  simp only [hx, comesBackAs, Option.bind_eq_some_iff]
  constructor
  · rintro ⟨x, ⟨k', hk', hread⟩, hkey⟩
    exact ⟨k', hk', x, hread, hkey⟩
  · rintro ⟨k', hk', x, hread, hkey⟩
    exact ⟨x, ⟨k', hk', hread⟩, hkey⟩

/-- An edit that writes nothing. -/
theorem changed_self_iff (hm : m.Sound (host.hashOf f.elemKind)) :
    Changed host f v present m (.done, m) ↔
      ∀ k, named host f v = some k → (k ∈ m.toList ↔ present) := by
  constructor
  · intro h k hk
    simpa [hk] using (h.2 rfl).2 k
  · intro h
    refine ⟨fun _ => rfl, fun _ => ⟨hm, fun k => ?_⟩⟩
    split
    · next hk => exact h k hk
    · rfl

/-- A write stores what the entries name, each once, or leaves the set as it was. -/
theorem writeKeys_cases (host : Host) (what : Bytes) (f : SetField) (vs : List Value)
    (m : RawSet Bytes) :
    (∃ all, Goes host f m (vs.filter fun x => !x.isNil) all ∧ all.eraseDups.Nodup ∧
        writeKeys host what f vs m = (.done, refilled (host.hashOf f.elemKind) all.eraseDups)) ∨
      ((∀ all, ¬ Goes host f m (vs.filter fun x => !x.isNil) all) ∧
        writeKeys host what f vs m = (.raised, m)) := by
  unfold writeKeys
  obtain ⟨all, hgoes, hdistinct, heq⟩ | ⟨hnot, answer, hanswer, heq⟩ :=
    assignKeys_cases host what f (vs.filter fun x => !x.isNil) m
  · exact .inl ⟨all, hgoes, hdistinct, by rw [heq]⟩
  · refine .inr ⟨hnot, ?_⟩
    rw [heq]
    cases answer with
    | done => exact absurd rfl hanswer
    | failed | raised => rfl

/-- An edit that assigns the keys. -/
theorem changed_writeKeys_iff {written : List Bytes}
    (hmem : ∀ k, (∃ x ∈ vs, named host f x = some k) ↔
      (present ∧ named host f v = some k) ∨ ∃ k' ∈ written, comesBackAs host f k' = some k) :
    Changed host f v present m (writeKeys host what f vs m) ↔
      ((∃ all, Goes host f m (vs.filter fun x => !x.isNil) all) →
        ComesBack host f v present m written) := by
  obtain ⟨all, hgoes, hdistinct, heq⟩ | ⟨hnot, heq⟩ := writeKeys_cases host what f vs m
  · have hall (k) : k ∈ all.eraseDups ↔
        (present ∧ named host f v = some k) ∨ ∃ k' ∈ written, comesBackAs host f k' = some k := by
      rw [List.mem_eraseDups, mem_all hgoes.converted, hmem]
    have hgo : (∃ all, Goes host f m (vs.filter fun x => !x.isNil) all) := ⟨all, hgoes⟩
    simp only [heq, Changed, ComesBack, toList_refilled, hall, hgoes.sound hdistinct, hgo, ne_eq,
      not_true_eq_false, false_implies, forall_const, true_and]
    refine forall_congr' fun k => ?_
    split
    · next hk => grind
    · next hk => grind
  · rw [heq]
    exact iff_of_true ⟨fun _ => rfl, nofun⟩ fun ⟨all, h⟩ => absurd h (hnot all)

/-- An index written changes the set exactly as asked when the key can be held. -/
theorem newIndex_changed_iff (hm : m.Sound (host.hashOf f.elemKind)) :
    Changed host f v present m (newIndex host what f v present m) ↔ Right host f v present m := by
  unfold newIndex Right
  cases hread : m.toList.mapM (readKey host f) with
  | none => simp [Changed]
  | some keys =>
    simp only [Option.some.injEq, forall_eq']
    rw [mapM_eq_some_iff] at hread
    cases hfind : find host f keys v with
    | none =>
      cases present with
      | true =>
        apply changed_writeKeys_iff
        intro k
        rw [exists_appended, exists_read_iff hread]
        simp
      | false =>
        rw [changed_self_iff hm]
        simp
    | some i =>
      cases present with
      | true =>
        rw [changed_self_iff hm]
        simp
      | false =>
        apply changed_writeKeys_iff
        intro k
        have herased : (m.toList.eraseIdx i).map (readKey host f) = (keys.eraseIdx i).map some := by
          rw [← List.eraseIdx_map, ← List.eraseIdx_map, hread]
        rw [exists_read_iff herased]
        simp

/-! ## Keys that come back -/

/-- Where all that is written comes back as itself, only what is written matters. -/
theorem comesBack_iff_of_self {written : List Bytes}
    (hself : ∀ k ∈ written, comesBackAs host f k = some k) :
    ComesBack host f v present m written ↔ ∀ k,
      if named host f v = some k then present ∨ k ∉ written
      else k ∈ m.toList ↔ k ∈ written := by
  have hmem (k : Bytes) : (∃ k' ∈ written, comesBackAs host f k' = some k) ↔ k ∈ written := by
    constructor
    · rintro ⟨k', hk', hkey⟩
      rw [hself k' hk'] at hkey
      cases hkey
      exact hk'
    · intro hk
      exact ⟨k, hk, hself k hk⟩
  have hnone (k : Bytes) : (∀ k' ∈ written, comesBackAs host f k' ≠ some k) ↔ k ∉ written := by
    rw [← hmem]
    push Not
    rfl
  simp only [ComesBack, hmem, hnone]

theorem readKey_plain (hlabels : f.labels = none) :
    readKey host f k = readKey.plain host f k (LittleEndian.decode k) := by
  simp [readKey, hlabels]

/-- A number's bytes depend on what fits in them. -/
theorem encode_mod (width v : ℕ) :
    LittleEndian.encode width (v % 256 ^ width) = LittleEndian.encode width v := by
  have h := LittleEndian.encode_decode (LittleEndian.encode width v)
  rwa [LittleEndian.length_encode, LittleEndian.decode_encode] at h

/-- A fixed string comes back as itself where its text in Lua, up to a NUL, has its id. -/
theorem comesBackAs_fixedString_iff (hkind : f.elemKind = .fixedString) (hlabels : f.labels = none)
    (id : UInt32) :
    comesBackAs host f (LittleEndian.encode 4 id.toNat) = some (LittleEndian.encode 4 id.toNat) ↔
      (host.indexOf (cString (fixedStringText host.toHost id))).or
        (host.intern (cString (fixedStringText host.toHost id))) = some id := by
  have hdecode (other : UInt32) : LittleEndian.decode (LittleEndian.encode 4 other.toNat) =
      other.toNat := LittleEndian.decode_encode_of_lt other.toNat_lt
  have hread : readKey host f (LittleEndian.encode 4 id.toNat) =
      some (.string (fixedStringText host.toHost id)) := by
    simp [readKey_plain hlabels, readKey.plain, hkind, hdecode]
  simp only [comesBackAs, hread, Option.bind_some, named, Value.isNil, keyFor, hkind, toText,
    ↓reduceIte, Bool.false_eq_true, Option.map_eq_some_iff]
  constructor
  · rintro ⟨other, hother, hsame⟩
    have hnat := congrArg LittleEndian.decode hsame
    rw [hdecode, hdecode, UInt32.toNat_inj] at hnat
    rw [hother, hnat]
  · intro hid
    exact ⟨id, hid, rfl⟩

/-- A string that has a hash has a text, so no key of a sound set is read as an unresolved one. -/
theorem fixedStringText_of_hash {id : UInt32} (hid : id ≠ nullIndex)
    (hhash : (host.fixedStringHash id).isSome) : ∃ text, host.fixedString id = some text ∧
      fixedStringText host.toHost id =
        if host.readable id then text.take 512 else bytes "<unreadable string>" := by
  obtain ⟨entry, hentry⟩ : ∃ entry, host.resolve id = some entry := by
    rw [Host.fixedStringHash, if_neg hid, Option.isSome_map] at hhash
    exact Option.isSome_iff_exists.mp hhash
  have htable : host.strings.isSome := by
    rw [Host.resolve, if_neg hid] at hentry
    exact Option.isSome_of_isSome_bind (Option.isSome_of_mem hentry)
  have htext : ∃ text, host.fixedString id = some text := by
    rw [Host.fixedString, if_pos htable, hentry]
    cases host.known id with
    | none => exact ⟨_, rfl⟩
    | some text => exact ⟨text, rfl⟩
  obtain ⟨text, htext⟩ := htext
  refine ⟨text, htext, ?_⟩
  simp only [fixedStringText, if_neg hid, htext]

/-- A key of a sound set of fixed strings is the null string or has a text. -/
theorem RawSet.Sound.resolved {m : RawSet Bytes} (hm : m.Sound (host.hashOf .fixedString))
    (hi : i < m.keysSize) :
    UInt32.ofNat (LittleEndian.decode (m.keys.get i)) = nullIndex ∨
      ∃ text, host.fixedString (UInt32.ofNat (LittleEndian.decode (m.keys.get i))) = some text := by
  obtain ⟨hash, hhash, -⟩ := hm.filed i hi
  rw [or_iff_not_imp_left]
  intro hnull
  rw [Host.hashOf, if_pos rfl] at hhash
  obtain ⟨text, htext, -⟩ := fixedStringText_of_hash hnull (Option.isSome_of_mem hhash)
  exact ⟨text, htext⟩

theorem toString_no_nul (g : Guid) : cString g.toString = g.toString := by
  have hhex : ∀ n < 16, Guid.hexChar n ≠ 0 := by decide
  have hdigit (b : UInt8) : ∀ c ∈ Guid.charToHex b, c ≠ 0 := by
    have := b.toNat_lt
    intro c hc
    rcases List.mem_pair.mp hc with rfl | rfl
    · exact hhex _ (by omega)
    · exact hhex _ (by omega)
  have hdigits (places : List (Fin 16)) : ∀ c ∈ g.digits places, c ≠ 0 := by
    intro c hc
    obtain ⟨i, -, hc⟩ := List.mem_flatMap.mp hc
    exact hdigit _ c hc
  have hall : ∀ c ∈ g.toString, c ≠ 0 := by
    simp only [Guid.toString, List.forall_mem_append, List.forall_mem_cons]
    exact ⟨⟨⟨⟨hdigits _, by decide, hdigits _⟩, by decide, hdigits _⟩, by decide, hdigits _⟩,
      by decide, hdigits _⟩
  rw [cString, List.takeWhile_eq_self_iff]
  exact fun c hc => decide_eq_true (hall c hc)

/-- A guid reads back as it was stored. -/
theorem comesBackAs_guid (hkind : f.elemKind = .guid) (hlabels : f.labels = none)
    (hlength : k.length = 16) : comesBackAs host f k = some k := by
  have hread : readKey host f k = some (.string (Guid.toString ⟨fun i => k.getD i 0⟩)) := by
    simp [readKey_plain hlabels, readKey.plain, hkind]
  have hbytes : (List.finRange 16).map (fun i : Fin 16 => (k[(i : ℕ)]?).getD 0) = k := by
    apply List.ext_getElem
    · simp [hlength]
    · intro i hi hi'
      simp [hi']
  simp [comesBackAs, hread, named, Value.isNil, keyFor, hkind, hlabels, enumArg, writeScalar,
    FieldKind.isInteger, toText, toString_no_nul, Guid.parseGuidString_toString, hbytes,
    Outcome.ofOption]

/-- A signed value seen unsigned is its remainder. -/
theorem toNat_ofInt (z : ℤ) : (Int64.ofInt z).toUInt64.toNat = (z % 2 ^ 64).toNat :=
  BitVec.toNat_ofInt ..

theorem toUInt64_signed {size raw : ℕ} (hsize : size ≤ 8) (hraw : raw < 256 ^ size) :
    (signed size raw).toUInt64.toNat % 256 ^ size = raw := by
  have hdvd : ((256 ^ size : ℕ) : ℤ) ∣ 2 ^ 64 := by
    have h := pow_dvd_pow 256 hsize
    exact_mod_cast (show (256 ^ 8 : ℕ) = 2 ^ 64 by norm_num) ▸ h
  rw [signed, toNat_ofInt]
  have hnonneg : 0 ≤ Int.bmod raw (256 ^ size) % 2 ^ 64 := Int.emod_nonneg _ (by norm_num)
  have hint : (((Int.bmod raw (256 ^ size) % 2 ^ 64).toNat : ℤ) % (256 ^ size : ℕ)) = raw := by
    rw [Int.toNat_of_nonneg hnonneg, Int.emod_emod_of_dvd _ hdvd, Int.bmod_emod]
    exact Int.emod_eq_of_lt (by positivity) (by exact_mod_cast hraw)
  exact_mod_cast hint

theorem toUInt64_unsigned {size raw : ℕ} (hsize : size ≤ 8) (hraw : raw < 256 ^ size) :
    (Int64.ofNat raw).toUInt64.toNat % 256 ^ size = raw := by
  have h := Nat.pow_le_pow_right (show 0 < 256 by norm_num) hsize
  rw [Int64.toUInt64_ofNat', UInt64.toNat_ofNat', Nat.mod_eq_of_lt (a := raw) (by omega)]
  exact Nat.mod_eq_of_lt hraw

/-- A key of an integer kind reads as that integer, signed or not. -/
theorem plain_integer (hkind : f.elemKind.isInteger) (raw : ℕ) :
    readKey.plain host f k raw = some (.integer (signed f.elemKind.size raw)) ∨
      readKey.plain host f k raw = some (.integer (Int64.ofNat raw)) := by
  unfold readKey.plain
  cases hf : f.elemKind <;> simp_all [FieldKind.isInteger]

/-- An integer reads back as it was stored. -/
theorem comesBackAs_integer (hkind : f.elemKind.isInteger) (hlabels : f.labels = none)
    (hlength : k.length = f.elemKind.size) : comesBackAs host f k = some k := by
  have hsize : f.elemKind.size ≤ 8 := by
    cases hf : f.elemKind <;> simp_all [FieldKind.isInteger, FieldKind.size]
  have hraw : LittleEndian.decode k < 256 ^ f.elemKind.size := hlength ▸ LittleEndian.decode_lt k
  have hnamed (i : Int64) : named host f (.integer i) =
      some (LittleEndian.encode f.elemKind.size i.toUInt64.toNat) := by
    have hstring : f.elemKind ≠ .fixedString := by
      intro h
      simp [h, FieldKind.isInteger] at hkind
    simp [named, Value.isNil, keyFor, hstring, hlabels, enumArg, writeScalar, hkind, enumNumber,
      toInteger, number, Outcome.ofOption]
  have hself : LittleEndian.encode f.elemKind.size (LittleEndian.decode k) = k := by
    rw [← hlength, LittleEndian.encode_decode]
  obtain ⟨i, hi, hmod⟩ : ∃ i, readKey host f k = some (.integer i) ∧
      i.toUInt64.toNat % 256 ^ f.elemKind.size = LittleEndian.decode k := by
    rw [readKey_plain hlabels]
    obtain hsigned | hunsigned := plain_integer (k := k) hkind (LittleEndian.decode k)
    · exact ⟨_, hsigned, toUInt64_signed hsize hraw⟩
    · exact ⟨_, hunsigned, toUInt64_unsigned hsize hraw⟩
  rw [comesBackAs, hi, Option.bind_some, hnamed, ← encode_mod, hmod, hself]

/-- An entity comes back as itself, but the null handle is nil in Lua and lost. -/
theorem comesBackAs_entity (hkind : f.elemKind = .entity) (hlabels : f.labels = none)
    {handle : UInt64} {id : ℕ} (hproxy : host.entityOf handle = .other id)
    (huserdata : host.userdata id = .entity handle) :
    comesBackAs host f (LittleEndian.encode 8 handle.toNat) =
      if handle = nullHandle then none else some (LittleEndian.encode 8 handle.toNat) := by
  have hdecode : LittleEndian.decode (LittleEndian.encode 8 handle.toNat) = handle.toNat :=
    LittleEndian.decode_encode_of_lt handle.toNat_lt
  have hread : readKey host f (LittleEndian.encode 8 handle.toNat) =
      some (if handle = nullHandle then .nil else .other id) := by
    simp [readKey_plain hlabels, readKey.plain, hkind, hdecode, hproxy]
  rw [comesBackAs, hread, Option.bind_some]
  split
  · rfl
  · simp [named, Value.isNil, keyFor, hkind, enumArg, huserdata, writeScalar,
      FieldKind.isInteger, entityHandle, Outcome.ofOption]

/-- A list's items up to the first hole. -/
def beforeHole (vs : List Value) : ℕ := (vs.takeWhile fun v => !v.isNil).length

/-- The count stops at a hole: no value there, one just before it. -/
theorem beforeHole_spec (vs : List Value) :
    beforeHole vs ≤ vs.length ∧ (vs[beforeHole vs]?).getD .nil = .nil ∧
      (0 < beforeHole vs → (vs[beforeHole vs - 1]?).getD .nil ≠ .nil) := by
  induction vs with
  | nil => simp [beforeHole]
  | cons v vs ih =>
    obtain ⟨hle, hhole, hitem⟩ := ih
    cases hv : v.isNil with
    | true =>
      have hnil := isNil_iff.mp hv
      simp [beforeHole, hnil, Value.isNil]
    | false =>
      have hsucc : beforeHole (v :: vs) = beforeHole vs + 1 := by simp [beforeHole, hv]
      rw [hsucc]
      refine ⟨Nat.succ_le_succ hle, by simpa using hhole, fun _ => ?_⟩
      rw [Nat.add_sub_cancel]
      rcases Nat.eq_zero_or_pos (beforeHole vs) with hzero | hpos
      · rw [hzero]
        rintro rfl
        simp [Value.isNil] at hv
      · obtain ⟨n, hn⟩ := Nat.exists_eq_add_of_lt hpos
        have := hitem hpos
        rw [show beforeHole vs = n + 1 by omega] at this ⊢
        simpa using this

/-- The text of the string 7: 513 bytes. -/
def longText : Bytes := List.replicate 513 0x78

/-- A string table of two short texts and a long one; the first 512 bytes of that are interned as
the string 9. -/
def tableHost : Host where
  toHost := { plainHost with
    intern := fun text => if text = longText.take 512 then some 9 else none
    strings := some fun id =>
      if id = 1 then some ⟨bytes "A", 11⟩
      else if id = 2 then some ⟨bytes "B", 12⟩
      else if id = 7 then some ⟨longText, 17⟩
      else if id = 9 then some ⟨longText.take 512, 0⟩
      else none
    readable := fun _ => true }
  textIndex _ := [1, 2, 7]
  hashMapHash := LittleEndian.decode
  heap := ⟨true, true, true, true, true⟩
  enumValue label _ := .string label
  bitfieldValue value := .integer value.toInt64
  entityOf _ := .other 0
  readOther _ := none
  objectText _ := []
  objectsEqual _ _ := false
  border vs := ⟨beforeHole vs, beforeHole_spec vs⟩

def stringSet : SetField where
  elemKind := .fixedString
  labels := none
  hasAssign := true
  elemSize := 4

/-- The set of one string. -/
def setOf (id : UInt8) : RawSet Bytes :=
  refilled (tableHost.hashOf stringSet.elemKind) [[id, 0, 0, 0]]

theorem sound_setOf {id : UInt8}
    (hid : (tableHost.hashOf stringSet.elemKind [id, 0, 0, 0]).isSome) :
    (setOf id).Sound (tableHost.hashOf stringSet.elemKind) := by
  apply sound_refilled (List.nodup_singleton _)
  intro key hkey
  rw [List.mem_singleton.mp hkey]
  exact hid

theorem named_A : named tableHost stringSet (.string (bytes "A")) = some [1, 0, 0, 0] := by
  decide +kernel

/-- With `set["A"] = true` the string 7 is cut, and comes back as the string 9. -/
theorem not_changed_long :
    ¬ Changed tableHost stringSet (.string (bytes "A")) true (setOf 7)
      (newIndex tableHost (bytes "Component.Keys") stringSet (.string (bytes "A")) true
        (setOf 7)) := by
  intro h
  have hdone : (newIndex tableHost (bytes "Component.Keys") stringSet (.string (bytes "A"))
      true (setOf 7)).1 = .done := by decide +kernel
  have hkeys : (newIndex tableHost (bytes "Component.Keys") stringSet (.string (bytes "A"))
      true (setOf 7)).2.toList = [[9, 0, 0, 0], [1, 0, 0, 0]] := by decide +kernel
  have hseven := (h.2 hdone).2 [7, 0, 0, 0]
  rw [named_A, hkeys, setOf, toList_refilled] at hseven
  simp at hseven

/-- With `set["A"] = true` the string 2 comes back as itself. -/
theorem right_short : Right tableHost stringSet (.string (bytes "A")) true (setOf 2) := by
  intro keys hread
  have hkeys : keys = [.string (bytes "B")] := by
    have htext : (setOf 2).toList.mapM (readKey tableHost stringSet) =
        some [.string (bytes "B")] := rfl
    exact Option.some.inj (hread.symm.trans htext)
  subst hkeys
  have hfind : find tableHost stringSet [.string (bytes "B")] (.string (bytes "A")) = none := by
    decide +kernel
  rw [hfind]
  rintro -
  have hself : ∀ k ∈ (setOf 2).toList, comesBackAs tableHost stringSet k = some k := by
    decide +kernel
  rw [comesBack_iff_of_self hself]
  intro k
  split
  · exact .inl rfl
  · rfl

end

end HashSets
end Bg3le
