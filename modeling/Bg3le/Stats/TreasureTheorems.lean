import Bg3le.Engine.NumberMapTheorems
import Bg3le.Stats.ManagerTheorems
import Bg3le.Stats.Treasure
import Mathlib.Data.List.Find

/-!
# A written treasure table is read back

What is built refers to the pools as they were, and a pool only ever grows at its end: so an
index that was found keeps its name, and only an index past the end can come to have one.
-/

namespace Bg3le
namespace StatsSets

open Engine

variable {strings : StringTable} {hash : UInt32 → Option ℕ} {allocs : Allocs} {stats stats' : Stats}
  {input : Table}

/-! ## What a table comes back as -/

/-- The reference, with what of its name is before a NUL. -/
def CategoryRef.cut (c : CategoryRef) : CategoryRef := { c with name := cStr c.name }

def SubTable.written (s : SubTable) : SubTable := { s with totalCount := s.count }

/-- The value, but for the counts. -/
def Table.written (input : Table) : Table :=
  { input with subTables := input.subTables.map SubTable.written }

/-- As many of everything as a reading goes through. -/
structure Table.Small (input : Table) : Prop where
  subTables : input.subTables.length ≤ 4096
  categories : ∀ s ∈ input.subTables, s.categories.length ≤ 4096
  dropCounts : ∀ s ∈ input.subTables, s.dropCounts.length ≤ 4096

/-- The managers' arrays are arrays of the engine's, and their tables have been given out. -/
structure Stats.Valid (stats : Stats) : Prop where
  array : stats.tables.values.Valid stats.tables.memory
  given {address : ℕ} (h : some address ∈ stats.tables.elements) : address < stats.tableCount

/-- The text table has one id for a text. -/
def StringTable.Faithful (strings : StringTable) : Prop :=
  ∀ text id, strings.intern text = some id → id ≠ kNull → strings.text id = text

/-- What an update that said true owes. -/
structure ReadsBack (strings : StringTable) (stats stats' : Stats) (input : Table) : Prop where
  table : readTable strings stats' input.name = some input.written
  others : ∀ name, idOf strings name ≠ idOf strings input.name →
    readTable strings stats' name = readTable strings stats name
  categories : ∀ name, readCategory strings stats' name = readCategory strings stats name
  totals : ∀ address, getTable strings stats' input.name = some address →
    (stats'.tableAt address).subTables.map (Option.map (·.totalFrequency)) =
      input.subTables.map fun s => some (total (s.categories.map (·.frequency)))

/-- A table refers to the table at an index. -/
def TreasureTable.Refers (table : TreasureTable) (index : ℕ) : Prop :=
  ∃ sub ∈ pointed table.subTables, ∃ category ∈ pointed sub.categories,
    category.isTreasureTable = true ∧ category.index.toInt = index

/-- The names are C strings; and where the table is new, there are fewer tables than are read, and
no table refers to one past them. -/
structure Fits (strings : StringTable) (stats : Stats) (input : Table) : Prop where
  name : cStr input.name = input.name
  names : ∀ s ∈ input.subTables, ∀ c ∈ s.categories, cStr c.name = c.name
  room (hnew : getTable strings stats input.name = none) :
    stats.tables.elements.length < 2 ^ 22
  refers (hnew : getTable strings stats input.name = none) {name : Bytes} {address : ℕ}
    (h : getTable strings stats name = some address) :
    ¬ (stats.tableAt address).Refers stats.tables.elements.length

/-! ## What is built -/

/-- A step that went through, and what followed it. -/
theorem ok_of_bind {α β : Type} {first : Except Failure α} {rest : α → Except Failure β} {b : β}
    (h : first >>= rest = .ok b) : ∃ a, first = .ok a ∧ rest a = .ok b := by
  cases first with
  | error failure => cases h
  | ok a => exact ⟨a, rfl, h⟩

/-- Everything that is built is built from its own value. -/
theorem forall₂_of_buildAll {α β : Type} {build : ℕ → α → Except Failure β} {R : α → β → Prop}
    (hbuild : ∀ i a b, build i a = .ok b → R a b) : ∀ {i : ℕ} {as : List α} {bs : List β},
    buildAll build i as = .ok bs → List.Forall₂ R as bs
  | _, [], bs, h => by
    obtain rfl : [] = bs := Except.ok.inj h
    exact .nil
  | i, a :: as, bs, h => by
    obtain ⟨b, hb, h⟩ := ok_of_bind h
    obtain ⟨bs', hbs, h⟩ := ok_of_bind h
    obtain rfl : b :: bs' = bs := Except.ok.inj h
    exact .cons (hbuild i a b hb) (forall₂_of_buildAll hbuild hbs)

/-- An array that is filled holds all items. -/
theorem fillArray_ok {α : Type} {given : Bool} {items filled : List α}
    (h : fillArray given items = .ok filled) : filled = items := by
  unfold fillArray at h
  split at h
  · exact (Except.ok.inj h).symm
  · exact absurd h (by simp)

/-- What is built for a reference: the index has the name's id in its pool. -/
structure RefersTo (strings : StringTable) (stats : Stats) (c : CategoryRef)
    (category : TreasureSubTableCategory) : Prop where
  frequency : category.frequency = c.frequency
  frequencies : category.frequencies = c.frequencies
  isTable : category.isTreasureTable = c.isTable
  found : ∃ index id, category.index = Int32.ofNat index ∧ nameId strings c.name = some id ∧
    (if c.isTable then stats.tableNames else stats.categoryNames)[index]? = some id

/-- A category that is built refers to what it is built from. -/
theorem refersTo_of_build {given : Bool} {c : CategoryRef} {category : TreasureSubTableCategory}
    (h : buildCategory strings stats given c = .ok category) :
    RefersTo strings stats c category := by
  unfold buildCategory at h
  split at h
  · exact absurd h (by simp)
  · next index hindex =>
    split at h
    · exact absurd h (by simp)
    · obtain rfl := Except.ok.inj h
      obtain ⟨id, hid, hfind⟩ := Option.bind_eq_some_iff.mp hindex
      obtain ⟨hlt, hsame, -⟩ := List.findIdx?_eq_some_iff_getElem.mp hfind
      refine ⟨rfl, rfl, rfl, index, id, rfl, hid, ?_⟩
      rw [List.getElem?_eq_getElem hlt, of_decide_eq_true hsame]

/-- What is built for a sub-table. -/
structure Built (strings : StringTable) (stats : Stats) (s : SubTable)
    (sub : TreasureSubTable) : Prop where
  categories : ∃ cats, sub.categories = cats.map some ∧
    List.Forall₂ (RefersTo strings stats) s.categories cats
  totalFrequency : sub.totalFrequency = total (s.categories.map (·.frequency))
  dropCounts : sub.dropCounts = s.dropCounts
  totalCount : sub.totalCount = s.count
  startLevel : sub.startLevel = s.startLevel
  endLevel : sub.endLevel = s.endLevel

/-- So does a sub-table. -/
theorem built_of_build {subAllocs : SubAllocs} {s : SubTable} {sub : TreasureSubTable}
    (h : buildSub strings stats subAllocs s = .ok sub) : Built strings stats s sub := by
  unfold buildSub at h
  split at h
  · exact absurd h (by simp)
  · obtain ⟨cats, hcats, h⟩ := ok_of_bind h
    obtain ⟨categories, hcategories, h⟩ := ok_of_bind h
    obtain ⟨frequencies, -, h⟩ := ok_of_bind h
    obtain ⟨drops, hdrops, h⟩ := ok_of_bind h
    obtain ⟨amounts, -, h⟩ := ok_of_bind h
    obtain rfl := Except.ok.inj h
    refine ⟨⟨cats, fillArray_ok hcategories, ?_⟩, rfl, fillArray_ok hdrops, rfl, rfl, rfl⟩
    refine forall₂_of_buildAll ?_ hcats
    intro j c category hbuild
    exact refersTo_of_build hbuild

/-! ## What was built is read back -/

theorem pointed_map_some {α : Type} {items : List α} (h : items.length ≤ 4096) :
    pointed (items.map some) = items := by
  rw [pointed, List.take_of_length_le (by rwa [List.length_map]), List.filterMap_map]
  exact List.filterMap_some

/-- An id of a name is not the null one, and its text is the name's. -/
theorem textOf_nameId (hfaithful : strings.Faithful) {name : Bytes} {id : UInt32}
    (h : nameId strings name = some id) :
    id ≠ kNull ∧ cStr name ≠ [] ∧ textOf strings id = cStr name := by
  obtain ⟨hid, hnull⟩ := Option.filter_eq_some_iff.mp h
  have hnull : id ≠ kNull := of_decide_eq_true hnull
  unfold idOf at hid
  split at hid
  · exact absurd (Option.some.inj hid).symm hnull
  · next hname =>
    refine ⟨hnull, hname, ?_⟩
    rw [textOf, if_neg hnull]
    exact hfaithful _ _ hid hnull

/-- The pools have what they had, and perhaps more at the end of the tables. -/
structure Grown (stats stats' : Stats) : Prop where
  tables : ∃ more, stats'.tableNames = stats.tableNames ++ more
  categories : stats'.categoryNames = stats.categoryNames

/-- What a manager held stays at its index. -/
theorem Grown.getElem? (h : Grown stats stats') (isTable : Bool) {index : ℕ} {id : UInt32}
    (hid : (if isTable then stats.tableNames else stats.categoryNames)[index]? = some id) :
    (if isTable then stats'.tableNames else stats'.categoryNames)[index]? = some id := by
  cases isTable with
  | false =>
    simp only [Bool.false_eq_true, if_false, h.categories] at hid ⊢
    exact hid
  | true =>
    obtain ⟨more, hmore⟩ := h.tables
    simp only [if_true, hmore] at hid ⊢
    rw [List.getElem?_append_left (List.getElem?_eq_some_iff.mp hid).1]
    exact hid

/-- A manager's names are as many as it may hold. -/
theorem length_names_le (stats : Stats) (isTable : Bool) :
    (if isTable then stats.tableNames else stats.categoryNames).length ≤ 2 ^ 22 := by
  cases isTable with
  | false =>
    simp only [Bool.false_eq_true, if_false, Stats.categoryNames, List.length_map]
    exact Manager.length_managerValues_le _
  | true =>
    simp only [if_true, Stats.tableNames, List.length_map]
    exact Manager.length_managerValues_le _

/-- A reference reads as its category, cut to what the engine holds. -/
theorem readRef_of_refersTo (hfaithful : strings.Faithful) (hgrown : Grown stats stats')
    {c : CategoryRef} {category : TreasureSubTableCategory}
    (h : RefersTo strings stats c category) : readRef strings stats' category = c.cut := by
  obtain ⟨index, id, hindex, hid, hpool⟩ := h.found
  have hlt := (List.getElem?_eq_some_iff.mp hpool).1
  have hsmall := length_names_le stats c.isTable
  have hint : category.index.toInt = index := by
    rw [hindex, Int32.toInt_ofNat_of_lt (by omega)]
  have hname := (textOf_nameId hfaithful hid).2.2
  simp only [readRef, hint, h.isTable, h.frequency, h.frequencies, Int.toNat_natCast,
    hgrown.getElem? c.isTable hpool, Option.map_some, Option.getD_some, hname,
    if_pos (Int.natCast_nonneg index)]
  rfl

/-- The value as it comes back: the names cut, the counts as they were written. -/
def SubTable.cut (s : SubTable) : SubTable :=
  { s with totalCount := s.count, categories := s.categories.map CategoryRef.cut }

theorem map_eq_of_forall₂ {α β γ : Type} {R : α → β → Prop} {f : α → γ} {g : β → γ}
    {as : List α} {bs : List β} (h : List.Forall₂ R as bs)
    (hsame : ∀ a ∈ as, ∀ b, R a b → g b = f a) : bs.map g = as.map f := by
  induction h with
  | nil => rfl
  | cons hab _ ih =>
    rw [List.map_cons, List.map_cons, hsame _ List.mem_cons_self _ hab,
      ih fun a ha => hsame a (List.mem_cons_of_mem _ ha)]

/-- A sub-table reads as it was given. -/
theorem readSub_of_built (hfaithful : strings.Faithful) (hgrown : Grown stats stats')
    {s : SubTable} {sub : TreasureSubTable} (h : Built strings stats s sub)
    (hcategories : s.categories.length ≤ 4096) (hdrops : s.dropCounts.length ≤ 4096) :
    readSub strings stats' sub = s.cut := by
  obtain ⟨cats, hcats, hall⟩ := h.categories
  have hlength : cats.length ≤ 4096 := hall.length_eq ▸ hcategories
  have hread := map_eq_of_forall₂ hall (f := CategoryRef.cut) (g := readRef strings stats')
    fun c _ category => readRef_of_refersTo hfaithful hgrown
  simp only [readSub, hcats, pointed_map_some hlength, hread, h.dropCounts, h.totalCount,
    h.startLevel, h.endLevel, List.take_of_length_le hdrops]
  rfl

/-- The object that an update leaves. -/
def Table.object (input : Table) (id : UInt32) (subs : List TreasureSubTable) : TreasureTable where
  name := id
  minLevel := input.minLevel
  maxLevel := input.maxLevel
  ignoreLevelDiff := input.ignoreLevelDiff
  useTreasureGroupContainers := input.useTreasureGroupContainers
  canMerge := input.canMerge
  subTables := subs.map some

def Table.cut (input : Table) : Table :=
  { input with name := cStr input.name, subTables := input.subTables.map SubTable.cut }

/-- A table reads as it was given. -/
theorem readTable_of_object (hfaithful : strings.Faithful) (hgrown : Grown stats stats')
    (hsmall : input.Small) {id : UInt32} (hid : nameId strings input.name = some id)
    {subs : List TreasureSubTable} (hsubs : List.Forall₂ (Built strings stats) input.subTables subs)
    {address : ℕ} (hget : getTable strings stats' input.name = some address)
    (hobject : stats'.tableAt address = input.object id subs) :
    readTable strings stats' input.name = some input.cut := by
  have hlength : subs.length ≤ 4096 := hsubs.length_eq ▸ hsmall.subTables
  have hread := map_eq_of_forall₂ hsubs (f := SubTable.cut) (g := readSub strings stats')
    fun s hs sub hbuilt => readSub_of_built hfaithful hgrown hbuilt (hsmall.categories s hs)
      (hsmall.dropCounts s hs)
  simp only [readTable, hget, Option.map_some, hobject, Table.object, pointed_map_some hlength,
    hread, (textOf_nameId hfaithful hid).2.2]
  rfl

/-- It is the value that was written just where the names are C strings. -/
theorem cut_eq_written_iff : input.cut = input.written ↔ cStr input.name = input.name ∧
    ∀ s ∈ input.subTables, ∀ c ∈ s.categories, cStr c.name = c.name := by
  have hsub (s : SubTable) : s.cut = s.written ↔ ∀ c ∈ s.categories, cStr c.name = c.name := by
    have hcut : s.cut = s.written ↔ s.categories.map CategoryRef.cut = s.categories.map id := by
      rw [List.map_id]
      constructor
      · exact congrArg SubTable.categories
      · intro h
        rw [SubTable.cut, h]
        rfl
    rw [hcut, List.map_inj_left]
    refine forall₂_congr fun c _ => ?_
    constructor
    · exact congrArg CategoryRef.name
    · intro h
      rw [CategoryRef.cut, h]
      rfl
  constructor
  · intro h
    refine ⟨congrArg Table.name h, fun s hs => (hsub s).mp ?_⟩
    have hsubs : input.subTables.map SubTable.cut = input.subTables.map SubTable.written :=
      congrArg Table.subTables h
    exact List.map_inj_left.mp hsubs s hs
  · rintro ⟨hname, hnames⟩
    have hsubs : input.subTables.map SubTable.cut = input.subTables.map SubTable.written :=
      List.map_inj_left.mpr fun s hs => (hsub s).mpr (hnames s hs)
    rw [Table.cut, Table.written, hname, hsubs]

/-! ## Every other table -/

/-- A table whose object stays reads as before just where its references do. -/
theorem readTable_eq_iff {name : Bytes} {address : ℕ}
    (hget : getTable strings stats name = some address)
    (hget' : getTable strings stats' name = some address)
    (hobject : stats'.tableAt address = stats.tableAt address) :
    readTable strings stats' name = readTable strings stats name ↔
      ∀ sub ∈ pointed (stats.tableAt address).subTables, ∀ category ∈ pointed sub.categories,
        readRef strings stats' category = readRef strings stats category := by
  have hsub (sub : TreasureSubTable) : readSub strings stats' sub = readSub strings stats sub ↔
      ∀ category ∈ pointed sub.categories,
        readRef strings stats' category = readRef strings stats category := by
    rw [← List.map_inj_left]
    constructor
    · exact congrArg SubTable.categories
    · intro h
      rw [readSub, h]
      rfl
  have hsubs : readTable strings stats' name = readTable strings stats name ↔
      (pointed (stats.tableAt address).subTables).map (readSub strings stats') =
        (pointed (stats.tableAt address).subTables).map (readSub strings stats) := by
    simp only [readTable, hget, hget', hobject, Option.map_some, Option.some.injEq,
      Table.mk.injEq, true_and]
  rw [hsubs, List.map_inj_left]
  exact forall₂_congr fun sub _ => hsub sub

/-- A table that is not there is not read. -/
theorem readTable_eq_none {name : Bytes} (hget : getTable strings stats name = none) :
    readTable strings stats name = none := by
  rw [readTable, hget, Option.map_none]

/-- A name that has another id has no table's, or another one. -/
theorem nameId_ne {name : Bytes} {id : UInt32} (hid : nameId strings input.name = some id)
    (hne : idOf strings name ≠ idOf strings input.name) : nameId strings name ≠ some id := by
  intro h
  rw [(Option.filter_eq_some_iff.mp h).1, (Option.filter_eq_some_iff.mp hid).1] at hne
  exact hne rfl

/-- The table that a name leads to has the name's id. -/
theorem name_of_getTable {name : Bytes} {address : ℕ}
    (h : getTable strings stats name = some address) :
    nameId strings name = some (stats.tableAt address).name ∧
      some address ∈ managerValues stats.tables := by
  obtain ⟨id, hid, hfind⟩ := Option.bind_eq_some_iff.mp h
  have hfind := Option.join_eq_some_iff.mp hfind
  have hname : stats.tableName (some address) = id := by simpa using List.find?_some hfind
  rw [hid, ← hname]
  exact ⟨rfl, List.mem_of_find?_eq_some hfind⟩

/-- A name that leads to no table is none of the pool's. -/
theorem find_eq_none_of_getTable {name : Bytes} {id : UInt32} (hid : nameId strings name = some id)
    (h : getTable strings stats name = none) :
    (managerValues stats.tables).find? (stats.tableName · = id) = none := by
  cases hfind : (managerValues stats.tables).find? (stats.tableName · = id) with
  | none => rfl
  | some element =>
    exfalso
    have hname : stats.tableName element = id := by simpa using List.find?_some hfind
    cases element with
    | none =>
      have hnull := (Option.filter_eq_some_iff.mp hid).2
      exact of_decide_eq_true hnull hname.symm
    | some address =>
      rw [getTable, get, hid, Option.bind_some, hfind] at h
      exact absurd h (by simp)

/-! ## A table that was there -/

/-- The objects after an update: one is the value's, the others are as they were. -/
structure Swapped (stats stats' : Stats) (address : ℕ) (object : TreasureTable) : Prop where
  tableAt : stats'.tableAt = Function.update stats.tableAt address object
  categories : stats'.categories = stats.categories
  categoryAt : stats'.categoryAt = stats.categoryAt

/-- Another table in the place of one leaves the categories. -/
theorem Swapped.readCategory {address : ℕ} {object : TreasureTable}
    (h : Swapped stats stats' address object) (name : Bytes) :
    readCategory strings stats' name = readCategory strings stats name := by
  have hname : stats'.categoryName = stats.categoryName := by
    funext element
    cases element with
    | none => rfl
    | some a => simp only [Stats.categoryName, h.categoryAt]
  simp only [StatsSets.readCategory, getCategory, hname, h.categories, h.categoryAt]

theorem Swapped.categoryNames {address : ℕ} {object : TreasureTable}
    (h : Swapped stats stats' address object) : stats'.categoryNames = stats.categoryNames := by
  have hname : stats'.categoryName = stats.categoryName := by
    funext element
    cases element with
    | none => rfl
    | some a => simp only [Stats.categoryName, h.categoryAt]
  rw [Stats.categoryNames, Stats.categoryNames, hname, h.categories]

/-- The sub-tables' totals, in the object that the name leads to. -/
theorem totals_of_built {id : UInt32} {subs : List TreasureSubTable}
    (hsubs : List.Forall₂ (Built strings stats) input.subTables subs) :
    (input.object id subs).subTables.map (Option.map (·.totalFrequency)) =
      input.subTables.map fun s => some (total (s.categories.map (·.frequency))) := by
  rw [Table.object, List.map_map]
  refine map_eq_of_forall₂ hsubs fun s _ sub hbuilt => ?_
  rw [Function.comp_apply, Option.map_some, hbuilt.totalFrequency]

/-- A table that is replaced reads back where its names and numbers fit. -/
theorem readsBack_iff_of_found (hfaithful : strings.Faithful) (hsmall : input.Small) {id : UInt32}
    (hid : nameId strings input.name = some id) {subs : List TreasureSubTable}
    (hsubs : List.Forall₂ (Built strings stats) input.subTables subs) {address : ℕ}
    (hget : getTable strings stats input.name = some address)
    (hswapped : Swapped stats stats' address (input.object id subs))
    (htables : stats'.tables = stats.tables) :
    ReadsBack strings stats stats' input ↔ Fits strings stats input := by
  -- the object that is replaced has the name of the one before it
  have hname : stats'.tableName = stats.tableName := by
    funext element
    cases element with
    | none => rfl
    | some a =>
      simp only [Stats.tableName, hswapped.tableAt, Function.update_apply]
      split
      · next heq =>
        subst heq
        exact Option.some.inj (hid.symm.trans (name_of_getTable hget).1)
      · rfl
  have htableNames : stats'.tableNames = stats.tableNames := by
    rw [Stats.tableNames, Stats.tableNames, hname, htables]
  have hgets (name : Bytes) : getTable strings stats' name = getTable strings stats name := by
    rw [getTable, getTable, hname, htables]
  have hgrown : Grown stats stats' := ⟨⟨[], by rw [htableNames, List.append_nil]⟩,
    hswapped.categoryNames⟩
  have hobject : stats'.tableAt address = input.object id subs := by
    rw [hswapped.tableAt, Function.update_self]
  have hread := readTable_of_object hfaithful hgrown hsmall hid hsubs
    ((hgets input.name).trans hget) hobject
  have hnew : getTable strings stats input.name ≠ none := by
    rw [hget]
    exact Option.some_ne_none address
  constructor
  · intro hback
    obtain ⟨hcut, hnames⟩ := cut_eq_written_iff.mp (Option.some.inj (hread.symm.trans hback.table))
    exact ⟨hcut, hnames, fun h => absurd h hnew, fun h => absurd h hnew⟩
  · intro hfits
    refine ⟨?_, ?_, hswapped.readCategory, ?_⟩
    · rw [hread, cut_eq_written_iff.mpr ⟨hfits.name, hfits.names⟩]
    · intro name hne
      cases hother : getTable strings stats name with
      | none => rw [readTable_eq_none hother, readTable_eq_none ((hgets name).trans hother)]
      | some other =>
        -- another name has another object, which was not touched
        have hdiffers : other ≠ address := by
          rintro rfl
          exact nameId_ne hid hne ((name_of_getTable hother).1.trans
            ((name_of_getTable hget).1.symm.trans hid))
        rw [readTable_eq_iff hother ((hgets name).trans hother)
          (by rw [hswapped.tableAt, Function.update_of_ne hdiffers])]
        intro _ _ category _
        rw [readRef, readRef, htableNames, hswapped.categoryNames]
    · intro a ha
      obtain rfl : address = a := Option.some.inj (hget.symm.trans ((hgets input.name).symm.trans ha))
      rw [hobject]
      exact totals_of_built hsubs

/-! ## A new table -/

/-- The manager and the objects once a new table is in. -/
structure Added (stats stats' : Stats) (object : TreasureTable) : Prop
    extends Swapped stats stats' stats.tableCount object where
  array : stats'.tables.values.Valid stats'.tables.memory
  elements : stats'.tables.elements = stats.tables.elements ++ [some stats.tableCount]

variable {object : TreasureTable}

/-- A new table leaves the names of the others. -/
theorem Added.tableName (h : Added stats stats' object) (hvalid : stats.Valid) :
    ∀ element ∈ stats.tables.elements, stats'.tableName element = stats.tableName element := by
  intro element helement
  cases element with
  | none => rfl
  | some address =>
    have hne := (hvalid.given helement).ne
    simp only [Stats.tableName, h.tableAt, Function.update_of_ne hne]

theorem Added.tableName_new (h : Added stats stats' object) :
    stats'.tableName (some stats.tableCount) = object.name := by
  simp only [Stats.tableName, h.tableAt, Function.update_self]

/-- It comes behind them. -/
theorem Added.values (h : Added stats stats' object) (hroom : stats.tables.elements.length < 2 ^ 22) :
    managerValues stats'.tables = stats.tables.elements ++ [some stats.tableCount] := by
  rw [← h.elements]
  apply Manager.managerValues_of_valid h.array
  rw [h.elements, List.length_append, List.length_singleton]
  omega

/-- So does its name. -/
theorem Added.tableNames (h : Added stats stats' object) (hvalid : stats.Valid)
    (hroom : stats.tables.elements.length < 2 ^ 22) :
    stats'.tableNames = stats.tableNames ++ [object.name] := by
  rw [Stats.tableNames, Stats.tableNames, h.values hroom,
    Manager.managerValues_of_valid hvalid.array hroom.le, List.map_append, List.map_singleton,
    h.tableName_new, List.map_congr_left (h.tableName hvalid)]

/-- With as many tables as can be read, one more is one too many. -/
theorem Added.values_of_full (h : Added stats stats' object)
    (hfull : 2 ^ 22 ≤ stats.tables.elements.length) : managerValues stats'.tables = [] := by
  apply Manager.managerValues_of_many
  have hlength := h.array.length_elements
  have helements : stats'.tables.values.elements stats'.tables.memory =
      stats.tables.elements ++ [some stats.tableCount] := h.elements
  rw [helements, List.length_append, List.length_singleton] at hlength
  omega

/-- The others are found as before. -/
theorem Added.getTable (h : Added stats stats' object) (hvalid : stats.Valid)
    (hroom : stats.tables.elements.length < 2 ^ 22) {name : Bytes}
    (hne : nameId strings name ≠ some object.name) :
    getTable strings stats' name = getTable strings stats name := by
  unfold StatsSets.getTable get
  cases hid : nameId strings name with
  | none => rfl
  | some id =>
    have hlast : ([some stats.tableCount]).find? (stats'.tableName · = id) = none := by
      rw [List.find?_singleton, if_neg]
      rw [decide_eq_true_eq, h.tableName_new]
      rintro rfl
      exact hne hid
    have hfirst : stats.tables.elements.find? (stats'.tableName · = id) =
        stats.tables.elements.find? (stats.tableName · = id) :=
      List.find?_congr fun element helement => by rw [h.tableName hvalid element helement]
    rw [Option.bind_some, Option.bind_some, h.values hroom,
      Manager.managerValues_of_valid hvalid.array hroom.le, List.find?_append, hlast, Option.or_none,
      hfirst]

/-- It is found under its name. -/
theorem Added.getTable_new (h : Added stats stats' object) (hvalid : stats.Valid)
    (hroom : stats.tables.elements.length < 2 ^ 22) {name : Bytes}
    (hid : nameId strings name = some object.name)
    (hnew : StatsSets.getTable strings stats name = none) :
    StatsSets.getTable strings stats' name = some stats.tableCount := by
  have hold := find_eq_none_of_getTable hid hnew
  rw [Manager.managerValues_of_valid hvalid.array hroom.le] at hold
  have hfirst : stats.tables.elements.find? (stats'.tableName · = object.name) = none := by
    rw [← hold]
    exact List.find?_congr fun element helement => by rw [h.tableName hvalid element helement]
  rw [StatsSets.getTable, get, hid, Option.bind_some, h.values hroom, List.find?_append, hfirst,
    Option.none_or, List.find?_singleton, if_pos (decide_eq_true h.tableName_new)]
  rfl

/-- A reference reads as before unless it is to the index that the new table has. -/
theorem Added.readRef_eq_iff (h : Added stats stats' object) (hvalid : stats.Valid)
    (hroom : stats.tables.elements.length < 2 ^ 22) (hname : textOf strings object.name ≠ [])
    (category : TreasureSubTableCategory) :
    readRef strings stats' category = readRef strings stats category ↔
      ¬ (category.isTreasureTable = true ∧
        category.index.toInt = stats.tables.elements.length) := by
  have hlength : stats.tableNames.length = stats.tables.elements.length := by
    rw [Stats.tableNames, List.length_map, Manager.managerValues_of_valid hvalid.array hroom.le]
  cases htable : category.isTreasureTable with
  | false =>
    simp only [readRef, htable, Bool.false_eq_true, if_false, h.categoryNames, false_and,
      not_false_eq_true]
  | true =>
    simp only [readRef, htable, if_true, h.tableNames hvalid hroom, CategoryRef.mk.injEq, true_and,
      and_true]
    by_cases hpos : 0 ≤ category.index.toInt
    · rw [if_pos hpos, if_pos hpos]
      rcases Nat.lt_trichotomy category.index.toInt.toNat stats.tableNames.length with
        hlt | heq | hgt
      · rw [List.getElem?_append_left hlt]
        apply iff_of_true rfl
        omega
      · rw [heq, List.getElem?_concat_length, List.getElem?_eq_none le_rfl]
        apply iff_of_false hname
        rw [not_not]
        omega
      · rw [List.getElem?_eq_none (by rw [List.length_append, List.length_singleton]; omega),
          List.getElem?_eq_none hgt.le]
        apply iff_of_true rfl
        omega
    · rw [if_neg hpos, if_neg hpos]
      apply iff_of_true rfl
      omega

/-- A table that is added reads back where its names and numbers fit, and there is room. -/
theorem readsBack_iff_of_added (hfaithful : strings.Faithful) (hsmall : input.Small)
    (hvalid : stats.Valid) {id : UInt32} (hid : nameId strings input.name = some id)
    {subs : List TreasureSubTable}
    (hsubs : List.Forall₂ (Built strings stats) input.subTables subs)
    (hnew : getTable strings stats input.name = none)
    (hadded : Added stats stats' (input.object id subs)) :
    ReadsBack strings stats stats' input ↔ Fits strings stats input := by
  by_cases hroom : stats.tables.elements.length < 2 ^ 22
  · have hgrown : Grown stats stats' :=
      ⟨⟨_, hadded.tableNames hvalid hroom⟩, hadded.categoryNames⟩
    have hget := hadded.getTable_new hvalid hroom hid hnew
    have hobject : stats'.tableAt stats.tableCount = input.object id subs := by
      rw [hadded.tableAt, Function.update_self]
    have hread := readTable_of_object hfaithful hgrown hsmall hid hsubs hget hobject
    obtain ⟨-, hcut, htext⟩ := textOf_nameId hfaithful hid
    have hname : textOf strings (input.object id subs).name ≠ [] := by
      rw [show (input.object id subs).name = id from rfl, htext]
      exact hcut
    -- the tables of other names are where they were, and read as before but for that index
    have hother {name : Bytes} {address : ℕ} (hne : nameId strings name ≠ some id)
        (ha : getTable strings stats name = some address) :
        readTable strings stats' name = readTable strings stats name ↔
          ¬ (stats.tableAt address).Refers stats.tables.elements.length := by
      have hlt := hvalid.given (Manager.managerValues_of_valid hvalid.array hroom.le ▸
        (name_of_getTable ha).2)
      rw [readTable_eq_iff ha ((hadded.getTable hvalid hroom hne).trans ha)
        (by rw [hadded.tableAt, Function.update_of_ne hlt.ne])]
      simp only [hadded.readRef_eq_iff hvalid hroom hname, TreasureTable.Refers]
      push Not
      rfl
    constructor
    · intro hback
      obtain ⟨hcut, hnames⟩ :=
        cut_eq_written_iff.mp (Option.some.inj (hread.symm.trans hback.table))
      refine ⟨hcut, hnames, fun _ => hroom, fun _ {name address} ha => ?_⟩
      have hdiffers : idOf strings name ≠ idOf strings input.name := by
        intro hsame
        have hsame : nameId strings name = nameId strings input.name := by
          rw [nameId, nameId, hsame]
        rw [getTable, get, hsame] at ha
        rw [getTable, get, ha] at hnew
        exact absurd hnew (Option.some_ne_none address)
      exact (hother (nameId_ne hid hdiffers) ha).mp (hback.others name hdiffers)
    · intro hfits
      refine ⟨?_, ?_, hadded.readCategory, ?_⟩
      · rw [hread, cut_eq_written_iff.mpr ⟨hfits.name, hfits.names⟩]
      · intro name hne
        have hne := nameId_ne hid hne
        cases ha : getTable strings stats name with
        | none =>
          rw [readTable_eq_none ha,
            readTable_eq_none ((hadded.getTable hvalid hroom hne).trans ha)]
        | some address => exact (hother hne ha).mpr (hfits.refers hnew ha)
      · intro a ha
        obtain rfl : stats.tableCount = a := Option.some.inj (hget.symm.trans ha)
        rw [hobject]
        exact totals_of_built hsubs
  · apply iff_of_false
    · intro hback
      have hempty := hadded.values_of_full (Nat.not_lt.mp hroom)
      have hnone : getTable strings stats' input.name = none := by
        rw [getTable, get, hid, Option.bind_some, hempty]
        rfl
      have htable := hback.table
      rw [readTable_eq_none hnone] at htable
      exact Option.some_ne_none _ htable.symm
    · exact fun hfits => hroom (hfits.room hnew)

/-! ## The update -/

/-- An array is not filled for want of memory alone. -/
theorem fillArray_error {α : Type} {given : Bool} {items : List α} {failure : Failure}
    (h : fillArray given items = .error failure) : failure = .outOfMemory := by
  unfold fillArray at h
  split at h
  · exact absurd h (by simp)
  · exact (Except.error.inj h).symm

/-- The object after both of its stores. -/
theorem swapped_of_found {id : UInt32} {address : ℕ} {subs : List TreasureSubTable}
    (hname : (stats.tableAt address).name = id) :
    Swapped stats ((stats.putTable address input).putSubTables address (subs.map some)) address
      (input.object id subs) where
  tableAt := by
    subst hname
    simp only [Stats.putSubTables, Stats.putTable, Function.update_self, Function.update_idem]
    rfl
  categories := rfl
  categoryAt := rfl

/-- A table that is built anew is another in its place. -/
theorem swapped_of_new (stats : Stats) (input : Table) (id : UInt32)
    (subs : List TreasureSubTable) :
    Swapped stats (((stats.makeNamed id).putTable stats.tableCount input).putSubTables
      stats.tableCount (subs.map some)) stats.tableCount (input.object id subs) where
  tableAt := by
    simp only [Stats.putSubTables, Stats.putTable, Stats.makeNamed, Function.update_self,
      Function.update_idem]
    rfl
  categories := rfl
  categoryAt := rfl

/-- The new name is none of the elements'. -/
theorem findIdx_new (hvalid : stats.Valid) {id : UInt32} {subs : List TreasureSubTable}
    (hid : nameId strings input.name = some id) (hnew : getTable strings stats input.name = none)
    (hswapped : Swapped stats stats' stats.tableCount (input.object id subs))
    (htables : stats'.tables = stats.tables) :
    (managerValues stats'.tables).findIdx? (stats'.tableName · =
      stats'.tableName (some stats.tableCount)) = none := by
  have hname : stats'.tableName (some stats.tableCount) = id := by
    simp only [Stats.tableName, hswapped.tableAt, Function.update_self]
    rfl
  rw [List.findIdx?_eq_none_iff, htables, hname]
  intro element helement
  apply decide_eq_false
  have hold : stats.tableName element ≠ id := by
    simpa using List.find?_eq_none.mp (find_eq_none_of_getTable hid hnew) element helement
  cases element with
  | none => exact hold
  | some address =>
    have hread := Manager.mem_elements_of_mem_managerValues helement
    rw [Stats.tableName, hswapped.tableAt, Function.update_of_ne (hvalid.given hread).ne]
    exact hold

/-- What an update that said true has done. -/
theorem of_updateTable_ok (hvalid : stats.Valid)
    (h : updateTable strings hash allocs stats input = some (.ok (), stats')) :
    ∃ id subs, nameId strings input.name = some id ∧
      List.Forall₂ (Built strings stats) input.subTables subs ∧
      ((∃ address, getTable strings stats input.name = some address ∧
          Swapped stats stats' address (input.object id subs) ∧ stats'.tables = stats.tables) ∨
        getTable strings stats input.name = none ∧ Added stats stats' (input.object id subs)) := by
  unfold updateTable at h
  split at h
  · exact absurd h (by simp)
  · next id hid =>
    split at h
    · exact absurd h (by simp)
    · next subs hbuild =>
      refine ⟨id, subs, hid, forall₂_of_buildAll ?_ hbuild, ?_⟩
      · intro i s sub hsub
        exact built_of_build hsub
      unfold swapIn at h
      cases hget : getTable strings stats input.name with
      | some address =>
        left
        refine ⟨address, rfl, ?_⟩
        simp only [hget, Option.isNone_some, Bool.false_and, Bool.false_eq_true, if_false,
          Option.getD_some] at h
        split at h
        · exact absurd h (by simp)
        · next filled hfill =>
          rw [fillArray_ok hfill] at h
          obtain ⟨-, rfl⟩ := Prod.mk.inj (Option.some.inj h)
          -- the object keeps its address, and the index its names
          have hname := Option.some.inj (hid.symm.trans (name_of_getTable hget).1)
          exact ⟨swapped_of_found hname.symm, rfl⟩
      | none =>
        right
        refine ⟨rfl, ?_⟩
        simp only [hget, Option.isNone_none, Bool.true_and, if_true, Option.getD_none] at h
        split at h
        · exact absurd h (by simp)
        · split at h
          · exact absurd h (by simp)
          · next filled hfill =>
            rw [fillArray_ok hfill] at h
            obtain ⟨⟨inserted, tables⟩, hinsert, hresult⟩ := Option.bind_eq_some_iff.mp h
            -- the new object is filled in before the manager takes it
            have hswapped := swapped_of_new stats input id subs
            cases inserted with
            | false => exact absurd hresult (by simp)
            | true =>
              obtain ⟨-, rfl⟩ := Prod.mk.inj (Option.some.inj hresult)
              have hfind := findIdx_new hvalid hid hget hswapped rfl
              obtain ⟨harray, helements⟩ := elements_of_inserted hvalid.array hfind hinsert
              exact ⟨⟨hswapped.tableAt, rfl, rfl⟩, harray, helements⟩

/-- An update that could not resolve a name has changed nothing. -/
theorem updateTable_unresolved {failure : Failure} (hfailure : failure.unresolved = true)
    (h : updateTable strings hash allocs stats input = some (.error failure, stats')) :
    stats' = stats := by
  unfold updateTable at h
  split at h
  · exact (Prod.mk.inj (Option.some.inj h)).2.symm
  · split at h
    · exact (Prod.mk.inj (Option.some.inj h)).2.symm
    · -- what is swapped in fails for want of memory, or in the manager
      exfalso
      unfold swapIn at h
      simp only at h
      split at h
      · obtain ⟨hsame, -⟩ := Prod.mk.inj (Option.some.inj h)
        rw [← Except.error.inj hsame] at hfailure
        exact absurd hfailure Bool.false_ne_true
      · split at h
        · next hfill =>
          obtain ⟨hsame, -⟩ := Prod.mk.inj (Option.some.inj h)
          rw [← Except.error.inj hsame, fillArray_error hfill] at hfailure
          exact absurd hfailure Bool.false_ne_true
        · split at h
          · obtain ⟨⟨inserted, tables⟩, -, hresult⟩ := Option.bind_eq_some_iff.mp h
            cases inserted with
            | true => exact absurd hresult (by simp)
            | false =>
              obtain ⟨hsame, -⟩ := Prod.mk.inj (Option.some.inj hresult)
              rw [← Except.error.inj hsame] at hfailure
              exact absurd hfailure Bool.false_ne_true
          · exact absurd h (by simp)

/-- Over a name map of the engine's, an update has an outcome. -/
theorem updateTable_defined (hvalid : stats.Valid)
    (hchained : stats.tables.nameToHandle.Chained hash) :
    updateTable strings hash allocs stats input ≠ none := by
  unfold updateTable
  split
  · exact Option.some_ne_none _
  · next id hid =>
    split
    · exact Option.some_ne_none _
    · next subs _ =>
      unfold swapIn
      simp only
      split
      · exact Option.some_ne_none _
      · split
        · exact Option.some_ne_none _
        · next filled hfill =>
          split
          · next hfound =>
            have hnew : getTable strings stats input.name = none := by simpa using hfound
            rw [fillArray_ok hfill, hnew, Option.getD_none, Option.bind_eq_bind]
            have hfind := findIdx_new hvalid hid hnew (swapped_of_new stats input id subs) rfl
            obtain ⟨⟨inserted, tables⟩, hinsert⟩ := Option.ne_none_iff_exists'.mp
              (managerInsert_defined allocs.ready allocs.given allocs.heap
                (show RawArray.Valid _ _ from hvalid.array) hchained hfind)
            intro hnone
            have hrest := Option.bind_eq_none_iff.mp hnone (inserted, tables) hinsert
            cases inserted <;> exact absurd hrest (Option.some_ne_none _)
          · exact Option.some_ne_none _

/-- An update that says true reads back, with all else as before, exactly where it fits, and one
that cannot resolve a name changes nothing. -/
theorem updateTable_readsBack_iff (hfaithful : strings.Faithful) (hvalid : stats.Valid)
    (hsmall : input.Small) :
    (∀ stats', updateTable strings hash allocs stats input = some (.ok (), stats') →
      (ReadsBack strings stats stats' input ↔ Fits strings stats input)) ∧
    (∀ failure stats', failure.unresolved = true →
      updateTable strings hash allocs stats input = some (.error failure, stats') →
        stats' = stats) ∧
    (stats.tables.nameToHandle.Chained hash →
      updateTable strings hash allocs stats input ≠ none) := by
  refine ⟨?_, fun _ _ => updateTable_unresolved, updateTable_defined hvalid⟩
  intro stats' h
  obtain ⟨id, subs, hid, hsubs, ⟨address, hget, hswapped, htables⟩ | ⟨hnew, hadded⟩⟩ :=
    of_updateTable_ok hvalid h
  · exact readsBack_iff_of_found hfaithful hsmall hid hsubs hget hswapped htables
  · exact readsBack_iff_of_added hfaithful hsmall hvalid hid hsubs hnew hadded

/-! ## A table that draws from another -/

def identityHash (key : UInt32) : Option ℕ := some key.toNat

def allGiven : Allocs where
  subTable _ := ⟨true, fun _ => true, true, true, true, true⟩
  table := true
  subTables := true
  ready := true
  given := true
  heap := ⟨true, true, true, true, true⟩

/-- One element under the name, with room for more. -/
def oneElement (name : UInt32) : Manager (Option ℕ) where
  memory := ⟨1, fun _ => ⟨4, fun _ => some 0⟩⟩
  values := ⟨some 0, 4, 1⟩
  nameToHandle := {
    hashKeys := ⟨5, fun b => if b = name.toNat % 5 then 0 else -1⟩
    buckets := 5
    hashKeysSize := 5
    nextIds := ⟨4, fun _ => -2 - (name.toNat % 5 : ℕ)⟩
    nextCapacity := 4
    nextSize := 1
    keys := ⟨4, fun _ => name⟩
    keysCapacity := 4
    keysSize := 1
    values := ⟨4, fun _ => 0⟩
    valuesCapacity := 4
    valuesSize := 1 }
  nextHandle := 1

/-- The table "Shop", which draws once from the category "Arms". -/
def shopStats : Stats where
  tables := oneElement 1
  tableAt _ := ⟨1, 0, 0, false, false, true,
    [some ⟨[some ⟨0, 1, .replicate 7 0, false, false⟩], [1], 1, [⟨1, 1⟩], [1], 1, 0, 0⟩]⟩
  tableCount := 1
  categories := oneElement 2
  categoryAt _ := ⟨2, []⟩

def shopStrings : StringTable where
  intern text :=
    if text = bytes "Shop" then some 1
    else if text = bytes "Arms" then some 2
    else if text = bytes "Chest" then some 3
    else none
  text id := if id = 1 then bytes "Shop" else if id = 2 then bytes "Arms" else bytes "Chest"

/-- A table that draws two or three times, from "Shop" or from "Arms". -/
def drawing (name : Bytes) : Table :=
  ⟨name, 1, 20, false, false, true,
    [⟨0, 1, 5, [⟨3, true, bytes "Shop", .replicate 7 1⟩, ⟨2, false, bytes "Arms", .replicate 7 2⟩],
      [⟨1, 2⟩, ⟨1, 3⟩]⟩, ⟨-1, 0, 0, [⟨1, false, bytes "Arms", .replicate 7 0⟩], []⟩]⟩

theorem shopStrings_faithful : shopStrings.Faithful := by
  intro text id h _
  simp only [shopStrings] at h
  split_ifs at h with hshop harms hchest
  · obtain rfl := Option.some.inj h
    exact hshop.symm
  · obtain rfl := Option.some.inj h
    exact harms.symm
  · obtain rfl := Option.some.inj h
    exact hchest.symm

theorem shopStats_valid : shopStats.Valid where
  array := by
    refine ⟨fun {address} h => ?_, fun h => absurd h (by decide), by decide⟩
    obtain rfl : 0 = address := Option.some.inj h
    exact ⟨Nat.one_pos, by decide⟩
  given {address} h := by
    have helements : shopStats.tables.elements = [some 0] := by decide
    rw [helements, List.mem_singleton] at h
    rw [Option.some.inj h]
    exact Nat.one_pos

theorem drawing_small (name : Bytes) : (drawing name).Small where
  subTables := show 2 ≤ 4096 by decide
  categories := by
    show ∀ s ∈ (drawing []).subTables, s.categories.length ≤ 4096
    decide
  dropCounts := by
    show ∀ s ∈ (drawing []).subTables, s.dropCounts.length ≤ 4096
    decide

theorem drawing_fits {name : Bytes} (hname : cStr name = name) :
    Fits shopStrings shopStats (drawing name) where
  name := hname
  names := by
    show ∀ s ∈ (drawing []).subTables, ∀ c ∈ s.categories, cStr c.name = c.name
    decide
  room _ := by
    show shopStats.tables.elements.length < 2 ^ 22
    decide
  refers _ {_ address} _ := by
    show ¬ (shopStats.tableAt 0).Refers shopStats.tables.elements.length
    unfold TreasureTable.Refers
    decide

/-- The new table "Chest" draws from "Shop", and "Shop" afterwards from itself. -/
theorem updateTable_readsBack_shop :
    (∃ stats', updateTable shopStrings identityHash allGiven shopStats (drawing (bytes "Chest")) =
        some (.ok (), stats') ∧
      ReadsBack shopStrings shopStats stats' (drawing (bytes "Chest"))) ∧
    ∃ stats', updateTable shopStrings identityHash allGiven shopStats (drawing (bytes "Shop")) =
        some (.ok (), stats') ∧
      ReadsBack shopStrings shopStats stats' (drawing (bytes "Shop")) := by
  have hdone : ∀ name ∈ [bytes "Chest", bytes "Shop"],
      ((updateTable shopStrings identityHash allGiven shopStats (drawing name)).map
        fun result => result.1.isOk) = some true := by
    decide +kernel
  have hread (name : Bytes) (hname : cStr name = name)
      (h : ((updateTable shopStrings identityHash allGiven shopStats (drawing name)).map
        fun result => result.1.isOk) = some true) :
      ∃ stats', updateTable shopStrings identityHash allGiven shopStats (drawing name) =
          some (.ok (), stats') ∧ ReadsBack shopStrings shopStats stats' (drawing name) := by
    obtain ⟨⟨result, stats'⟩, hupdate, hok⟩ := Option.map_eq_some_iff.mp h
    cases result with
    | error failure => exact absurd hok Bool.false_ne_true
    | ok _ =>
      refine ⟨stats', hupdate, ?_⟩
      apply ((updateTable_readsBack_iff shopStrings_faithful shopStats_valid
        (drawing_small name)).1 stats' hupdate).mpr
      exact drawing_fits hname
  exact ⟨hread _ (by decide) (hdone _ (by decide)), hread _ (by decide) (hdone _ (by decide))⟩

/-! ## As many tables as can be read -/

/-- The names below 2^22, each in a bucket of its own. -/
def fullNames : RawMap UInt32 Int32 := { fullMap with values := ⟨2 ^ 22 + 1, Int32.ofNat⟩ }

theorem fullNames_kept : fullNames.Kept identityHash where
  distinct := fullMap_chained.distinct
  filed := fullMap_chained.filed
  buckets_pos := fullMap_chained.buckets_pos
  headsRoom := fullMap_chained.headsRoom
  keysRoom := fullMap_chained.keysRoom
  nextRoom := fullMap_chained.nextRoom
  valuesRoom := Nat.le_succ _
  keysCapacity := fullMap_chained.keysCapacity
  nextCapacity := fullMap_chained.nextCapacity
  valuesCapacity := le_rfl
  ends := fullMap_chained.ends
  sized := .inr ⟨3 * 2 ^ 21, by decide, by decide⟩

/-- No tables and no categories. -/
def noElements : Manager (Option ℕ) where
  memory := ⟨0, fun _ => ⟨0, fun _ => none⟩⟩
  values := ⟨none, 0, 0⟩
  nameToHandle := ⟨⟨0, fun _ => -1⟩, 0, 0, ⟨0, fun _ => -1⟩, 0, 0, ⟨0, fun _ => 0⟩, 0, 0,
    ⟨0, fun _ => 0⟩, 0, 0⟩
  nextHandle := 0

/-- The tables of the ids below 2^22, with room for one more. -/
def fullStats : Stats where
  tables := {
    memory := ⟨1, fun _ => ⟨2 ^ 22 + 1, some⟩⟩
    values := ⟨some 0, 4194305, 4194304⟩
    nameToHandle := fullNames
    nextHandle := 4194304 }
  tableAt i := ⟨UInt32.ofNat i, 0, 0, false, false, false, []⟩
  tableCount := 2 ^ 22
  categories := noElements
  categoryAt _ := ⟨0, []⟩

/-- The one text that has an id, 2^22. -/
def oneString : StringTable where
  intern text := if text = bytes "New" then some 4194304 else none
  text _ := bytes "New"

theorem oneString_faithful : oneString.Faithful := by
  intro text id h _
  exact (Option.ite_none_right_eq_some.mp h).1.symm

def newTable : Table := ⟨bytes "New", 1, 20, false, false, true, []⟩

theorem fullStats_size : (4194304 : UInt32).toNat = 2 ^ 22 := rfl

theorem fullStats_elements : fullStats.tables.elements = (List.range (2 ^ 22)).map some := by
  simp only [Manager.elements, RawArray.elements, fullStats, fullStats_size]

theorem fullStats_valid : fullStats.Valid where
  array := by
    refine ⟨fun {address} h => ?_, fun h => absurd h (by simp [fullStats]), by decide⟩
    obtain rfl : 0 = address := Option.some.inj h
    exact ⟨Nat.one_pos, le_rfl⟩
  given {address} h := by
    rw [fullStats_elements] at h
    obtain ⟨i, hi, hsame⟩ := List.mem_map.mp h
    rw [← Option.some.inj hsame]
    exact List.mem_range.mp hi

theorem fullStats_related : fullStats.tables.Related fullStats.tableName identityHash where
  array := fullStats_valid.array
  kept := fullNames_kept
  counted := by
    rw [fullStats_elements, List.length_map, List.length_range]
    rfl
  named {i value} h := by
    rw [fullStats_elements] at h
    obtain ⟨hi, hvalue⟩ := List.getElem?_eq_some_iff.mp h
    rw [List.length_map, List.length_range] at hi
    rw [List.getElem_map, List.getElem_range] at hvalue
    show fullNames.lookup identityHash (fullStats.tableName value) = some (Int32.ofNat i)
    rw [fullNames_kept.toFiled.lookup_iff, ← hvalue]
    exact ⟨i, hi, rfl, rfl⟩

theorem fullStats_stores : StoresKey identityHash allGiven.heap fullNames 4194304 where
  ready := rfl
  taken := by decide
  sampled := by
    unfold RawMap.sampleFiled
    rw [List.all_eq_true]
    intro i hi
    have hi : i < 2 ^ 22 := List.mem_range.mp (List.mem_filter.mp hi).1
    have hkey : (fullNames.keys.get i).toNat = i := toNat_ofNat_of_lt_full hi
    have hmod : i % fullNames.buckets = i := Nat.mod_eq_of_lt (hi.trans (by decide))
    have hread : i < fullNames.headsRead := hi.trans (by decide)
    have hhead : fullNames.heads i = i := (RawMap.heads_of_lt hread).trans (if_pos hi)
    rw [identityHash, hkey, Option.any_some, RawMap.chainReaches, hmod, hhead]
    unfold Chains.walk
    rw [if_pos ⟨Int.natCast_nonneg i, by rw [Int.toNat_natCast]; exact hi⟩, Int.toNat_natCast,
      if_pos (decide_eq_true rfl)]
    rfl
  stored := .inr ⟨rfl, .inl (by decide)⟩

theorem newTable_id : nameId oneString newTable.name = some 4194304 := by
  decide +kernel

theorem newTable_new : getTable oneString fullStats newTable.name = none := by
  cases hget : getTable oneString fullStats newTable.name with
  | none => rfl
  | some address =>
    exfalso
    obtain ⟨hid, hmem⟩ := name_of_getTable hget
    have hlt := fullStats_valid.given (Manager.mem_elements_of_mem_managerValues hmem)
    rw [newTable_id] at hid
    have hname : (UInt32.ofNat address).toNat = 2 ^ 22 :=
      (congrArg UInt32.toNat (Option.some.inj hid)).symm
    rw [toNat_ofNat_of_lt_full hlt] at hname
    exact absurd hname hlt.ne

/-- An update of a new table with no sub-tables, where the insertion takes it. -/
theorem updateTable_of_inserted {id : UInt32} (hid : nameId strings input.name = some id)
    (hempty : input.subTables = []) (hnew : getTable strings stats input.name = none)
    (htable : allocs.table = true)
    (hinsert : ∃ tables, managerInsert (((stats.makeNamed id).putTable stats.tableCount
        input).putSubTables stats.tableCount []).tableName hash allocs.ready allocs.given
      allocs.heap stats.tables (some stats.tableCount) = some (true, tables)) :
    ∃ stats', updateTable strings hash allocs stats input = some (.ok (), stats') := by
  obtain ⟨tables, hinsert⟩ := hinsert
  refine ⟨{ ((stats.makeNamed id).putTable stats.tableCount input).putSubTables
    stats.tableCount [] with tables }, ?_⟩
  unfold updateTable swapIn
  simp only [hid, hempty, buildAll, hnew, htable, fillArray, List.map_nil, List.isEmpty_nil,
    Bool.true_or, if_true, Option.isNone_none, Bool.not_true, Bool.and_false, Bool.false_eq_true,
    if_false, Option.getD_none]
  exact Option.bind_eq_some_iff.mpr ⟨_, hinsert, rfl⟩

theorem newTable_small : newTable.Small where
  subTables := by decide
  categories s hs := absurd hs List.not_mem_nil
  dropCounts s hs := absurd hs List.not_mem_nil

/-- The table of the id 2^22 is added, and no table can be read any more. -/
theorem newTable_not_read : oneString.Faithful ∧ fullStats.Valid ∧
    fullStats.tables.Related fullStats.tableName identityHash ∧ newTable.Small ∧
    ∃ stats', updateTable oneString identityHash allGiven fullStats newTable =
        some (.ok (), stats') ∧ ¬ ReadsBack oneString fullStats stats' newTable := by
  refine ⟨oneString_faithful, fullStats_valid, fullStats_related, newTable_small, ?_⟩
  have hlength : fullStats.tables.elements.length = 2 ^ 22 := by
    rw [fullStats_elements, List.length_map, List.length_range]
  have hvalues := Manager.managerValues_of_valid fullStats_valid.array hlength.le
  have hswapped := swapped_of_new fullStats newTable 4194304 []
  have hname : (((fullStats.makeNamed 4194304).putTable fullStats.tableCount
      newTable).putSubTables fullStats.tableCount []).tableName (some fullStats.tableCount) =
        4194304 := by
    simp only [Stats.tableName, Stats.putSubTables, Stats.putTable, Stats.makeNamed,
      Function.update_self]
  have hupdated : ∃ stats', updateTable oneString identityHash allGiven fullStats newTable =
      some (.ok (), stats') :=
    updateTable_of_inserted newTable_id rfl newTable_new rfl
      (managerInsert_true fullStats_valid.array fullNames_kept.toChained
        (findIdx_new fullStats_valid newTable_id newTable_new hswapped rfl)
        (by rw [hvalues, hlength]; rfl) ⟨rfl, by decide, .inr rfl⟩ (hname ▸ fullStats_stores))
  obtain ⟨stats', hupdate⟩ := hupdated
  refine ⟨stats', hupdate, fun hback => ?_⟩
  obtain ⟨id, subs, hid, -, ⟨address, hget, -⟩ | ⟨-, hadded⟩⟩ :=
    of_updateTable_ok fullStats_valid hupdate
  · exact absurd (newTable_new.symm.trans hget) (Option.some_ne_none address).symm
  · have htable := hback.table
    rw [readTable_eq_none] at htable
    · exact absurd htable (Option.some_ne_none _).symm
    · rw [getTable, get, hid, Option.bind_some, hadded.values_of_full hlength.ge]
      rfl

end StatsSets
end Bg3le
