import Bg3le.Library.Run
import Bg3le.Stats.NameIndex
import Mathlib.Data.List.Induction
import Mathlib.Data.List.Nodup

/-!
# An index that is extended is the one that would be built

A created stat is entered in an index that was built for all the stats before it and for no others,
so the index is the one that the whole array gives.
-/

namespace Bg3le
namespace StatNames

/-! ## Maps -/

section

variable {V : Type}

theorem lookup_append_single (map : List (Bytes × V)) (key k : Bytes) (value : V) :
    (map ++ [(key, value)]).lookup k =
      (map.lookup k).or (if k = key then some value else none) := by
  rw [List.lookup_append]
  congr 1
  by_cases hkey : k = key
  · rw [if_pos hkey, List.lookup_cons, beq_iff_eq.mpr hkey]
  · rw [if_neg hkey, List.lookup_cons, beq_eq_false_iff_ne.mpr hkey]
    rfl

/-- A key emplaced is found, unless an earlier one was. -/
theorem lookup_emplace (map : List (Bytes × V)) (key k : Bytes) (value : V) :
    (emplace map key value).lookup k = (map.lookup k).or (if k = key then some value else none) := by
  unfold emplace
  split_ifs with hthere hkey hkey
  · obtain ⟨v, hv⟩ := Option.isSome_iff_exists.mp hthere
    rw [hkey, hv]
    rfl
  · rw [Option.or_none]
  · rw [lookup_append_single, if_pos hkey]
  · rw [lookup_append_single, if_neg hkey]

end

theorem lookup_map_push (map : List (Bytes × List Bytes)) (key name k : Bytes) :
    (map.map fun e => if e.1 = key then (key, e.2 ++ [name]) else e).lookup k =
      if k = key then (map.lookup key).map (· ++ [name]) else map.lookup k := by
  induction map with
  | nil => split_ifs <;> rfl
  | cons e map ih =>
    obtain ⟨key', names⟩ := e
    rw [List.map_cons, List.lookup_cons, List.lookup_cons, List.lookup_cons, ih]
    by_cases hkey' : key' = key
    · subst hkey'
      rw [if_pos rfl, beq_self_eq_true]
      by_cases hk : k = key'
      · rw [hk, beq_self_eq_true, if_pos rfl, if_pos rfl]
        rfl
      · rw [beq_eq_false_iff_ne.mpr hk, if_neg hk, if_neg hk]
    · rw [if_neg hkey', beq_eq_false_iff_ne.mpr (Ne.symm hkey')]
      by_cases hk : k = key
      · rw [hk, beq_eq_false_iff_ne.mpr (Ne.symm hkey'), if_pos rfl]
      · rw [if_neg hk, if_neg hk]

/-- A name pushed back joins the list of its key. -/
theorem lookup_pushBack (map : List (Bytes × List Bytes)) (key name k : Bytes) :
    (pushBack map key name).lookup k =
      if k = key then some ((map.lookup key).getD [] ++ [name]) else map.lookup k := by
  unfold pushBack
  split_ifs with hthere hkey hkey
  · obtain ⟨names, hnames⟩ := Option.isSome_iff_exists.mp hthere
    rw [lookup_map_push, if_pos hkey, hnames]
    rfl
  · rw [lookup_map_push, if_neg hkey]
  · rw [lookup_append_single, if_pos hkey, hkey, Option.not_isSome_iff_eq_none.mp hthere]
    rfl
  · rw [lookup_append_single, if_neg hkey, Option.or_none]

/-! ## What the indexes are for -/

variable (nameOf typeOf : ℕ → Option Bytes)

/-- The first object of the array with this name. -/
def firstNamed (array : List ℕ) (name : Bytes) : Option ℕ :=
  array.find? fun object => named nameOf object = some name

/-- The object is of the modifier list; every object is of the list without a name. -/
def OfList (list : Bytes) (object : ℕ) : Prop := list = [] ∨ typeOf object = some list

instance (list : Bytes) (object : ℕ) : Decidable (OfList typeOf list object) :=
  inferInstanceAs (Decidable (_ ∨ _))

/-- The names of these objects that resolve to the object and are of the list. -/
def listedBy (resolve : Bytes → Option ℕ) (objects : List ℕ) (list : Bytes) : List Bytes :=
  objects.filterMap fun object => (named nameOf object).filter fun name =>
    resolve name = some object ∧ OfList typeOf list object

/-- The names whose found object is of the list, in array order. -/
def listed (array : List ℕ) (list : Bytes) : List Bytes :=
  listedBy nameOf typeOf (firstNamed nameOf array) array list

def namesOf (byList : List (Bytes × List Bytes)) (list : Bytes) : List Bytes :=
  (byList.lookup list).getD []

variable {nameOf typeOf}

/-- An object added last is found by its name only where none before it has that name. -/
theorem firstNamed_append_single (array : List ℕ) (object : ℕ) (name : Bytes) :
    firstNamed nameOf (array ++ [object]) name =
      (firstNamed nameOf array name).or
        (if named nameOf object = some name then some object else none) := by
  unfold firstNamed
  rw [List.find?_append, List.find?_singleton]
  simp only [decide_eq_true_eq]

/-- The index by name finds the first object of each name. -/
theorem lookup_indexByName (objects : List ℕ) (name : Bytes) :
    (indexByName nameOf objects).lookup name = firstNamed nameOf objects name := by
  induction objects using List.reverseRecOn with
  | nil => rfl
  | append_singleton objects object ih =>
    unfold indexByName at ih ⊢
    rw [List.foldl_append, List.foldl_cons, List.foldl_nil, firstNamed_append_single, ← ih]
    cases hname : named nameOf object with
    | none =>
      dsimp only
      rw [if_neg (Option.some_ne_none name).symm, Option.or_none]
    | some other =>
      dsimp only
      rw [lookup_emplace]
      by_cases heq : name = other
      · rw [if_pos heq, if_pos (congrArg some heq.symm)]
      · rw [if_neg heq, if_neg fun hsome => heq (Option.some.inj hsome).symm]

/-- Filing a name adds it to the list of its object's type. -/
theorem namesOf_fileName (byList : List (Bytes × List Bytes)) (object : ℕ) (name list : Bytes) :
    namesOf (fileName typeOf byList object name) list =
      namesOf byList list ++ if OfList typeOf list object then [name] else [] := by
  -- every name goes to the list without a type
  have hevery (k : Bytes) : namesOf (pushBack byList [] name) k =
      namesOf byList k ++ if k = [] then [name] else [] := by
    unfold namesOf
    rw [lookup_pushBack]
    split_ifs with hk
    · rw [hk]
      rfl
    · rw [List.append_nil]
  have hof : OfList typeOf list object ↔ list = [] ∨ typeOf object = some list := Iff.rfl
  unfold fileName
  cases htype : typeOf object with
  | none =>
    have hsame : OfList typeOf list object ↔ list = [] := by
      rw [hof, htype]
      exact or_iff_left (Option.some_ne_none list).symm
    dsimp only
    rw [hevery]
    simp only [hsame]
  | some type =>
    rw [htype, Option.some.injEq] at hof
    dsimp only
    -- an object of the empty type is not filed twice
    by_cases hnone : type = []
    · have hsame : OfList typeOf list object ↔ list = [] := by
        rw [hof, hnone]
        exact or_iff_left_of_imp Eq.symm
      rw [if_neg (not_not.mpr hnone), hevery]
      simp only [hsame]
    · rw [if_pos hnone]
      by_cases htypes : list = type
      · have hpush : namesOf (pushBack (pushBack byList [] name) type name) list =
            namesOf (pushBack byList [] name) list ++ [name] := by
          unfold namesOf
          rw [lookup_pushBack, if_pos htypes, htypes]
          rfl
        rw [hpush, hevery, if_neg fun hlist => hnone (htypes.symm.trans hlist), List.append_nil,
          if_pos (hof.mpr (.inr htypes.symm))]
      · have hpush : namesOf (pushBack (pushBack byList [] name) type name) list =
            namesOf (pushBack byList [] name) list := by
          unfold namesOf
          rw [lookup_pushBack, if_neg htypes]
        have hsame : OfList typeOf list object ↔ list = [] := by
          rw [hof]
          exact or_iff_left (Ne.symm htypes)
        rw [hpush, hevery]
        simp only [hsame]

/-- An object added last adds its name to its list, where the name leads to it. -/
theorem listedBy_append_single (resolve : Bytes → Option ℕ) (objects : List ℕ) (object : ℕ)
    (list : Bytes) :
    listedBy nameOf typeOf resolve (objects ++ [object]) list =
      listedBy nameOf typeOf resolve objects list ++
        ((named nameOf object).filter fun name =>
          resolve name = some object ∧ OfList typeOf list object).toList := by
  unfold listedBy
  rw [List.filterMap_append, List.filterMap_cons, List.filterMap_nil]
  cases (named nameOf object).filter fun name =>
    resolve name = some object ∧ OfList typeOf list object <;> rfl

/-- The index by list holds the names of each list in order. -/
theorem namesOf_indexByList (byName : List (Bytes × ℕ)) (objects : List ℕ) (list : Bytes) :
    namesOf (indexByList nameOf typeOf byName objects) list =
      listedBy nameOf typeOf (fun name => byName.lookup name) objects list := by
  induction objects using List.reverseRecOn with
  | nil =>
    unfold indexByList listedBy namesOf
    rw [List.foldl_nil, List.lookup_cons, List.filterMap_nil]
    split <;> rfl
  | append_singleton objects object ih =>
    unfold indexByList at ih ⊢
    rw [List.foldl_append, List.foldl_cons, List.foldl_nil, listedBy_append_single, ← ih]
    cases hname : named nameOf object with
    | none =>
      rw [Option.filter_none, Option.toList_none, List.append_nil]
    | some name =>
      dsimp only
      rw [Option.filter_some]
      by_cases hresolves : byName.lookup name = some object
      · rw [if_neg (not_not.mpr hresolves), namesOf_fileName]
        by_cases hof : OfList typeOf list object
        · rw [if_pos hof, if_pos (decide_eq_true ⟨hresolves, hof⟩)]
          rfl
        · rw [if_neg hof, if_neg (by simp [hof])]
          rfl
      · rw [if_pos hresolves, if_neg (by simp [hresolves])]
        exact (List.append_nil _).symm

/-- What is entered for a new object, after objects whose names resolve as before. -/
theorem listed_append_single {array : List ℕ} {object : ℕ} {name : Bytes}
    (hname : named nameOf object = some name) (hnew : firstNamed nameOf array name = none)
    (list : Bytes) :
    listed nameOf typeOf (array ++ [object]) list =
      listed nameOf typeOf array list ++ if OfList typeOf list object then [name] else [] := by
  unfold listed
  rw [listedBy_append_single]
  congr 1
  · -- a name that an earlier object has resolves to the same one
    unfold listedBy
    apply List.filterMap_congr
    intro other hother
    cases hotherName : named nameOf other with
    | none => rfl
    | some otherName =>
      have hfound : (firstNamed nameOf array otherName).isSome := by
        rw [firstNamed, List.find?_isSome]
        exact ⟨other, hother, decide_eq_true hotherName⟩
      obtain ⟨found, hfound⟩ := Option.isSome_iff_exists.mp hfound
      rw [Option.filter_some, Option.filter_some, firstNamed_append_single, hfound, Option.some_or]
  · rw [hname, Option.filter_some, firstNamed_append_single, hnew, hname, if_pos rfl, Option.none_or]
    by_cases hof : OfList typeOf list object
    · rw [if_pos hof, if_pos (decide_eq_true ⟨rfl, hof⟩)]
      rfl
    · rw [if_neg hof, if_neg (by simp [hof])]
      rfl

/-- The names of a list are the names of its objects that are found by them. -/
theorem mem_listed {array : List ℕ} {list name : Bytes} :
    name ∈ listed nameOf typeOf array list ↔
      ∃ object, firstNamed nameOf array name = some object ∧ OfList typeOf list object := by
  unfold listed listedBy
  rw [List.mem_filterMap]
  constructor
  · rintro ⟨object, -, hfilter⟩
    obtain ⟨-, hkeep⟩ := Option.filter_eq_some_iff.mp hfilter
    exact ⟨object, of_decide_eq_true hkeep⟩
  · rintro ⟨object, hfound, hof⟩
    refine ⟨object, List.mem_of_find?_eq_some hfound, ?_⟩
    have hname : named nameOf object = some name := by simpa using List.find?_some hfound
    rw [hname, Option.filter_some]
    exact if_pos (decide_eq_true ⟨hfound, hof⟩)

/-- With no object in the array twice, no name is listed twice. -/
theorem nodup_listed {array : List ℕ} (harray : array.Nodup) (list : Bytes) :
    (listed nameOf typeOf array list).Nodup := by
  unfold listed listedBy
  refine harray.filterMap ?_
  intro object other name hname hother
  have hobject := of_decide_eq_true (Option.filter_eq_some_iff.mp hname).2
  have hother := of_decide_eq_true (Option.filter_eq_some_iff.mp hother).2
  exact Option.some.inj (hobject.1.symm.trans hother.1)

/-! ## What every step keeps -/

/-- An index that was built for the whole array is the one that the array gives. -/
structure Sound (nameOf typeOf : ℕ → Option Bytes) (s : Stats) : Prop where
  held_le : ∀ size ∈ s.held, size ≤ s.array.length
  names_le : s.names.builtFor ≤ s.array.length
  lists_le : s.lists.builtFor ≤ s.array.length
  names_eq : s.names.gen = s.generation → s.names.byName ≠ [] → s.names.builtFor = s.array.length →
    ∀ name, s.names.byName.lookup name = firstNamed nameOf s.array name
  lists_eq : s.lists.gen = s.generation → s.lists.byList ≠ [] → s.lists.builtFor = s.array.length →
    ∀ list, namesOf s.lists.byList list = listed nameOf typeOf s.array list

variable {s : Stats} {stale : List ℕ} {now : Moment}

/-- Being ready may take note of how many objects there are and does nothing else. -/
theorem ready_eq (s : Stats) (now : Moment) :
    ∃ held, s.ready now = (held.isSome, { s with held }) ∧
      (held = s.held ∨ held = some s.array.length) := by
  unfold Stats.ready
  cases hheld : s.held with
  | none =>
    dsimp only
    split_ifs
    · exact ⟨some s.array.length, rfl, .inr rfl⟩
    · have hsame : s = { s with held := none } := by rw [← hheld]
      exact ⟨none, congrArg (Prod.mk false) hsame, .inl rfl⟩
  | some size =>
    dsimp only
    split_ifs
    · exact ⟨some s.array.length, rfl, .inr rfl⟩
    · have hsame : s = { s with held := some size } := by rw [← hheld]
      exact ⟨some size, congrArg (Prod.mk true) hsame, .inl rfl⟩

/-- Taking note of the count keeps the indexes right. -/
theorem Sound.hold (h : Sound nameOf typeOf s) {held : Option ℕ}
    (hheld : held = s.held ∨ held = some s.array.length) : Sound nameOf typeOf { s with held } := by
  refine ⟨?_, h.names_le, h.lists_le, h.names_eq, h.lists_eq⟩
  intro size hsize
  rcases hheld with rfl | rfl
  · exact h.held_le size hsize
  · exact (Option.some.inj hsize).ge

/-- The count noted is never above the objects there are. -/
theorem Sound.size_le (h : Sound nameOf typeOf s) : s.size ≤ s.array.length := by
  unfold Stats.size
  cases hheld : s.held with
  | none => exact Nat.zero_le _
  | some size => exact h.held_le size hheld

/-- After `stats_by_name` the index is for the size that is held, and right if that is current. -/
theorem statsByName_spec (h : Sound nameOf typeOf s) (hheld : s.held.isSome) (stale : List ℕ) :
    ∃ n, statsByName nameOf s stale = { s with names := n } ∧ n.gen = s.generation ∧
      n.builtFor = s.size ∧
      (s.size = s.array.length → ∀ name, n.byName.lookup name = firstNamed nameOf s.array name) := by
  have hgen : (s.names.clearOnRebuild s.generation).gen = s.generation := by
    unfold NameIndex.clearOnRebuild
    split_ifs with hne
    · rfl
    · exact not_not.mp hne
  unfold statsByName
  dsimp only
  by_cases hkeep : ¬(s.names.clearOnRebuild s.generation).byName.isEmpty ∧
      (s.names.clearOnRebuild s.generation).builtFor = s.size
  · rw [if_pos hkeep]
    refine ⟨_, rfl, hgen, hkeep.2, fun hcurrent name => ?_⟩
    obtain ⟨hsome, hbuilt⟩ := hkeep
    rw [List.isEmpty_iff] at hsome
    unfold NameIndex.clearOnRebuild at hsome hbuilt ⊢
    by_cases hne : s.names.gen ≠ s.generation
    · rw [if_pos hne] at hsome
      exact absurd rfl hsome
    · rw [if_neg hne] at hsome hbuilt ⊢
      exact h.names_eq (not_not.mp hne) hsome (hbuilt.trans hcurrent) name
  · rw [if_neg hkeep]
    refine ⟨_, rfl, hgen, rfl, fun hcurrent name => ?_⟩
    have hread : s.readObjects stale = s.array := by
      obtain ⟨size, hsize⟩ := Option.isSome_iff_exists.mp hheld
      unfold Stats.size at hcurrent
      rw [hsize, Option.getD_some] at hcurrent
      exact if_pos (hsize.trans (congrArg some hcurrent))
    dsimp only
    rw [hread, lookup_indexByName]

/-- An index of names that is right for the count noted keeps the others right. -/
theorem Sound.withNames (h : Sound nameOf typeOf s) {n : NameIndex} (hle : n.builtFor = s.size)
    (hright : s.size = s.array.length → ∀ name, n.byName.lookup name = firstNamed nameOf s.array name) :
    Sound nameOf typeOf { s with names := n } := by
  refine ⟨h.held_le, hle ▸ h.size_le, h.lists_le, ?_, h.lists_eq⟩
  intro _ _ hbuilt
  exact hright (hle.symm.trans hbuilt)

/-- Rebuilding the index by list leaves it right. -/
theorem statsNamesByList_spec (h : Sound nameOf typeOf s) (hheld : s.held.isSome) (stale : List ℕ) :
    ∃ n l, statsNamesByList nameOf typeOf s stale = { s with names := n, lists := l } ∧
      Sound nameOf typeOf { s with names := n, lists := l } ∧
      (s.size = s.array.length → ∀ list, namesOf l.byList list = listed nameOf typeOf s.array list) := by
  unfold statsNamesByList
  dsimp only
  -- the lists of this generation and size are kept, others are built again
  by_cases hkeep : ¬(s.lists.clearOnRebuild s.generation).byList.isEmpty ∧
      (s.lists.clearOnRebuild s.generation).builtFor = s.size
  · rw [if_pos hkeep]
    have hright : s.size = s.array.length → ∀ list,
        namesOf (s.lists.clearOnRebuild s.generation).byList list =
          listed nameOf typeOf s.array list := by
      intro hcurrent list
      obtain ⟨hsome, hbuilt⟩ := hkeep
      rw [List.isEmpty_iff] at hsome
      unfold ListIndex.clearOnRebuild at hsome hbuilt ⊢
      by_cases hne : s.lists.gen ≠ s.generation
      · rw [if_pos hne] at hsome
        exact absurd rfl hsome
      · rw [if_neg hne] at hsome hbuilt ⊢
        exact h.lists_eq (not_not.mp hne) hsome (hbuilt.trans hcurrent) list
    refine ⟨s.names, _, rfl, ⟨h.held_le, h.names_le, ?_, h.names_eq, ?_⟩, hright⟩
    · exact hkeep.2 ▸ h.size_le
    · intro _ _ hbuilt
      exact hright (hkeep.2.symm.trans hbuilt)
  · rw [if_neg hkeep]
    obtain ⟨n, hn, hgen, hbuilt, hnames⟩ := statsByName_spec h hheld stale
    rw [hn]
    have hright : s.size = s.array.length → ∀ list,
        namesOf (indexByList nameOf typeOf n.byName (s.readObjects stale)) list =
          listed nameOf typeOf s.array list := by
      intro hcurrent list
      have hread : s.readObjects stale = s.array := by
        obtain ⟨size, hsize⟩ := Option.isSome_iff_exists.mp hheld
        unfold Stats.size at hcurrent
        rw [hsize, Option.getD_some] at hcurrent
        exact if_pos (hsize.trans (congrArg some hcurrent))
      rw [hread, namesOf_indexByList]
      unfold listed
      rw [funext (hnames hcurrent)]
    have hsound := h.withNames hbuilt hnames
    refine ⟨n, _, rfl, ⟨h.held_le, hsound.names_le, h.size_le, hsound.names_eq, ?_⟩, hright⟩
    intro _ _ hlength
    exact hright hlength

/-! ## Steps -/

/-- A search after being ready reads the rebuilt index. -/
theorem find_of_ready {t : Stats} (h : s.ready now = (true, t)) (wanted : Bytes) :
    find nameOf s now stale wanted =
      ((statsByName nameOf t stale).names.byName.lookup wanted, statsByName nameOf t stale) := by
  unfold find
  rw [h]
  rfl

/-- A listing after being ready reads the rebuilt lists. -/
theorem namesEach_of_ready {t : Stats} (h : s.ready now = (true, t)) (list : Bytes) :
    namesEach nameOf typeOf s now stale list =
      (namesOf (statsNamesByList nameOf typeOf t stale).lists.byList list,
        statsNamesByList nameOf typeOf t stale) := by
  unfold namesEach
  rw [h]
  rfl

/-- A lookup by name. -/
theorem find_spec (h : Sound nameOf typeOf s) (now : Moment) (stale : List ℕ) (wanted : Bytes) :
    ∃ held n, (find nameOf s now stale wanted).2 = { s with held, names := n } ∧
      Sound nameOf typeOf { s with held, names := n } ∧
      (s.held.isSome → held.isSome ∧ n.builtFor = held.getD 0 ∧
        (held = some s.array.length →
          (find nameOf s now stale wanted).1 = firstNamed nameOf s.array wanted)) := by
  obtain ⟨held, hready, hheld⟩ := ready_eq s now
  have hsound := h.hold hheld
  cases held with
  | none =>
    unfold find
    rw [hready]
    refine ⟨none, s.names, rfl, hsound, fun hsome => ?_⟩
    rcases hheld with hsame | hsame
    · rw [← hsame] at hsome
      exact absurd hsome Bool.false_ne_true
    · exact absurd hsame.symm (Option.some_ne_none _)
  | some size =>
    obtain ⟨n, hn, -, hbuilt, hnames⟩ := statsByName_spec hsound rfl stale
    rw [find_of_ready hready, hn]
    refine ⟨some size, n, rfl, hsound.withNames hbuilt hnames, fun _ => ⟨rfl, hbuilt, fun hcurrent => ?_⟩⟩
    exact hnames (Option.some.inj hcurrent) wanted

/-- A listing of names. -/
theorem namesEach_spec (h : Sound nameOf typeOf s) (now : Moment) (stale : List ℕ) (list : Bytes) :
    Sound nameOf typeOf (namesEach nameOf typeOf s now stale list).2 ∧
      (s.held = some s.array.length →
        (namesEach nameOf typeOf s now stale list).1 = listed nameOf typeOf s.array list) := by
  obtain ⟨held, hready, hheld⟩ := ready_eq s now
  have hsound := h.hold hheld
  cases held with
  | none =>
    unfold namesEach
    rw [hready]
    refine ⟨hsound, fun hcurrent => ?_⟩
    rcases hheld with hsame | hsame
    · exact absurd (hsame.trans hcurrent).symm (Option.some_ne_none _)
    · exact absurd hsame.symm (Option.some_ne_none _)
  | some size =>
    obtain ⟨n, l, hl, hsound', hlists⟩ := statsNamesByList_spec hsound rfl stale
    rw [namesEach_of_ready hready, hl]
    refine ⟨hsound', fun hcurrent => hlists ?_ list⟩
    rcases hheld with hsame | hsame
    · exact Option.some.inj (hsame.trans hcurrent)
    · exact Option.some.inj hsame

/-- The engine's array has one more. No index is built for it yet. -/
theorem Sound.append (h : Sound nameOf typeOf s) (object nextHandle : ℕ) :
    Sound nameOf typeOf { s with array := s.array ++ [object], nextHandle } := by
  have hlength : (s.array ++ [object]).length = s.array.length + 1 := List.length_append
  refine ⟨?_, ?_, ?_, ?_, ?_⟩
  · intro size hsize
    have hle := h.held_le size hsize
    dsimp only
    omega
  · have hle := h.names_le
    dsimp only
    omega
  · have hle := h.lists_le
    dsimp only
    omega
  · intro _ _ hbuilt
    have hle := h.names_le
    dsimp only at hbuilt
    omega
  · intro _ _ hbuilt
    have hle := h.lists_le
    dsimp only at hbuilt
    omega

/-- Forgetting the indexes leaves nothing wrong. -/
theorem Sound.objectsChanged (h : Sound nameOf typeOf s) : Sound nameOf typeOf s.objectsChanged := by
  refine ⟨?_, h.names_le, h.lists_le, h.names_eq, h.lists_eq⟩
  intro size hsize
  obtain ⟨-, -, rfl⟩ := Option.map_eq_some_iff.mp hsize
  exact le_rfl

/-- A stat without a name is entered nowhere. -/
theorem Sound.appended_of_unnamed (h : Sound nameOf typeOf s) {object : ℕ}
    (hnone : named nameOf object = none) (now : Moment) :
    Sound nameOf typeOf (StatNames.appended nameOf typeOf s.objectsChanged now object) := by
  obtain ⟨held, hready, hheld⟩ := ready_eq s.objectsChanged now
  have hsound := h.objectsChanged.hold hheld
  unfold StatNames.appended
  rw [hready, hnone]
  cases held <;> exact hsound

/-- Both indexes are extended to what the array gives, if the name was looked for in an index of the
stats before the new one, and is new. -/
theorem Sound.extended (h : Sound nameOf typeOf s) {object : ℕ} {name : Bytes}
    (hname : named nameOf object = some name)
    (hnew : s.names.builtFor = s.array.length → firstNamed nameOf s.array name = none) {t : Stats}
    (ht : t = { s with
      array := s.array ++ [object], nextHandle := t.nextHandle, held := some (s.array.length + 1) }) :
    Sound nameOf typeOf { t with
      names := extendNames t object name
      lists := extendLists typeOf t (extendNames t object name) object name } := by
  have hlength : t.array.length = s.array.length + 1 := by
    rw [ht]
    exact List.length_append
  have hsize : t.size = s.array.length + 1 := by
    rw [ht]
    rfl
  have harray : t.array = s.array ++ [object] := by rw [ht]
  have hheld : t.held = some (s.array.length + 1) := by rw [ht]
  have hgeneration : t.generation = s.generation := by rw [ht]
  have hnames : t.names = s.names := by rw [ht]
  have hlists : t.lists = s.lists := by rw [ht]
  have hnamesLe := h.names_le
  have hlistsLe := h.lists_le
  have hheldLe : ∀ size ∈ t.held, size ≤ t.array.length := by
    intro size hsize
    rw [hheld] at hsize
    rw [← Option.some.inj hsize, hlength]
  unfold extendNames extendLists
  rw [hnames, hlists, hsize, hgeneration]
  by_cases hextends : s.names.gen = s.generation ∧ ¬s.names.byName.isEmpty ∧
      s.names.builtFor + 1 = s.array.length + 1
  · rw [if_pos hextends]
    obtain ⟨hgen, hsome, hbuilt⟩ := hextends
    have hbuilt : s.names.builtFor = s.array.length := Nat.succ_inj.mp hbuilt
    have hold := h.names_eq hgen (fun hnil => hsome (List.isEmpty_iff.mpr hnil)) hbuilt
    have hnone := hnew hbuilt
    refine ⟨hheldLe, hlength.ge, ?_, ?_, ?_⟩
    · dsimp only
      split_ifs
      · exact hlength.ge
      · omega
    · intro _ _ _ k
      dsimp only
      rw [harray, lookup_emplace, firstNamed_append_single, hold, hname]
      congr 1
      by_cases hk : k = name
      · rw [if_pos hk, if_pos (congrArg some hk.symm)]
      · rw [if_neg hk, if_neg fun hsame => hk (Option.some.inj hsame).symm]
    · dsimp only
      split_ifs with hfiles
      · obtain ⟨hgen, hsome, hbuilt, -⟩ := hfiles
        intro _ _ _ list
        rw [namesOf_fileName, harray, listed_append_single hname hnone,
          h.lists_eq hgen (fun hnil => hsome (List.isEmpty_iff.mpr hnil)) (Nat.succ_inj.mp hbuilt)]
      · intro _ _ hbuilt
        omega
  · -- without the index by name neither is extended
    have hnot : s.names.builtFor ≠ s.array.length + 1 := by omega
    rw [if_neg hextends, if_neg fun hfiles => hnot hfiles.2.2.2]
    refine ⟨hheldLe, ?_, ?_, ?_, ?_⟩
    · dsimp only
      omega
    · dsimp only
      omega
    · intro _ _ hbuilt
      dsimp only at hbuilt
      omega
    · intro _ _ hbuilt
      dsimp only at hbuilt
      omega

/-- Extending the indexes by one new object keeps them right. -/
theorem Sound.appended (h : Sound nameOf typeOf s) {object : ℕ} {name : Bytes}
    (hname : named nameOf object = some name) (nextHandle : ℕ)
    (hnew : s.names.builtFor = s.array.length → firstNamed nameOf s.array name = none)
    (now : Moment) :
    Sound nameOf typeOf (StatNames.appended nameOf typeOf
      (Stats.objectsChanged { s with array := s.array ++ [object], nextHandle }) now object) := by
  obtain ⟨held, hready, hheld⟩ :=
    ready_eq (Stats.objectsChanged { s with array := s.array ++ [object], nextHandle }) now
  unfold StatNames.appended
  rw [hready, hname]
  cases held with
  | none => exact (h.append object nextHandle).objectsChanged.hold hheld
  | some size =>
    have hlength : (s.array ++ [object]).length = s.array.length + 1 := List.length_append
    have hsize : size = s.array.length + 1 := by
      rcases hheld with hsame | hsame
      · obtain ⟨-, -, hsize⟩ := Option.map_eq_some_iff.mp hsame.symm
        rw [← hsize]
        exact hlength
      · rw [Option.some.inj hsame]
        exact hlength
    subst hsize
    exact h.extended hname hnew rfl

/-- Creating an object keeps the indexes right. -/
theorem Sound.insertObject (h : Sound nameOf typeOf s) {c : Create}
    (hreads : ∀ object ∈ c.object, object ≠ 0 ∧ nameOf object = some c.name)
    (hnew : c.name ≠ [] → s.names.builtFor = s.array.length → firstNamed nameOf s.array c.name = none) :
    Sound nameOf typeOf (insertObject nameOf typeOf s c).2 := by
  unfold StatNames.insertObject
  cases hobject : c.object with
  | none => exact h
  | some object =>
    obtain ⟨hnull, hreads⟩ := hreads object hobject
    dsimp only
    split_ifs
    · exact h
    · exact h
    · by_cases hempty : c.name = []
      · have hnone : named nameOf object = none := by
          unfold named
          rw [if_neg hnull, hreads, hempty]
          rfl
        exact (h.append object _).appended_of_unnamed hnone c.atAppended
      · have hname : named nameOf object = some c.name := by
          unfold named
          rw [if_neg hnull, hreads, Option.filter_some]
          exact if_pos (decide_eq_true hempty)
        exact h.appended hname _ (hnew hempty) c.atAppended

/-- A creation. The name of its object reads back as the name that was interned. -/
theorem Sound.create (h : Sound nameOf typeOf s) {c : Create}
    (hreads : ∀ object ∈ c.object, object ≠ 0 ∧ nameOf object = some c.name) :
    Sound nameOf typeOf (create nameOf typeOf s c).2 := by
  obtain ⟨held, hready, hheld⟩ := ready_eq s c.atHandle
  have hsound := h.hold hheld
  unfold StatNames.create
  rw [hready]
  dsimp only
  by_cases hhandle : !held.isSome || !c.listKnown
  · rw [if_pos hhandle]
    exact hsound
  · rw [if_neg hhandle]
    have hsome : held.isSome := by
      cases held with
      | none => exact absurd rfl hhandle
      | some size => rfl
    obtain ⟨held', n, hfind, hfound, hspec⟩ := find_spec hsound c.atFind c.stale c.name
    obtain ⟨hsome', hbuilt, hright⟩ := hspec hsome
    dsimp only at hfind
    rw [hfind]
    split_ifs with hknown hvmt hinterned
    · exact hfound
    · exact hfound
    · exact hfound
    · obtain ⟨held'', hready'', hheld''⟩ :=
        ready_eq { s with held := held', names := n } c.atAttributes
      rw [hready'']
      apply (hfound.hold hheld'').insertObject hreads
      intro _ hlength
      obtain ⟨size, rfl⟩ := Option.isSome_iff_exists.mp hsome'
      have hcurrent : size = s.array.length := hbuilt.symm.trans hlength
      rw [← hright (congrArg some hcurrent)]
      exact Option.not_isSome_iff_eq_none.mp hknown

/-- What the engine does, and that the name of a created stat reads back as the name that was
interned for it. -/
def Allowed (nameOf : ℕ → Option Bytes) : Action → Prop
  | .create c => ∀ object ∈ c.object, object ≠ 0 ∧ nameOf object = some c.name
  | _ => True

/-- Every action keeps the indexes right. -/
theorem Sound.step (h : Sound nameOf typeOf s) {action : Action} (hallowed : Allowed nameOf action) :
    Sound nameOf typeOf (s.step nameOf typeOf action) := by
  cases action with
  | append object => exact h.append object _
  | create c => exact h.create hallowed
  | find now stale wanted =>
    obtain ⟨held, n, hfind, hsound, -⟩ := find_spec h now stale wanted
    show Sound nameOf typeOf (find nameOf s now stale wanted).2
    rw [hfind]
    exact hsound
  | names now stale list => exact (namesEach_spec h now stale list).1

/-- A run in which nothing was found or indexed before, whatever the engine's array had. -/
def StatsRun (nameOf typeOf : ℕ → Option Bytes) (array : List ℕ) (nextHandle : ℕ) (generation : UInt32)
    (actions : List Action) (s : Stats) : Prop :=
  Run (fun s action => some (s.step nameOf typeOf action)) (fun _ => Allowed nameOf)
    { array, nextHandle, generation } actions s

/-- The indexes are right after every run. -/
theorem sound_after_run {array : List ℕ} {nextHandle : ℕ} {generation : UInt32} {actions : List Action}
    (hrun : StatsRun nameOf typeOf array nextHandle generation actions s) : Sound nameOf typeOf s := by
  apply hrun.invariant
  · exact ⟨nofun, Nat.zero_le _, Nat.zero_le _, fun _ hsome => absurd rfl hsome,
      fun _ hsome => absurd rfl hsome⟩
  · intro t action u hsound hallowed hstep
    rw [← Option.some.inj hstep]
    exact hsound.step hallowed

/-- At any time in any run at which the size that is held is current, a name finds the first object
of the array with that name; and the names of a list are those whose found object is of the list,
in array order, each once if the array has no object twice. -/
theorem lookups_agree (nameOf typeOf : ℕ → Option Bytes) (array : List ℕ) (nextHandle : ℕ)
    (generation : UInt32) (actions : List Action) (s : Stats) (now : Moment) (stale : List ℕ)
    (hrun : StatsRun nameOf typeOf array nextHandle generation actions s)
    (hcurrent : s.held = some s.array.length) :
    (∀ name, (find nameOf s now stale name).1 = firstNamed nameOf s.array name) ∧
      ∀ list, (namesEach nameOf typeOf s now stale list).1 = listed nameOf typeOf s.array list ∧
        (∀ name, name ∈ listed nameOf typeOf s.array list ↔
          ∃ object, firstNamed nameOf s.array name = some object ∧ OfList typeOf list object) ∧
        (s.array.Nodup → (listed nameOf typeOf s.array list).Nodup) := by
  have hsound := sound_after_run hrun
  constructor
  · intro name
    obtain ⟨held, n, hfind, hafter, hspec⟩ := find_spec hsound now stale name
    obtain ⟨-, -, hright⟩ := hspec (by rw [hcurrent]; rfl)
    apply hright
    obtain ⟨held', hready, hheld⟩ := ready_eq s now
    have hsame : held = held' := by
      have hheld₂ : (find nameOf s now stale name).2.held = held' := by
        cases held' with
        | none =>
          unfold find
          rw [hready]
          rfl
        | some size =>
          obtain ⟨n', hn', -⟩ := statsByName_spec (hsound.hold hheld) rfl stale
          rw [find_of_ready hready, hn']
      rw [hfind] at hheld₂
      exact hheld₂
    rw [hsame]
    rcases hheld with heq | heq
    · exact heq.trans hcurrent
    · exact heq
  · intro list
    exact ⟨(namesEach_spec hsound now stale list).2 hcurrent, fun _ => mem_listed, fun harray =>
      nodup_listed harray list⟩

/-! ## Two stats -/

/-- The stats A, which the engine has, and B. -/
def twoNames (object : ℕ) : Option Bytes :=
  if object = 1 then some [65] else if object = 2 then some [66] else none

def inList (_ : ℕ) : Option Bytes := some [76]

/-- The stat B is created. -/
def createB : Create where
  name := [66]
  listKnown := true
  readable := true
  interned := true
  object := some 2
  arrayGrows := true
  mapTakes := true
  atHandle := ⟨true, false⟩
  atFind := ⟨true, false⟩
  atAttributes := ⟨true, false⟩
  atAppended := ⟨true, false⟩
  stale := []

/-- The names are listed, and then B is created. -/
def afterCreate : Stats :=
  Stats.step twoNames inList
    (Stats.step twoNames inList { array := [1], nextHandle := 1 } (.names ⟨true, false⟩ [] []))
    (.create createB)

theorem run_afterCreate :
    StatsRun twoNames inList [1] 1 0 [.names ⟨true, false⟩ [] [], .create createB] afterCreate := by
  refine Run.cons trivial rfl (Run.cons ?_ rfl (Run.refl afterCreate))
  intro object hobject
  rw [← Option.some.inj hobject]
  exact ⟨by decide, rfl⟩

theorem lookups_agree_create :
    (find twoNames afterCreate ⟨true, false⟩ [] [66]).1 = some 2 ∧
      (namesEach twoNames inList afterCreate ⟨true, false⟩ [] [76]).1 = [[65], [66]] := by
  have hagree := lookups_agree twoNames inList [1] 1 0 [.names ⟨true, false⟩ [] [], .create createB]
    afterCreate ⟨true, false⟩ [] run_afterCreate (by decide)
  refine ⟨(hagree.1 [66]).trans ?_, (hagree.2 [76]).1.trans ?_⟩
  · decide
  · decide

end StatNames
end Bg3le
