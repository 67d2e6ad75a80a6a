import Bg3le.Stats.StatObject

/-!
# Reading what was written to a stat

A write changes one member of the engine's object, and what it drops from the cache is the key it
was made under. So the cache stays coherent as long as no other cached key shows that member.
-/

namespace Bg3le
namespace StatObject

open Lua

variable {φ : Type} {e : Engine φ} {s t : Stat φ} {o o' : Object φ} {key other : Key}
  {modifier : Modifier} {member : Member} {i : ℕ} {value : Value} {meets : Meets} {raw : Bool}

/-! ## Members -/

/-- The objects agree on a member. -/
def Same (o o' : Object φ) : Member → Prop
  | .own => o'.modId = o.modId ∧ o'.originalModId = o.originalModId ∧
      o'.modifierList = o.modifierList ∧ o'.modifierListIndex = o.modifierListIndex ∧
      o'.usingName = o.usingName
  | .prop i => attrAt o' i = attrAt o i
  | .aiFlags => o'.aiFlags = o.aiFlags
  | .requirements => o'.requirements = o.requirements
  | .functors attr => o'.functors.lookup attr = o.functors.lookup attr
  | .rolls attr => o'.rollConditions.lookup attr = o.rollConditions.lookup attr
  | .combo combo => combo.get o' = combo.get o

/-- The objects agree on all members but one. -/
def SameBut (member : Member) (o o' : Object φ) : Prop := ∀ m, m ≠ member → Same o o' m

/-- Reading an attribute depends on its own member of the object only. -/
theorem readAttribute_congr (h : Same o o' (modifier.member i)) :
    readAttribute e o' i modifier = readAttribute e o i modifier := by
  unfold Modifier.member at h
  unfold readAttribute
  split at h
  · next hflags =>
    have h : o'.aiFlags = o.aiFlags := h
    simp only [hflags, if_true, h]
  · next hflags =>
    simp only [hflags, if_false]
    split at h
    · next hkind =>
      have h : o'.functors.lookup modifier.name = o.functors.lookup modifier.name := h
      simp only [hkind, h]
    · next hkind =>
      have h : o'.rollConditions.lookup modifier.name = o.rollConditions.lookup modifier.name := h
      simp only [hkind, h]
    · next hkind =>
      have h : o'.requirements = o.requirements := h
      simp only [hkind, h]
    · next h7 h9 h10 =>
      have h : attrAt o' i = attrAt o i := h
      split <;> simp_all

theorem extra_value_congr {extra : Extra} (h : Same o o' extra.member) (name : Bytes) :
    extra.value e name o' = extra.value e name o := by
  cases extra with
  | name => rfl
  | modId => simp only [Extra.value, h.1]
  | originalModId => simp only [Extra.value, h.2.1]
  | modifierList => simp only [Extra.value, h.2.2.1]
  | modifierListIndex => simp only [Extra.value, h.2.2.2.1]
  | usingName => simp only [Extra.value, h.2.2.2.2]
  | comboProperties =>
    have h : o'.comboProperties = o.comboProperties := h
    simp only [Extra.value, h]
  | comboCategories =>
    have h : o'.comboCategories = o.comboCategories := h
    simp only [Extra.value, h]
  | attributesUnavailable => rfl

/-- A key reads alike where the objects agree on what it shows. -/
theorem held_congr (h : ∀ m ∈ memberOf e key, Same o o' m) (name : Bytes) :
    held e name o' key = held e name o key := by
  unfold memberOf at h
  unfold held
  split
  · next extra hextra =>
    simp only [hextra] at h
    rw [extra_value_congr (h _ rfl)]
  · next hextra =>
    simp only [hextra] at h
    cases hattr : attributeOf e key with
    | none => rfl
    | some found =>
      simp only [hattr] at h
      have hsame : Same o o' (found.2.member found.1) := h _ rfl
      simp only [Option.map_some, readAttribute_congr hsame]

/-- A write to one member leaves what is read under a key of another. -/
theorem held_sameBut (h : SameBut member o o') (hother : memberOf e other ≠ some member)
    (name : Bytes) : held e name o' other = held e name o other := by
  apply held_congr
  intro m hm
  apply h
  intro heq
  have hm : memberOf e other = some m := hm
  exact hother (heq ▸ hm)

/-- Each of the two combinations is reached through its own key only. -/
theorem combo_of_extras : ∀ entry ∈ extras,
    (entry.2.member = .combo .properties → entry.1 = Combo.properties.key) ∧
      (entry.2.member = .combo .categories → entry.1 = Combo.categories.key) := by
  decide +kernel

/-- A set is shown under its own key alone. -/
theorem key_of_combo {combo : Combo} (h : memberOf e other = some (.combo combo)) :
    other = combo.key := by
  unfold memberOf at h
  split at h
  · next extra hextra =>
    have hmem : (other, extra) ∈ extras := by
      obtain ⟨before, after, hsplit, -⟩ := List.lookup_eq_some_iff.mp hextra
      rw [hsplit]
      exact List.mem_append_right _ List.mem_cons_self
    have hmember : extra.member = .combo combo := Option.some.inj h
    cases combo with
    | properties => exact (combo_of_extras _ hmem).1 hmember
    | categories => exact (combo_of_extras _ hmem).2 hmember
  · obtain ⟨found, -, hfound⟩ := Option.map_eq_some_iff.mp h
    dsimp only [Modifier.member] at hfound
    split at hfound
    · exact absurd hfound (by simp)
    · split at hfound <;> exact absurd hfound (by simp)

/-! ## What a write changes -/

theorem sameBut_combo (combo : Combo) (names : List Bytes) :
    SameBut (.combo combo) o (combo.set o names) := by
  intro m hm
  cases m with
  | own => cases combo <;> exact ⟨rfl, rfl, rfl, rfl, rfl⟩
  | combo c =>
    cases combo <;> cases c <;> first | rfl | exact absurd rfl hm
  | _ => cases combo <;> rfl

theorem sameBut_prop (raw : ℤ) :
    SameBut (.prop i) o { o with props := o.props.set i raw } := by
  intro m hm
  cases m with
  | own => exact ⟨rfl, rfl, rfl, rfl, rfl⟩
  | prop j =>
    have hj : i ≠ j := by
      intro heq
      exact hm (congrArg Member.prop heq.symm)
    show (o.props.set i raw).getD j (-1) = o.props.getD j (-1)
    simp only [List.getD_eq_getElem?_getD, List.getElem?_set_ne hj]
  | _ => rfl

theorem sameBut_rolls (attr : Bytes) (entries : List (Bytes × Bytes)) :
    SameBut (.rolls attr) o (setRolls o attr entries) := by
  intro m hm
  unfold setRolls
  dsimp only
  split
  · cases m <;> first | rfl | exact ⟨rfl, rfl, rfl, rfl, rfl⟩
  · cases m with
    | own => exact ⟨rfl, rfl, rfl, rfl, rfl⟩
    | rolls a =>
      have ha : a ≠ attr := by
        intro heq
        exact hm (congrArg Member.rolls heq)
      exact AList.lookup_insert_ne ha
    | _ => rfl

theorem sameBut_functors (attr : Bytes) (groups : φ) :
    SameBut (.functors attr) o { o with functors := o.functors.insert attr groups } := by
  intro m hm
  cases m with
  | own => exact ⟨rfl, rfl, rfl, rfl, rfl⟩
  | functors a =>
    have ha : a ≠ attr := by
      intro heq
      exact hm (congrArg Member.functors heq)
    exact AList.lookup_insert_ne ha
  | _ => rfl

theorem sameBut_aiFlags (text : Bytes) : SameBut .aiFlags o { o with aiFlags := text } := by
  intro m hm
  cases m with
  | own => exact ⟨rfl, rfl, rfl, rfl, rfl⟩
  | aiFlags => exact absurd rfl hm
  | _ => rfl

theorem sameBut_requirements (entries : List Requirement) :
    SameBut .requirements o { o with requirements := entries } := by
  intro m hm
  cases m with
  | own => exact ⟨rfl, rfl, rfl, rfl, rfl⟩
  | requirements => exact absurd rfl hm
  | _ => rfl

/-- What a writable attribute stores to is the member that it is read from. -/
theorem member_of_writableKinds {writable : Writable} (hflags : modifier.typeName ≠ bytes "AIFlags")
    (h : writableKinds e modifier.kind = some writable) :
    modifier.member i = writable.member modifier i := by
  unfold writableKinds at h
  unfold Modifier.member
  simp only [hflags, if_false]
  split at h
  · exact absurd h (by simp)
  · split at h <;> first
      | exact absurd h.symm (Option.some_ne_none _)
      | next hkind =>
        obtain rfl := Option.some.inj h
        simp only [hkind]
        rfl

/-- The value is stored in the way of its kind. -/
theorem toStored_cases (modifier : Modifier) (i : ℕ) {typeName : Bytes} {slot : Option ℤ} {writable : Writable} {stored : Stored}
    (h : toStored e typeName slot value writable = some stored) :
    (∃ raw, stored = .raw raw ∧ writable.member modifier i = .prop i) ∨
      (∃ entries, stored = .requirements entries ∧ writable = .requirements) ∨
      (∃ entries, stored = .rolls entries ∧ writable = .roll) := by
  cases writable with
  | requirements =>
    obtain ⟨entries, -, rfl⟩ := Option.map_eq_some_iff.mp h
    exact Or.inr (Or.inl ⟨entries, rfl, rfl⟩)
  | roll => exact Or.inr (Or.inr ⟨_, (Option.some.inj h).symm, rfl⟩)
  | _ =>
    left
    cases stored with
    | raw raw => exact ⟨raw, rfl, rfl⟩
    | _ => cases value <;> grind [toStored, Option.map_eq_some_iff]

/-- A store that succeeds drops the key's cached value and changes its member only. -/
theorem store_wrote {typeName : Bytes} {slot : Option ℤ} {writable : Writable} {dropped : Option Key}
    (h : store o i modifier.name key meets (toStored e typeName slot value writable) =
      .wrote o' dropped) :
    dropped = some key ∧ SameBut (writable.member modifier i) o o' := by
  cases hstored : toStored e typeName slot value writable with
  | none =>
    rw [hstored] at h
    exact absurd h (by simp [store])
  | some stored =>
    rw [hstored] at h
    obtain ⟨raw, rfl, hmember⟩ | ⟨entries, rfl, rfl⟩ | ⟨entries, rfl, rfl⟩ :=
      toStored_cases modifier i hstored
    · simp only [store] at h
      split at h
      · obtain ⟨rfl, rfl⟩ := Outcome.wrote.inj h
        rw [hmember]
        exact ⟨rfl, sameBut_prop _⟩
      · exact absurd h (by simp)
    · simp only [store] at h
      split at h
      · obtain ⟨rfl, rfl⟩ := Outcome.wrote.inj h
        exact ⟨rfl, sameBut_requirements entries⟩
      · exact absurd h (by simp)
    · simp only [store] at h
      split at h
      · obtain ⟨rfl, rfl⟩ := Outcome.wrote.inj h
        exact ⟨rfl, sameBut_rolls modifier.name entries⟩
      · exact absurd h (by simp)

/-- An attribute that is written changes its own member, and its key is dropped. -/
theorem attributeWrite_wrote {dropped : Option Key}
    (h : attributeWrite e o i modifier key value raw meets = .wrote o' dropped) :
    dropped = some key ∧ SameBut (modifier.member i) o o' := by
  unfold attributeWrite at h
  split at h
  · next hflags =>
    split at h
    · obtain ⟨rfl, rfl⟩ := Outcome.wrote.inj h
      have hmember : modifier.member i = .aiFlags := by simp only [Modifier.member, hflags, if_true]
      rw [hmember]
      exact ⟨rfl, sameBut_aiFlags _⟩
    · exact absurd h (by simp)
  · next hflags =>
    split at h
    · next hkind =>
      split at h
      · split at h
        · obtain ⟨rfl, rfl⟩ := Outcome.wrote.inj h
          have hmember : modifier.member i = .functors modifier.name := by
            simp only [Modifier.member, hflags, hkind, if_false]
          rw [hmember]
          exact ⟨rfl, sameBut_functors modifier.name _⟩
        · exact absurd h (by simp)
      · exact absurd h (by simp)
    · split at h
      · exact absurd h (by simp)
      · cases hwritable : writableKinds e modifier.kind with
        | none =>
          rw [hwritable] at h
          exact absurd h (by simp)
        | some writable =>
          rw [hwritable] at h
          rw [member_of_writableKinds hflags hwritable]
          dsimp only at h
          split at h
          · exact absurd h (by simp)
          · exact store_wrote h

/-- A write is of a set, which drops nothing, or of an attribute. -/
theorem statWrite_wrote {dropped : Option Key}
    (h : statWrite e o key value raw meets = .wrote o' dropped) :
    (∃ combo, comboOf key raw = some combo ∧ (comboNames e o key value raw).isSome ∧
      meets.ready = true ∧ dropped = none ∧ SameBut (.combo combo) o o') ∨
    (comboOf key raw = none ∧ ∃ i modifier, attributeOf e key = some (i, modifier) ∧
      dropped = some key ∧ SameBut (modifier.member i) o o') := by
  unfold statWrite at h
  split at h
  · next combo hcombo =>
    left
    unfold comboWrite at h
    cases hnames : comboNames e o key value raw with
    | none =>
      rw [hnames] at h
      exact absurd h (by simp)
    | some names =>
      rw [hnames] at h
      dsimp only at h
      split at h
      · next hready =>
        obtain ⟨rfl, rfl⟩ := Outcome.wrote.inj h
        exact ⟨combo, hcombo, rfl, hready, rfl, sameBut_combo combo names⟩
      · exact absurd h (by simp)
  · next hcombo =>
    right
    cases hattr : attributeOf e key with
    | none =>
      rw [hattr] at h
      exact absurd h (by simp)
    | some found =>
      rw [hattr] at h
      exact ⟨hcombo, found.1, found.2, rfl, attributeWrite_wrote h⟩

/-! ## The cache -/

/-- What is cached, and was not edited, is what the engine's object holds. -/
def Fresh (e : Engine φ) (s : Stat φ) : Prop :=
  Coherent { key | key ∈ s.edited } (held e s.name s.object) s.cache

/-- A read keeps every cached value what the object holds. -/
theorem Fresh.index (h : Fresh e s) (key : Key) : Fresh e (index e s key).2 := by
  unfold StatObject.index
  split
  · exact h
  · split
    · exact h
    · split
      · next value hvalue => exact Coherent.insert h hvalue
      · exact h

/-- A read answers what the object holds now, for a key that no one edited in place. -/
theorem Fresh.index_answer (h : Fresh e s) (key : Key)
    (hread : methods.contains key ∨ key ∉ s.edited) :
    (StatObject.index e s key).1 = now e s key := by
  unfold StatObject.index now
  split
  · rfl
  · next hmethod =>
    have hunedited : key ∉ s.edited := hread.resolve_left (by simpa using hmethod)
    split
    · next hit hhit =>
      have hheld : held e s.name s.object key = some hit := h key hunedited hit hhit
      rw [hheld]
    · split <;> simp_all

/-- A table that is edited spoils its own key only. -/
theorem Fresh.edit (h : Fresh e s) (key : Key) (entries : Entries) : Fresh e (s.edit key entries) := by
  unfold Stat.edit
  split
  · have hspoiled : { k | k ∈ key :: s.edited } = Insert.insert key { k | k ∈ s.edited } := by
      ext k
      simp
    unfold Fresh
    rw [hspoiled]
    exact Coherent.spoil h key (.table entries)
  · exact h

/-- Caching what the object holds keeps the cache right. -/
theorem Fresh.keep (h : Fresh e s) (hvalue : held e s.name s.object key = some value) :
    Fresh e (s.keep key value) := by
  unfold Stat.keep
  split
  · exact h
  · exact Coherent.insert h hvalue

@[simp] theorem keep_object : (s.keep key value).object = s.object := by
  unfold Stat.keep
  split <;> rfl

@[simp] theorem keep_name : (s.keep key value).name = s.name := by
  unfold Stat.keep
  split <;> rfl

/-! ## Iterating -/

theorem lookup_extras : ∀ entry ∈ extras, extras.lookup entry.1 = some entry.2 := by
  decide +kernel

/-- Caching the extra keys keeps the cache right. -/
theorem Fresh.keep_extras {entries : List (Key × Extra)} (h : Fresh e s)
    (hentries : ∀ entry ∈ entries, extras.lookup entry.1 = some entry.2) :
    Fresh e (entries.foldl (fun s entry => s.keep entry.1 (entry.2.value e s.name s.object)) s) := by
  induction entries generalizing s with
  | nil => exact h
  | cons entry rest ih =>
    rw [List.foldl_cons]
    apply ih
    · apply h.keep
      simp only [held, hentries entry List.mem_cons_self]
    · exact fun entry hentry => hentries entry (List.mem_cons_of_mem _ hentry)

/-- An attribute is found under its name, unless an earlier one has it. -/
theorem attributeOf_modifier {before rest : List Modifier}
    (hsplit : e.modifiers = before ++ modifier :: rest)
    (hnew : modifier.name ∉ before.map Modifier.name) :
    attributeOf e (.string modifier.name) = some (before.length, modifier) := by
  have htext : checkString e (Key.toValue (.string modifier.name)) = some modifier.name := by
    show some (modifier.name.takeWhile (· ≠ 0)) = some modifier.name
    congr 1
    apply List.takeWhile_eq_self_iff.mpr
    intro c hc
    have hzero : c ≠ 0 := fun hz => modifier.zero_notMem_name (hz ▸ hc)
    simpa using hzero
  have hfind : attrFind e (.string modifier.name) = some before.length := by
    unfold attrFind
    rw [htext, Option.bind_some, hsplit, List.findIdx?_append]
    have hbefore : before.findIdx? (fun m => m.name == modifier.name) = none := by
      rw [List.findIdx?_eq_none_iff]
      intro m hm
      have hne : m.name ≠ modifier.name := fun heq => hnew (heq ▸ List.mem_map_of_mem hm)
      simpa using hne
    simp [hbefore, List.findIdx?_cons]
  unfold attributeOf
  rw [hfind, Option.bind_some, hsplit]
  simp

/-- Listing the attributes keeps the cache right; the induction is on those still to be listed. -/
theorem Fresh.pairsAttributes {before rest : List Modifier} {listed : List Key}
    (hsplit : e.modifiers = before ++ rest) (hextras : ∀ entry ∈ extras, entry.1 ∈ listed)
    (hbefore : ∀ m ∈ before, Key.string m.name ∈ listed) (h : Fresh e s) :
    Fresh e (pairsAttributes e s listed before.length rest) := by
  induction rest generalizing s listed before with
  | nil => exact h
  | cons modifier rest ih =>
    have hnext : e.modifiers = before ++ [modifier] ++ rest := by simpa using hsplit
    have hlength : before.length + 1 = (before ++ [modifier]).length := by simp
    unfold StatObject.pairsAttributes
    dsimp only
    rw [hlength]
    split
    · next hlisted =>
      apply ih hnext hextras _ h
      intro m hm
      rcases List.mem_append.mp hm with hm | hm
      · exact hbefore m hm
      · obtain rfl := List.mem_singleton.mp hm
        exact List.contains_iff_mem.mp hlisted
    -- a key met first is cached as the object holds it: no modifier before has its name
    · next hlisted =>
      have hkey : Key.string modifier.name ∉ listed := by simpa using hlisted
      apply ih hnext
      · exact fun entry hentry => List.mem_cons_of_mem _ (hextras entry hentry)
      · intro m hm
        rcases List.mem_append.mp hm with hm | hm
        · exact List.mem_cons_of_mem _ (hbefore m hm)
        · obtain rfl := List.mem_singleton.mp hm
          exact List.mem_cons_self
      · apply h.keep
        have hnone : extras.lookup (.string modifier.name) = none := by
          rw [List.lookup_eq_none_iff]
          intro entry hentry
          have hne : Key.string modifier.name ≠ entry.1 := fun heq => hkey (heq ▸ hextras entry hentry)
          simpa using hne
        have hnew : modifier.name ∉ before.map Modifier.name := by
          intro hmem
          obtain ⟨m, hm, heq⟩ := List.mem_map.mp hmem
          exact hkey (heq ▸ hbefore m hm)
        simp only [held, hnone, attributeOf_modifier hsplit hnew, Option.map_some]

/-- Listing every key keeps the cache right. -/
theorem Fresh.pairs (h : Fresh e s) : Fresh e (pairs e s) := by
  have hkept := h.keep_extras lookup_extras
  have hstart : e.modifiers = [] ++ e.modifiers := rfl
  refine Fresh.pairsAttributes hstart ?_ (by simp) hkept
  intro entry hentry
  exact List.mem_append_left _ (List.mem_map_of_mem hentry)

/-! ## Runs -/

/-- A write keeps the cache right where it clears what it made stale. -/
theorem Fresh.write (h : Fresh e s) (hclear : WriteClear e s key value raw meets) :
    Fresh e (s.after (statWrite e s.object key value raw meets)) := by
  cases hwrite : statWrite e s.object key value raw meets with
  | raised => exact h
  | refused => exact h
  | wrote o' dropped =>
    obtain ⟨combo, hcombo, hnames, hready, rfl, hsame⟩ | ⟨hcombo, i, modifier, hattr, rfl, hsame⟩ :=
      statWrite_wrote hwrite
    · simp only [WriteClear, hcombo] at hclear
      apply Coherent.change h
      intro other hother
      apply held_sameBut hsame
      intro hmember
      exact hclear hnames hready (key_of_combo hmember ▸ hother)
    · simp only [WriteClear, hcombo] at hclear
      have hunspoiled : { k | k ∈ s.edited.filter fun k => k ≠ key } =
          { k | k ∈ s.edited } \ {key} := by
        ext k
        simp
      show Coherent { k | k ∈ s.edited.filter fun k => k ≠ key } _ _
      rw [hunspoiled]
      apply Coherent.change_erase h
      intro other hother hne
      exact held_sameBut hsame (hclear i modifier hattr other hother hne) s.name

/-- A copy keeps the cache right where it clears what it made stale. -/
theorem Fresh.copyFrom {source : Option (Object φ)} {name : Value} (h : Fresh e s)
    (hclear : name ≠ .string s.name → CopyClear e s source meets) :
    Fresh e (s.copyFrom e source meets name) := by
  unfold Stat.copyFrom
  split
  · next name =>
    split
    · exact h
    · next hname =>
      have hclear : CopyClear e s source meets := by
        apply hclear
        intro heq
        exact hname (Value.string.inj heq)
      dsimp only
      split
      · exact Coherent.empty
      · next hfailed =>
        have hcopied : Fresh e { s with object := (statsCopyFrom s.object source meets).1 } :=
          Coherent.change h (hclear (by simpa using hfailed))
        split
        · exact hcopied.index _
        · exact hcopied
  · exact h

/-- Every operation keeps the cache right where it clears what it made stale. -/
theorem Fresh.step {op : Op φ} (h : Fresh e s) (hclear : Clear e s op)
    (hstep : step e s op = some t) : Fresh e t := by
  cases op with
  | read key =>
    obtain rfl := Option.some.inj hstep
    exact h.index key
  | pairs =>
    obtain rfl := Option.some.inj hstep
    exact h.pairs
  | next key =>
    obtain rfl := Option.some.inj hstep
    exact h
  | edit key entries =>
    obtain rfl := Option.some.inj hstep
    exact h.edit key entries
  | assign key value meets =>
    obtain rfl := Option.some.inj hstep
    split
    · exact h
    · next hkey => exact h.write (hclear (by simpa using hkey))
  | setRawAttribute key value meets =>
    obtain rfl := Option.some.inj hstep
    exact h.write hclear
  | copyFrom name source meets =>
    obtain rfl := Option.some.inj hstep
    exact h.copyFrom hclear

/-- With a right cache every operation answers what the object holds. -/
theorem Fresh.right {op : Op φ} (h : Fresh e s) (hclear : Clear e s op) : Right e s op := by
  intro key got hgot
  cases op with
  | read k =>
    obtain ⟨rfl, rfl⟩ := Prod.mk.inj (Option.some.inj hgot)
    exact h.index_answer k hclear
  | next k =>
    obtain ⟨rfl, rfl⟩ := Prod.mk.inj (Option.some.inj hgot)
    unfold pairsNext now
    split
    · rfl
    · next hmethod =>
      obtain ⟨hmem, hunedited⟩ := hclear.resolve_left hmethod
      obtain ⟨value, hvalue⟩ := Option.isSome_iff_exists.mp (AList.lookup_isSome.mpr hmem)
      have hheld : held e s.name s.object k = some value := h k hunedited value hvalue
      rw [hheld, hvalue, Option.getD_some]
  | _ => exact absurd hgot (by simp [answer])

/-- An engine whose objects have the one attribute `Damage`. -/
def demo : Engine Unit where
  statWrites := true
  modifiers := [⟨bytes "Damage", bytes "ConstantInt", 0, by decide, by decide⟩]
  tostring _ := []
  tonumber _ := none
  floor _ := none
  attrFloat _ := .nil
  attrGuid _ := .nil
  attrString _ := none
  attrFlags _ _ := none
  attrLabel _ _ := none
  attrCondition _ := none
  attrTranslated _ := .nil
  showRequirements _ := .nil
  showFunctors _ := .nil
  showRolls _ := .nil
  enumIndex _ _ := none
  splitGroups _ := none
  requirement _ _ _ := none
  compile _ _ := ()

def demoObject : Object Unit where
  modId := none
  originalModId := none
  modifierList := none
  modifierListIndex := 0
  usingName := none
  props := [1]
  aiFlags := []
  requirements := []
  functors := ∅
  rollConditions := ∅
  comboProperties := []
  comboCategories := []

def damage : Key := .string (bytes "Damage")

/-- In every run none of whose operations leaves in the cache what it changed, each read returns
what the engine's object holds at that moment. -/
theorem reads_of_run (e : Engine φ) (name : Bytes) (o : Object φ) (ops : List (Op φ)) (s : Stat φ)
    (hrun : Run (step e) (Clear e) (get name o) ops s) (op : Op φ) (hclear : Clear e s op) :
    Right e s op := by
  have hfresh : Fresh e s := by
    apply hrun.invariant (I := Fresh e)
    · exact Coherent.empty
    · intro t op u ht hclear hstep
      exact ht.step hclear hstep
  exact hfresh.right hclear

/-- Assignments to a set and to an attribute that was read, and a list that is edited in place and
read again once the object was copied over. -/
theorem reads_of_run_demo :
    ∃ s, Run (step demo) (Clear demo) (get [] demoObject)
      [.assign Combo.categories.key (table [.string [65]]) {}, .read damage,
        .assign damage (.integer 5) {}, .read Combo.properties.key,
        .edit Combo.properties.key (sequence 1 [.string [66]]),
        .copyFrom (.string [66]) (some demoObject) {}] s ∧ Right demo s (.read Combo.properties.key) := by
  have hcombo : Clear demo (get [] demoObject)
      (.assign Combo.categories.key (table [.string [65]]) {}) := by
    intro _ _ _
    exact AList.notMem_empty _
  have hread : step demo { get [] demoObject with
        object := { demoObject with comboCategories := [[65]] } } (.read damage) =
      some { get [] demoObject with
        object := { demoObject with comboCategories := [[65]] }
        cache := AList.insert damage (.integer 1) ∅ } := rfl
  have hdamage : Clear demo { get [] demoObject with
      object := { demoObject with comboCategories := [[65]] }
      cache := AList.insert damage (.integer 1) ∅ } (.assign damage (.integer 5) {}) := by
    intro _ i modifier _ other hother hne
    rcases (AList.mem_insert _).mp hother with heq | hnone
    · exact absurd heq hne
    · exact absurd hnone (AList.notMem_empty _)
  have hrun : ∃ s, Run (step demo) (Clear demo) (get [] demoObject)
      [.assign Combo.categories.key (table [.string [65]]) {}, .read damage,
        .assign damage (.integer 5) {}, .read Combo.properties.key,
        .edit Combo.properties.key (sequence 1 [.string [66]]),
        .copyFrom (.string [66]) (some demoObject) {}] s ∧
      Clear demo s (.read Combo.properties.key) := by
    refine ⟨_, Run.cons hcombo rfl (Run.cons ?_ hread (Run.cons hdamage rfl (Run.cons ?_ rfl
      (Run.cons trivial rfl (Run.cons ?_ rfl (Run.refl _)))))), ?_⟩
    · exact Or.inr List.not_mem_nil
    · exact Or.inr List.not_mem_nil
    · exact fun _ hfailed => Bool.noConfusion hfailed
    · exact Or.inr List.not_mem_nil
  obtain ⟨s, hrun, hclear⟩ := hrun
  exact ⟨s, hrun, reads_of_run demo [] demoObject _ s hrun _ hclear⟩

/-- What was read of a set is read again after the set was assigned. -/
theorem assigned_not_read :
    ∃ s, Run (step demo) (fun _ _ => True) (get [] demoObject)
      [.read Combo.categories.key, .assign Combo.categories.key (table [.string [65]]) {}] s ∧
      ¬ Right demo s (.read Combo.categories.key) := by
  refine ⟨_, Run.cons trivial rfl (Run.cons trivial rfl (Run.refl _)), ?_⟩
  intro h
  have hread := h _ _ rfl
  exact Entries.noConfusion (Value.table.inj (Answer.value.inj hread))

end StatObject
end Bg3le
