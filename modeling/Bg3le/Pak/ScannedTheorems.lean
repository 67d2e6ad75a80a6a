import Bg3le.Pak.Agreement

/-!
# The groups after a scan

The groups of the fixer are the groups of ids: they hold the occurrences, the pins and the kind that
belong to their ids.
-/

namespace Bg3le
namespace Pak

variable {B : ℕ ⊕ ℕ → Bytes} {X : Index} {contents : List Content} {G : Groups} {l : Ledger}
  {g h x y : ℕ} {o : Occurrence} {id id' : Bytes}

/-- The groups after a scan of the contents. -/
structure Scanned (B : ℕ ⊕ ℕ → Bytes) (X : Index) (contents : List Content) (G : Groups)
    (l : Ledger) : Prop where
  holds : G.Holds (Spells B) l
  ready : Ready X G.groups.length l
  eq_of_label {x y : ℕ} (hx : x < G.groups.length) (hy : y < G.groups.length)
    (heq : l.label x = l.label y) : x = y
  mem_adds {g : ℕ} {o : Occurrence} : (g, o) ∈ l.adds ↔
    (∃ i < X.names.length, ∃ p ∈ X.parts i, g = p.group ∧ o = p.occurrence i) ∨
      (g, o) ∈ scanAdditions X contents
  joins : l.joins = scanJoins X contents
  pinned (id p : Bytes) : l.Pinned id p ↔ ∃ i < X.names.length, (id, p) ∈ namePins (X.name i)

/-- `scan` after the constructor. -/
theorem scanned {names : List Bytes} (contents : List Content) (hnames : ∀ name ∈ names, 92 ∉ name) :
    ∃ l, Scanned (buffer names contents) (Fixer.new names).index contents
      ((Fixer.new names).scan contents).groups l ∧ (Fixer.new names).index.names = names := by
  obtain ⟨l, hcomplete, heq⟩ :=
    complete_new (B := buffer names contents) (fun i => rfl) hnames
  have hcount : names.length = (Fixer.new names).index.names.length := congrArg List.length heq.symm
  rw [hcount] at hcomplete
  have hready : Ready (Fixer.new names).index (Fixer.new names).groups.groups.length l := by
    refine ⟨hcomplete.indexed, fun i => ?_, hcomplete.ids_eq, hcomplete.built.part_lt, hcomplete.stem⟩
    rw [Index.name, heq, List.getD_eq_getElem?_getD]
    cases hi : names[i]? with
    | none => simp
    | some name => exact hnames name (List.mem_of_getElem? hi)
  obtain ⟨hholds, hlength⟩ := hcomplete.built.holds.contents hready contents.zipIdx
    fun e he => by
      have hget := List.mem_zipIdx_iff_getElem?.mp he
      show ((contents[e.2]?).map Content.bytes).getD [] = e.1.bytes
      rw [hget]
      rfl
  refine ⟨_, ⟨hholds, hready.congr hlength rfl, fun {x y} hx hy hlabel => ?_, fun {g o} => ?_, ?_,
    hcomplete.pinned⟩, heq⟩
  · have hlength' : ((Fixer.new names).scan contents).groups.groups.length =
      (Fixer.new names).groups.groups.length := hlength
    rw [hlength'] at hx hy
    exact hcomplete.built.labelled.eq_of_label hx hy hlabel
  · rw [Ledger.add, List.mem_append]
    apply or_congr _ Iff.rfl
    rw [Ledger.join, hcomplete.built.mem_adds]
    constructor
    · rintro ⟨i, p, hp, heq⟩
      refine ⟨i, ?_, p, hp, heq⟩
      by_contra hi
      rw [hcomplete.parts_of_le (Nat.le_of_not_lt hi)] at hp
      exact List.not_mem_nil hp
    · rintro ⟨i, -, p, hp, heq⟩
      exact ⟨i, p, hp, heq⟩
  · rw [Ledger.add, Ledger.join, hcomplete.built.joins]
    rfl

/-- The groups of a fixer that has scanned its contents. -/
theorem scanned_scan {names : List Bytes} (contents : List Content)
    (hnames : ∀ name ∈ names, 92 ∉ name) :
    ∃ l, Scanned (buffer ((Fixer.new names).scan contents).index.names contents)
        ((Fixer.new names).scan contents).index contents ((Fixer.new names).scan contents).groups l ∧
      ((Fixer.new names).scan contents).index.names = names := by
  obtain ⟨l, hs, heq⟩ := scanned contents hnames
  have hindex : ((Fixer.new names).scan contents).index = (Fixer.new names).index := rfl
  refine ⟨l, ?_, heq⟩
  rw [hindex, heq]
  exact hs

namespace Scanned

/-! ## Classes -/

theorem mem_joins (hs : Scanned B X contents G l) {a b : ℕ} : (a, b) ∈ l.joins ↔
    ∃ content ∈ contents, ∃ t ∈ content.tokens, ∃ entries,
      X.targetOf content t = some (.icons entries) ∧ ∃ e ∈ entries,
        a = X.stems (entries.headD 0) ∧ b = X.stems e := by
  rw [hs.joins, scanJoins]
  simp only [List.mem_flatMap, Prod.exists]
  constructor
  · rintro ⟨content, c, hcontent, t, ht, hmem⟩
    unfold tokenJoins at hmem
    cases htarget : X.targetOf content t with
    | none =>
      rw [htarget] at hmem
      exact absurd hmem List.not_mem_nil
    | some target =>
      rw [htarget, Option.map_some, Option.getD_some] at hmem
      cases target with
      | entry i begin stop => exact absurd hmem List.not_mem_nil
      | icons entries =>
        obtain ⟨e, he, heq⟩ := List.mem_map.mp hmem
        obtain ⟨rfl, rfl⟩ := Prod.mk.inj heq
        exact ⟨content, List.fst_mem_of_mem_zipIdx hcontent, t, ht, entries, htarget, e, he, rfl, rfl⟩
  · rintro ⟨content, hcontent, t, ht, entries, htarget, e, he, rfl, rfl⟩
    obtain ⟨c, hc⟩ := List.getElem?_of_mem hcontent
    refine ⟨content, c, List.mem_zipIdx_iff_getElem?.mpr hc, t, ht, ?_⟩
    unfold tokenJoins
    rw [htarget]
    exact List.mem_map_of_mem he

theorem spelled (hs : Scanned B X contents G l) {content : Content} {t : LsfString}
    (ht : t ∈ content.tokens) {target : Target} (htarget : X.targetOf content t = some target) :
    target.Spelled X (slice content.bytes t.offset t.length) :=
  Index.spelled_targetOf hs.ready.indexed ht htarget

/-- The icons of one reference are in one group. -/
theorem same_icons (hs : Scanned B X contents G l) {content : Content} (hcontent : content ∈ contents)
    {t : LsfString} (ht : t ∈ content.tokens) {entries : List ℕ}
    (htarget : X.targetOf content t = some (.icons entries)) {e e' : ℕ} (he : e ∈ entries)
    (he' : e' ∈ entries) : l.Same (X.stems e) (X.stems e') := by
  have hjoin (e : ℕ) (he : e ∈ entries) : l.Same (X.stems (entries.headD 0)) (X.stems e) :=
    .of_mem (hs.mem_joins.mpr ⟨content, hcontent, t, ht, entries, htarget, e, he, rfl, rfl⟩)
  exact (hjoin e he).symm.trans (hjoin e' he')

theorem sameGroup_of_same (hs : Scanned B X contents G l) (h : l.Same x y) :
    SameGroup X contents (l.label x) (l.label y) := by
  induction h with
  | rel x y hmem =>
    obtain ⟨content, hcontent, t, ht, entries, htarget, e, he, rfl, rfl⟩ := hs.mem_joins.mp hmem
    have hspelled := hs.spelled ht htarget
    have hhead := headD_mem hspelled.1
    apply Relation.EqvGen.rel
    exact ⟨content, hcontent, t, ht, entries, htarget, _, hhead, e, he,
      (hs.ready.stem (hspelled.2.2 _ hhead).1).2, (hs.ready.stem (hspelled.2.2 e he).1).2⟩
  | refl x => exact .refl _
  | symm x y _ ih => exact .symm _ _ ih
  | trans x y z _ _ ih ih' => exact .trans _ _ _ ih ih'

/-- Ids of one group lead to one class, in both directions. -/
theorem exists_same (hs : Scanned B X contents G l) {a b : Bytes} (h : SameGroup X contents a b) :
    (∀ x < G.groups.length, l.label x = a → ∃ y < G.groups.length, l.label y = b ∧ l.Same x y) ∧
      (∀ y < G.groups.length, l.label y = b → ∃ x < G.groups.length, l.label x = a ∧ l.Same x y) := by
  induction h with
  | rel a b hjoins =>
    obtain ⟨content, hcontent, t, ht, entries, htarget, e, he, e', he', rfl, rfl⟩ := hjoins
    have hspelled := hs.spelled ht htarget
    have hstem (e : ℕ) (he : e ∈ entries) := hs.ready.stem (hspelled.2.2 e he).1
    have hsame := hs.same_icons hcontent ht htarget he he'
    constructor
    · intro x hx hlabel
      rw [hs.eq_of_label hx (hstem e he).1 (hlabel.trans (hstem e he).2.symm)]
      exact ⟨X.stems e', (hstem e' he').1, (hstem e' he').2, hsame⟩
    · intro y hy hlabel
      rw [hs.eq_of_label hy (hstem e' he').1 (hlabel.trans (hstem e' he').2.symm)]
      exact ⟨X.stems e, (hstem e he).1, (hstem e he).2, hsame⟩
  | refl a =>
    exact ⟨fun x hx hlabel => ⟨x, hx, hlabel, .refl _ _⟩, fun y hy hlabel => ⟨y, hy, hlabel, .refl _ _⟩⟩
  | symm a b _ ih =>
    constructor
    · intro x hx hlabel
      obtain ⟨y, hy, hlabel', hsame⟩ := ih.2 x hx hlabel
      exact ⟨y, hy, hlabel', hsame.symm⟩
    · intro y hy hlabel
      obtain ⟨x, hx, hlabel', hsame⟩ := ih.1 y hy hlabel
      exact ⟨x, hx, hlabel', hsame.symm⟩
  | trans a b c _ _ ih ih' =>
    constructor
    · intro x hx hlabel
      obtain ⟨y, hy, hlabel', hsame⟩ := ih.1 x hx hlabel
      obtain ⟨z, hz, hlabel'', hsame'⟩ := ih'.1 y hy hlabel'
      exact ⟨z, hz, hlabel'', hsame.trans hsame'⟩
    · intro z hz hlabel
      obtain ⟨y, hy, hlabel', hsame⟩ := ih'.2 z hz hlabel
      obtain ⟨x, hx, hlabel'', hsame'⟩ := ih.2 y hy hlabel'
      exact ⟨x, hx, hlabel'', hsame'.trans hsame⟩

/-- An id of the group of another group's id has a group in the class of that one. -/
theorem exists_group (hs : Scanned B X contents G l) (hg : g < G.groups.length)
    (h : SameGroup X contents id (l.label g)) : ∃ x < G.groups.length, l.label x = id ∧ l.Same x g := by
  obtain ⟨x, hx, hlabel, hsame⟩ := (hs.exists_same h).2 g hg rfl
  exact ⟨x, hx, hlabel, hsame⟩

theorem same_of_sameGroup (hs : Scanned B X contents G l) (hx : x < G.groups.length)
    (hg : g < G.groups.length) (h : SameGroup X contents (l.label x) (l.label g)) : l.Same x g := by
  obtain ⟨x', hx', hlabel, hsame⟩ := hs.exists_group hg h
  rwa [hs.eq_of_label hx' hx hlabel] at hsame

/-! ## Occurrences -/

theorem mentions_of_mem (hs : Scanned B X contents G l) (hmem : (h, o) ∈ l.adds) :
    Mentions X contents (l.label h) o := by
  rcases hs.mem_adds.mp hmem with ⟨i, hi, p, hp, rfl, rfl⟩ | hmem
  · exact .name hi (r := (p.begin, p.stop)) (hs.ready.part_mem hi hp)
  · unfold scanAdditions at hmem
    simp only [List.mem_flatMap, Prod.exists] at hmem
    obtain ⟨content, c, hcontent, t, ht, hmem⟩ := hmem
    have hc := List.mem_zipIdx_iff_getElem?.mp hcontent
    unfold tokenAdditions at hmem
    cases htarget : X.targetOf content t with
    | none =>
      rw [htarget] at hmem
      exact absurd hmem List.not_mem_nil
    | some target =>
      rw [htarget, Option.map_some, Option.getD_some] at hmem
      have hspelled := hs.spelled ht htarget
      cases target with
      | entry i begin stop =>
        obtain ⟨p, hp, heq⟩ := List.mem_map.mp hmem
        obtain ⟨rfl, rfl⟩ := Prod.mk.inj heq
        obtain ⟨hp, hrange⟩ := List.mem_filter.mp hp
        simp only [Bool.decide_and, Bool.and_eq_true, decide_eq_true_eq] at hrange
        exact .entry hc ht htarget (r := (p.begin, p.stop)) (hs.ready.part_mem hspelled.1 hp)
          hrange.1 hrange.2
      | icons entries =>
        obtain ⟨rfl, rfl⟩ := Prod.mk.inj (List.mem_singleton.mp hmem)
        have hhead := headD_mem hspelled.1
        rw [(hs.ready.stem (hspelled.2.2 _ hhead).1).2]
        exact .icon hc ht htarget hhead

/-- A component of an entry has a group. -/
theorem exists_part (hs : Scanned B X contents G l) {i : ℕ} (hi : i < X.names.length) {r : ℕ × ℕ}
    (hr : (id, r) ∈ components (X.name i)) :
    ∃ p ∈ X.parts i, l.label p.group = id ∧ (p.begin, p.stop) = r := by
  rw [← hs.ready.ids_eq hi] at hr
  obtain ⟨p, hp, heq⟩ := List.mem_map.mp hr
  obtain ⟨rfl, rfl⟩ := Prod.mk.inj heq
  exact ⟨p, hp, rfl, rfl⟩

theorem mem_scanAdditions {c : ℕ} {content : Content} (hc : contents[c]? = some content)
    {t : LsfString} (ht : t ∈ content.tokens) {target : Target}
    (htarget : X.targetOf content t = some target)
    (hmem : (h, o) ∈ target.additions X c t.offset t.length) : (h, o) ∈ scanAdditions X contents := by
  unfold scanAdditions
  simp only [List.mem_flatMap, Prod.exists]
  refine ⟨content, c, List.mem_zipIdx_iff_getElem?.mpr hc, t, ht, ?_⟩
  unfold tokenAdditions
  rwa [htarget]

theorem exists_mem_of_mentions (hs : Scanned B X contents G l) (hm : Mentions X contents id o) :
    ∃ x < G.groups.length, l.label x = id ∧ ∃ h, (h, o) ∈ l.adds ∧ l.Same h x := by
  cases hm with
  | @name i id r hi hr =>
    obtain ⟨p, hp, hlabel, heq⟩ := hs.exists_part hi hr
    refine ⟨p.group, hs.ready.part_lt hp, hlabel, p.group, ?_, .refl _ _⟩
    rw [← heq]
    exact hs.mem_adds.mpr (.inl ⟨i, hi, p, hp, rfl, rfl⟩)
  | @entry c i begin stop content t id r hc ht htarget hr hbegin hstop =>
    have hspelled := hs.spelled ht htarget
    obtain ⟨p, hp, hlabel, heq⟩ := hs.exists_part hspelled.1 hr
    refine ⟨p.group, hs.ready.part_lt hp, hlabel, p.group, ?_, .refl _ _⟩
    subst heq
    apply hs.mem_adds.mpr
    apply Or.inr
    apply mem_scanAdditions hc ht htarget
    apply List.mem_map.mpr
    exact ⟨p, List.mem_filter.mpr ⟨hp, by simpa using ⟨hbegin, hstop⟩⟩, rfl⟩
  | @icon c e content t entries hc ht htarget he =>
    have hspelled := hs.spelled ht htarget
    have hstem := hs.ready.stem (hspelled.2.2 e he).1
    refine ⟨X.stems e, hstem.1, hstem.2, X.stems (entries.headD 0), ?_, ?_⟩
    · apply hs.mem_adds.mpr
      apply Or.inr
      exact mem_scanAdditions hc ht htarget (List.mem_singleton_self _)
    · exact hs.same_icons (List.mem_of_getElem? hc) ht htarget (headD_mem hspelled.1) he

/-! ## Groups -/

/-- The occurrences of a group are those of its ids. -/
theorem mem_occurrences (hs : Scanned B X contents G l) (hg : g < G.groups.length) :
    o ∈ (G.groupOf g).occurrences ↔
      ∃ id, SameGroup X contents id (l.label g) ∧ Mentions X contents id o := by
  rw [hs.holds.mem_iff hg]
  constructor
  · rintro ⟨h, hmem, hsame⟩
    exact ⟨l.label h, hs.sameGroup_of_same hsame, hs.mentions_of_mem hmem⟩
  · rintro ⟨id, hgroup, hm⟩
    obtain ⟨x, hx, hlabel, h, hmem, hsame⟩ := hs.exists_mem_of_mentions hm
    refine ⟨h, hmem, hsame.trans ?_⟩
    exact hs.same_of_sameGroup hx hg (hlabel ▸ hgroup)

theorem pinsOf_eq (hs : Scanned B X contents G l) (hg : g < G.groups.length) :
    l.pinsOf g = pinsOf X contents (l.label g) := by
  ext p
  constructor
  · rintro ⟨h, hmem, hsame⟩
    exact ⟨l.label h, hs.sameGroup_of_same hsame, (hs.pinned _ _).mp ⟨h, hmem, rfl⟩⟩
  · rintro ⟨id, hgroup, hpin⟩
    obtain ⟨h, hmem, hlabel⟩ := (hs.pinned _ _).mpr hpin
    refine ⟨h, hmem, ?_⟩
    exact hs.same_of_sameGroup (hs.holds.pinned hmem).1 hg (hlabel ▸ hgroup)

theorem directory_iff (hs : Scanned B X contents G l) (hg : g < G.groups.length) :
    (G.groupOf g).directory = true ↔ DirectoryGroup X contents (l.label g) := by
  rw [hs.holds.directory hg]
  constructor
  · rintro ⟨h, -, hdir, hsame⟩
    exact ⟨l.label h, hs.sameGroup_of_same hsame, hdir⟩
  · rintro ⟨id, hgroup, hdir⟩
    obtain ⟨h, hh, rfl, hsame⟩ := hs.exists_group hg hgroup
    exact ⟨h, hh, hdir, hsame⟩

/-- All spellings of a group are one text. -/
theorem spells (hs : Scanned B X contents G l) (hg : g < G.groups.length)
    (ho : o ∈ (G.groupOf g).occurrences) : Spells B o (l.text g) := by
  obtain ⟨h, hmem, hsame⟩ := (hs.holds.mem_iff hg o).mp ho
  rw [← hs.holds.text_eq hsame]
  exact (hs.holds.added hmem).2

end Scanned

end Pak
end Bg3le
