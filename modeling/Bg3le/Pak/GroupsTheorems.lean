import Bg3le.Pak.Fixer
import Bg3le.Pak.LayoutTheorems

/-!
# What the groups hold

A ledger says what was done to the groups: which were joined, and which occurrences and pins were
added to each. A group holds what was added to any group that it has been joined with, and all of
its spellings are one text in lower case.
-/

namespace Bg3le
namespace Pak

/-- What was done to the groups: their ids, the groups that were joined, and the occurrences and the
pins that were added, each beside its group. -/
structure Ledger where
  label : ℕ → Bytes
  joins : List (ℕ × ℕ)
  adds : List (ℕ × Occurrence)
  pins : List (ℕ × Bytes)

namespace Ledger

/-- The groups that are one group by now. -/
def Same (l : Ledger) (x y : ℕ) : Prop := UnionFind.Joined l.joins x y

/-- The text that a group spells, in lower case. -/
def text (l : Ledger) (g : ℕ) : Bytes := textOf (l.label g)

/-- The pins of a group. -/
def pinsOf (l : Ledger) (g : ℕ) : Set Bytes := {p | ∃ h, (h, p) ∈ l.pins ∧ l.Same h g}

def withNew (l : Ledger) (g : ℕ) (id : Bytes) : Ledger :=
  { l with label := Function.update l.label g id }

def add (l : Ledger) (adds : List (ℕ × Occurrence)) : Ledger := { l with adds := l.adds ++ adds }

def pin (l : Ledger) (pins : List (ℕ × Bytes)) : Ledger := { l with pins := l.pins ++ pins }

def join (l : Ledger) (joins : List (ℕ × ℕ)) : Ledger := { l with joins := l.joins ++ joins }

end Ledger

/-- The pin of a group that was pinned to the spellings `S`. -/
structure PinState (group : Group) (S : Set Bytes) : Prop where
  none (h : group.pin = []) : S = ∅
  mem (h : group.pin ≠ []) : group.pin ∈ S
  conflict : group.pinConflict = true ↔ ∃ p ∈ S, p ≠ group.pin

/-- A group pinned to one more spelling. -/
theorem PinState.pinTo {group : Group} {S : Set Bytes} {p : Bytes} (h : PinState group S)
    (hp : p ≠ []) : PinState (group.pinTo p) (insert p S) := by
  unfold Group.pinTo
  split
  · next hnil =>
    have hS := h.none hnil
    subst hS
    refine ⟨fun heq => absurd heq hp, fun _ => .inl rfl, h.conflict.trans ?_⟩
    simp
  · next hne =>
    split
    · next hother =>
      exact ⟨fun heq => absurd heq hne, fun _ => .inr (h.mem hne),
        ⟨fun _ => ⟨p, .inl rfl, hother.symm⟩, fun _ => rfl⟩⟩
    · next hsame =>
      refine ⟨fun heq => absurd heq hne, fun _ => .inr (h.mem hne), h.conflict.trans ?_⟩
      simp [Decidable.not_not.mp hsame]

/-- Groups that are merged have the pins of both. -/
theorem PinState.merge {group source : Group} {S S' : Set Bytes} (h : PinState group S)
    (h' : PinState source S') : PinState (Group.merge source group) (S ∪ S') := by
  -- a group without a pin takes the other's; else it keeps its own and notes a second one
  by_cases hnil : group.pin = []
  · have hS := h.none hnil
    have hconflict : group.pinConflict = false := by
      rw [← Bool.not_eq_true, h.conflict, hS]
      simp
    subst hS
    rw [Set.empty_union]
    refine ⟨fun heq => h'.none ?_, fun hne => ?_, ?_⟩
    · rwa [Group.merge, if_pos hnil] at heq
    · rw [Group.merge, if_pos hnil] at hne ⊢
      exact h'.mem hne
    · rw [Group.merge]
      simp [hnil, hconflict, h'.conflict]
  · have hpin : (Group.merge source group).pin = group.pin := if_neg hnil
    refine ⟨fun heq => absurd (hpin ▸ heq) hnil, fun _ => .inl (hpin ▸ h.mem hnil), ?_⟩
    rw [hpin, Group.merge]
    by_cases hnil' : source.pin = []
    · have hS := h'.none hnil'
      have hconflict : source.pinConflict = false := by
        rw [← Bool.not_eq_true, h'.conflict, hS]
        simp
      simp [hnil', hconflict, hS, h.conflict]
    · have hmem := h'.mem hnil'
      simp only [Bool.or_eq_true, Bool.and_eq_true, decide_eq_true_eq, h.conflict, h'.conflict,
        Set.mem_union]
      constructor
      · rintro ((⟨p, hp, hne⟩ | ⟨p, hp, hne⟩) | ⟨-, hne⟩)
        · exact ⟨p, .inl hp, hne⟩
        · by_cases heq : p = group.pin
          · exact ⟨source.pin, .inr hmem, fun hsource => hne (heq.trans hsource.symm)⟩
          · exact ⟨p, .inr hp, heq⟩
        · exact ⟨source.pin, .inr hmem, hne⟩
      · rintro ⟨p, hp | hp, hne⟩
        · exact .inl (.inl ⟨p, hp, hne⟩)
        · by_cases heq : p = source.pin
          · exact .inr ⟨⟨hnil, hnil'⟩, heq ▸ hne⟩
          · exact .inl (.inr ⟨p, hp, heq⟩)

namespace Groups

open UnionFind (Forest up)

/-- The root of a group. -/
def rootOf (G : Groups) (g : ℕ) : ℕ := UnionFind.rootOf G.parent g

/-- The group that a group is part of. -/
def groupOf (G : Groups) (g : ℕ) : Group := G.groups.getD (G.rootOf g) Group.new

/-- The groups after what the ledger says; `R` is what an occurrence has to do with the text of its
group. -/
structure Holds (R : Occurrence → Bytes → Prop) (G : Groups) (l : Ledger) : Prop where
  forest : Forest G.parent
  length_eq : G.parent.length = G.groups.length
  root_iff (x y : ℕ) : G.rootOf x = G.rootOf y ↔ l.Same x y
  joined {a b : ℕ} (h : (a, b) ∈ l.joins) :
    a < G.groups.length ∧ b < G.groups.length ∧ l.text a = l.text b
  mem_iff {g : ℕ} (hg : g < G.groups.length) (o : Occurrence) :
    o ∈ (G.groupOf g).occurrences ↔ ∃ h, (h, o) ∈ l.adds ∧ l.Same h g
  added {h : ℕ} {o : Occurrence} (hmem : (h, o) ∈ l.adds) :
    h < G.groups.length ∧ R o (l.text h)
  pinned {h : ℕ} {p : Bytes} (hmem : (h, p) ∈ l.pins) :
    h < G.groups.length ∧ lowered p = l.text h ∧ 92 ∉ p ∧ p ≠ []
  pin {g : ℕ} (hg : g < G.groups.length) : PinState (G.groupOf g) (l.pinsOf g)
  directory {g : ℕ} (hg : g < G.groups.length) : (G.groupOf g).directory = true ↔
    ∃ h < G.groups.length, isDirectory (l.label h) = true ∧ l.Same h g

variable {R : Occurrence → Bytes → Prop} {G : Groups} {l : Ledger} {g x a b : ℕ} {o : Occurrence}

/-! ## Finding -/

/-- Finding a root moves none. -/
theorem rootOf_find (h : Forest G.parent) (g x : ℕ) : (G.find g).1.rootOf x = G.rootOf x :=
  h.rootOf_find g x

/-- Nor does it change a group. -/
theorem groupOf_find (h : Forest G.parent) (g x : ℕ) : (G.find g).1.groupOf x = G.groupOf x := by
  rw [groupOf, rootOf_find h]
  rfl

theorem find_snd (G : Groups) (g : ℕ) : (G.find g).2 = G.rootOf g := rfl

/-- So all stays as it is. -/
theorem Holds.find (h : G.Holds R l) (g : ℕ) : (G.find g).1.Holds R l where
  forest := h.forest.find g
  length_eq := (h.forest.length_find g).trans h.length_eq
  root_iff x y := by
    rw [rootOf_find h.forest, rootOf_find h.forest]
    exact h.root_iff x y
  joined := h.joined
  mem_iff {x} hx o := by
    rw [groupOf_find h.forest]
    exact h.mem_iff hx o
  added := h.added
  pinned := h.pinned
  pin {x} hx := by
    rw [groupOf_find h.forest]
    exact h.pin hx
  directory {x} hx := by
    rw [groupOf_find h.forest]
    exact h.directory hx

/-- The root of a group is a group. -/
theorem Holds.rootOf_lt (h : G.Holds R l) (hg : g < G.groups.length) :
    G.rootOf g < G.groups.length := by
  have := h.forest.rootOf_lt (h.length_eq ▸ hg)
  rwa [h.length_eq] at this

theorem Holds.rootOf_of_le (h : G.Holds R l) (hg : G.groups.length ≤ g) : G.rootOf g = g :=
  h.forest.rootOf_of_up (UnionFind.up_of_length_le (h.length_eq.le.trans hg))

/-- The members of one class spell one text. -/
theorem Holds.text_eq (h : G.Holds R l) {x y : ℕ} (hsame : l.Same x y) : l.text x = l.text y :=
  hsame.value fun _ _ hmem => (h.joined hmem).2.2

/-- A group that was not there is in no class. -/
theorem Holds.lt_of_same (h : G.Holds R l) {x y : ℕ} (hsame : l.Same x y)
    (hx : x < G.groups.length) : y < G.groups.length := by
  by_contra hy
  have hroot := (h.root_iff x y).mpr hsame
  rw [h.rootOf_of_le (Nat.le_of_not_lt hy)] at hroot
  have := h.rootOf_lt hx
  omega

/-! ## Changes to one group -/

/-- One group changes. -/
theorem getD_modify {l : List Group} {i : ℕ} (hi : i < l.length) (change : Group → Group) (j : ℕ) :
    (l.modify i change).getD j Group.new =
      if j = i then change (l.getD j Group.new) else l.getD j Group.new := by
  simp only [List.getD_eq_getElem?_getD, List.getElem?_modify]
  split
  · next hj =>
    subst hj
    simp [List.getElem?_eq_getElem hi]
  · next hj => simp [Ne.symm hj]

/-- All names of a group see its change. -/
theorem groupOf_modify (h : G.Holds R l) (hg : g < G.groups.length) (change : Group → Group)
    (x : ℕ) : (G.modify (G.rootOf g) change).groupOf x =
      if G.rootOf x = G.rootOf g then change (G.groupOf x) else G.groupOf x := by
  have hroot : (G.modify (G.rootOf g) change).rootOf x = G.rootOf x := rfl
  rw [groupOf, hroot, modify, getD_modify (h.rootOf_lt hg)]
  rfl

theorem rootOf_add (h : G.Holds R l) (g x : ℕ) (o : Occurrence) :
    (G.add g o).rootOf x = G.rootOf x :=
  rootOf_find h.forest g x

theorem rootOf_pin (h : G.Holds R l) (g x : ℕ) (spelling : Bytes) :
    (G.pin g spelling).rootOf x = G.rootOf x :=
  rootOf_find h.forest g x

@[simp]
theorem length_find (G : Groups) (g : ℕ) : (G.find g).1.groups.length = G.groups.length := rfl

@[simp]
theorem length_add (G : Groups) (g : ℕ) (o : Occurrence) :
    (G.add g o).groups.length = G.groups.length := by
  simp [add, modify]

@[simp]
theorem length_pin (G : Groups) (g : ℕ) (spelling : Bytes) :
    (G.pin g spelling).groups.length = G.groups.length := by
  simp [pin, modify]

/-- An occurrence is added to all names of a group. -/
theorem groupOf_add (h : G.Holds R l) (hg : g < G.groups.length) (o : Occurrence) (x : ℕ) :
    (G.add g o).groupOf x =
      if G.rootOf x = G.rootOf g then (G.groupOf x).addOccurrence o else G.groupOf x := by
  have hmodify := groupOf_modify (h.find g) hg (Group.addOccurrence o) x
  rwa [rootOf_find h.forest, rootOf_find h.forest, groupOf_find h.forest] at hmodify

/-- A pin is set for all of them. -/
theorem groupOf_pin (h : G.Holds R l) (hg : g < G.groups.length) (spelling : Bytes) (x : ℕ) :
    (G.pin g spelling).groupOf x =
      if G.rootOf x = G.rootOf g then (G.groupOf x).pinTo spelling else G.groupOf x := by
  have hmodify := groupOf_modify (h.find g) hg (Group.pinTo spelling) x
  rwa [rootOf_find h.forest, rootOf_find h.forest, groupOf_find h.forest] at hmodify

/-- An occurrence is added to a group. -/
theorem Holds.add (h : G.Holds R l) (hg : g < G.groups.length) (ho : R o (l.text g)) :
    (G.add g o).Holds R (l.add [(g, o)]) where
  forest := h.forest.find g
  length_eq := by
    rw [length_add]
    exact (h.forest.length_find g).trans h.length_eq
  root_iff x y := by
    rw [rootOf_add h, rootOf_add h]
    exact h.root_iff x y
  joined hmem := by
    rw [length_add]
    exact h.joined hmem
  mem_iff {x} hx o' := by
    rw [length_add] at hx
    rw [groupOf_add h hg]
    have hmem (g' : ℕ) : (g', o') ∈ (l.add [(g, o)]).adds ↔
        (g', o') ∈ l.adds ∨ (g' = g ∧ o' = o) := by
      simp [Ledger.add]
    simp only [hmem, or_and_right, exists_or]
    split
    · next hroot =>
      rw [Group.addOccurrence, List.mem_append, List.mem_singleton, h.mem_iff hx]
      apply or_congr Iff.rfl
      constructor
      · intro heq
        exact ⟨g, ⟨rfl, heq⟩, (h.root_iff g x).mp hroot.symm⟩
      · rintro ⟨_, ⟨-, heq⟩, -⟩
        exact heq
    · next hroot =>
      rw [h.mem_iff hx]
      constructor
      · exact .inl
      · rintro (hold | ⟨_, ⟨rfl, -⟩, hsame⟩)
        · exact hold
        · exact absurd ((h.root_iff _ x).mpr hsame).symm hroot
  added {h' o'} hmem := by
    rw [length_add]
    rcases List.mem_append.mp hmem with hmem | hmem
    · exact h.added hmem
    · obtain ⟨rfl, rfl⟩ := Prod.mk.inj (List.mem_singleton.mp hmem)
      exact ⟨hg, ho⟩
  pinned hmem := by
    rw [length_add]
    exact h.pinned hmem
  pin {x} hx := by
    rw [length_add] at hx
    rw [groupOf_add h hg]
    -- an occurrence pins nothing
    obtain ⟨hnone, hpin, hconflict⟩ := h.pin hx
    split
    · exact ⟨hnone, hpin, hconflict⟩
    · exact ⟨hnone, hpin, hconflict⟩
  directory {x} hx := by
    rw [length_add] at hx ⊢
    rw [groupOf_add h hg]
    have hdirectory := h.directory hx
    split
    · exact hdirectory
    · exact hdirectory

/-! ## Pins -/

theorem occurrences_pinTo {spelling : Bytes} {group : Group} :
    (group.pinTo spelling).occurrences = group.occurrences := by
  unfold Group.pinTo
  split
  · rfl
  · split <;> rfl

theorem directory_pinTo {spelling : Bytes} {group : Group} :
    (group.pinTo spelling).directory = group.directory := by
  unfold Group.pinTo
  split
  · rfl
  · split <;> rfl

/-- A pin counts for all groups that are the same. -/
theorem pinsOf_pin (l : Ledger) (g x : ℕ) (p : Bytes) :
    (l.pin [(g, p)]).pinsOf x = {q | q ∈ l.pinsOf x ∨ (q = p ∧ l.Same g x)} := by
  ext q
  have hmem (g' : ℕ) : (g', q) ∈ (l.pin [(g, p)]).pins ↔
      (g', q) ∈ l.pins ∨ (g' = g ∧ q = p) := by
    simp [Ledger.pin]
  rw [Ledger.pinsOf, Set.mem_ofPred_eq, Set.mem_ofPred_eq]
  simp only [hmem, or_and_right, exists_or]
  apply or_congr Iff.rfl
  constructor
  · rintro ⟨_, ⟨rfl, heq⟩, hsame⟩
    exact ⟨heq, hsame⟩
  · rintro ⟨heq, hsame⟩
    exact ⟨g, ⟨rfl, heq⟩, hsame⟩

/-- A pin of the group's text. -/
theorem Holds.pinTo {spelling : Bytes} (h : G.Holds R l) (hg : g < G.groups.length)
    (htext : lowered spelling = l.text g) (hslash : 92 ∉ spelling) (hne : spelling ≠ []) :
    (G.pin g spelling).Holds R (l.pin [(g, spelling)]) where
  forest := h.forest.find g
  length_eq := by
    rw [length_pin]
    exact (h.forest.length_find g).trans h.length_eq
  root_iff x y := by
    rw [rootOf_pin h, rootOf_pin h]
    exact h.root_iff x y
  joined hmem := by
    rw [length_pin]
    exact h.joined hmem
  mem_iff {x} hx o := by
    rw [length_pin] at hx
    rw [groupOf_pin h hg]
    split
    · rw [occurrences_pinTo]
      exact h.mem_iff hx o
    · exact h.mem_iff hx o
  added hmem := by
    rw [length_pin]
    exact h.added hmem
  pinned {h' p} hmem := by
    rw [length_pin]
    rcases List.mem_append.mp hmem with hmem | hmem
    · exact h.pinned hmem
    · obtain ⟨rfl, rfl⟩ := Prod.mk.inj (List.mem_singleton.mp hmem)
      exact ⟨hg, htext, hslash, hne⟩
  pin {x} hx := by
    rw [length_pin] at hx
    rw [groupOf_pin h hg, pinsOf_pin]
    split
    · next hroot =>
      -- `x` is in the group that is pinned
      have hset : {q | q ∈ l.pinsOf x ∨ (q = spelling ∧ l.Same g x)} = insert spelling (l.pinsOf x) := by
        ext q
        simp [(h.root_iff g x).mp hroot.symm, or_comm]
      rw [hset]
      exact (h.pin hx).pinTo hne
    · next hroot =>
      have hset : {q | q ∈ l.pinsOf x ∨ (q = spelling ∧ l.Same g x)} = l.pinsOf x := by
        ext q
        have hapart : ¬ l.Same g x := fun hsame => hroot ((h.root_iff g x).mpr hsame).symm
        simp [hapart]
      rw [hset]
      exact h.pin hx
  directory {x} hx := by
    rw [length_pin] at hx ⊢
    rw [groupOf_pin h hg]
    split
    · rw [directory_pinTo]
      exact h.directory hx
    · exact h.directory hx

/-! ## Uniting -/

/-- The group at `rb` goes into the one at `ra`. -/
def merged (G : Groups) (ra rb : ℕ) : Groups :=
  { G with
    groups := (G.groups.modify ra (Group.merge (G.groups.getD rb Group.new))).set rb Group.new
    parent := G.parent.set rb ra }

/-- Uniting two groups merges their roots, if they differ. -/
theorem unite_eq (h : G.Holds R l) (a b : ℕ) :
    G.unite a b =
      if G.rootOf a = G.rootOf b then ((G.find a).1.find b).1
      else ((G.find a).1.find b).1.merged (G.rootOf a) (G.rootOf b) := by
  have hb : ((G.find a).1.find b).2 = G.rootOf b := rootOf_find h.forest a b
  rw [unite]
  simp only [hb, find_snd]
  rfl

section Merged

theorem length_merged (G : Groups) (ra rb : ℕ) :
    (G.merged ra rb).groups.length = G.groups.length := by
  simp [merged]

/-- The second root's names are now the first's. -/
theorem rootOf_merged (h : G.Holds R l) (ha : a < G.groups.length) (hb : b < G.groups.length)
    (hne : G.rootOf a ≠ G.rootOf b) (x : ℕ) :
    (G.merged (G.rootOf a) (G.rootOf b)).rootOf x =
      if G.rootOf x = G.rootOf b then G.rootOf a else G.rootOf x :=
  h.forest.rootOf_link (h.length_eq ▸ h.rootOf_lt ha) (h.length_eq ▸ h.rootOf_lt hb)
    (h.forest.up_rootOf a) (h.forest.up_rootOf b) hne x

/-- They have the merged group. -/
theorem groupOf_merged (h : G.Holds R l) (ha : a < G.groups.length) (hb : b < G.groups.length)
    (hne : G.rootOf a ≠ G.rootOf b) (x : ℕ) :
    (G.merged (G.rootOf a) (G.rootOf b)).groupOf x =
      if G.rootOf x = G.rootOf a ∨ G.rootOf x = G.rootOf b
        then Group.merge (G.groupOf b) (G.groupOf a)
      else G.groupOf x := by
  have hlt := h.rootOf_lt ha
  have hstays : (G.merged (G.rootOf a) (G.rootOf b)).groups.getD (G.rootOf a) Group.new =
      Group.merge (G.groupOf b) (G.groupOf a) := by
    rw [merged, List.getD_eq_getElem?_getD, List.getElem?_set_ne (Ne.symm hne),
      ← List.getD_eq_getElem?_getD, getD_modify hlt, if_pos rfl]
    rfl
  rw [groupOf, rootOf_merged h ha hb hne]
  by_cases hxb : G.rootOf x = G.rootOf b
  · rw [if_pos hxb, if_pos (.inr hxb), hstays]
  · rw [if_neg hxb]
    by_cases hxa : G.rootOf x = G.rootOf a
    · rw [if_pos (.inl hxa), hxa, hstays]
    · rw [if_neg (by simp [hxa, hxb]), groupOf, merged, List.getD_eq_getElem?_getD,
        List.getElem?_set_ne (Ne.symm hxb), ← List.getD_eq_getElem?_getD, getD_modify hlt,
        if_neg hxa]

/-- The classes after two groups were joined. -/
theorem same_join (h : G.Holds R l) (a b x y : ℕ) :
    (l.join [(a, b)]).Same x y ↔
      (if G.rootOf x = G.rootOf b then G.rootOf a else G.rootOf x) =
        if G.rootOf y = G.rootOf b then G.rootOf a else G.rootOf y :=
  (UnionFind.joined_link h.root_iff a b x y).symm

/-- The class of two joined groups is both classes. -/
theorem same_join_of_mem (h : G.Holds R l) (hx : G.rootOf x = G.rootOf a ∨ G.rootOf x = G.rootOf b)
    (y : ℕ) : (l.join [(a, b)]).Same y x ↔ l.Same y a ∨ l.Same y b := by
  rw [same_join h, ← h.root_iff, ← h.root_iff]
  have hroot : (if G.rootOf x = G.rootOf b then G.rootOf a else G.rootOf x) = G.rootOf a := by
    split
    · rfl
    · next hxb => exact hx.resolve_right hxb
  rw [hroot]
  by_cases hy : G.rootOf y = G.rootOf b
  · simp [hy]
  · simp [hy]

/-- Other names are the same as before. -/
theorem same_join_of_not_mem (h : G.Holds R l)
    (hx : ¬ (G.rootOf x = G.rootOf a ∨ G.rootOf x = G.rootOf b)) (y : ℕ) :
    (l.join [(a, b)]).Same y x ↔ l.Same y x := by
  rw [same_join h, ← h.root_iff]
  have hxb : G.rootOf x ≠ G.rootOf b := fun heq => hx (.inr heq)
  have hxa : G.rootOf x ≠ G.rootOf a := fun heq => hx (.inl heq)
  rw [if_neg hxb]
  by_cases hy : G.rootOf y = G.rootOf b
  · simp [hy, Ne.symm hxa, Ne.symm hxb]
  · simp [hy]

/-- Merging follows the ledger's join. -/
theorem Holds.merged (h : G.Holds R l) (ha : a < G.groups.length) (hb : b < G.groups.length)
    (hne : G.rootOf a ≠ G.rootOf b) (htext : l.text a = l.text b) :
    (G.merged (G.rootOf a) (G.rootOf b)).Holds R (l.join [(a, b)]) where
  forest := h.forest.link (h.length_eq ▸ h.rootOf_lt ha) (h.length_eq ▸ h.rootOf_lt hb)
    (h.forest.up_rootOf a) (h.forest.up_rootOf b) hne
  length_eq := by
    rw [length_merged]
    simpa [Groups.merged] using h.length_eq
  root_iff x y := by
    rw [rootOf_merged h ha hb hne, rootOf_merged h ha hb hne]
    exact (same_join h a b x y).symm
  joined {a' b'} hmem := by
    rw [length_merged]
    rcases List.mem_append.mp hmem with hmem | hmem
    · exact h.joined hmem
    · obtain ⟨rfl, rfl⟩ := Prod.mk.inj (List.mem_singleton.mp hmem)
      exact ⟨ha, hb, htext⟩
  mem_iff {x} hx o := by
    rw [length_merged] at hx
    rw [groupOf_merged h ha hb hne]
    -- the merged group holds what both held; the others are as they were
    split
    · next hx' =>
      simp only [same_join_of_mem h hx']
      rw [Group.merge, List.mem_append, h.mem_iff ha, h.mem_iff hb]
      simp only [and_or_left, exists_or]
      exact Iff.rfl
    · next hx' =>
      simp only [same_join_of_not_mem h hx']
      exact h.mem_iff hx o
  added hmem := by
    rw [length_merged]
    exact h.added hmem
  pinned hmem := by
    rw [length_merged]
    exact h.pinned hmem
  pin {x} hx := by
    rw [length_merged] at hx
    rw [groupOf_merged h ha hb hne]
    split
    · next hx' =>
      -- the pins of the merged group are those of both, and `merge` keeps the better one
      have hset : (l.join [(a, b)]).pinsOf x = l.pinsOf a ∪ l.pinsOf b := by
        ext p
        simp only [Ledger.pinsOf, Set.mem_ofPred_eq, same_join_of_mem h hx', Set.mem_union,
          and_or_left, exists_or]
        exact Iff.rfl
      rw [hset]
      exact (h.pin ha).merge (h.pin hb)
    · next hx' =>
      have hset : (l.join [(a, b)]).pinsOf x = l.pinsOf x := by
        ext p
        simp only [Ledger.pinsOf, Set.mem_ofPred_eq, same_join_of_not_mem h hx']
        exact Iff.rfl
      rw [hset]
      exact h.pin hx
  directory {x} hx := by
    rw [length_merged] at hx ⊢
    rw [groupOf_merged h ha hb hne]
    split
    · next hx' =>
      simp only [same_join_of_mem h hx']
      rw [Group.merge]
      simp only [Bool.or_eq_true, h.directory ha, h.directory hb, and_or_left, exists_or]
      exact Iff.rfl
    · next hx' =>
      simp only [same_join_of_not_mem h hx']
      exact h.directory hx

end Merged

/-- Joining two groups that are one already changes nothing. -/
theorem Holds.join_same (h : G.Holds R l) (ha : a < G.groups.length) (hb : b < G.groups.length)
    (heq : G.rootOf a = G.rootOf b) : G.Holds R (l.join [(a, b)]) := by
  have hsame (x y : ℕ) : (l.join [(a, b)]).Same x y ↔ l.Same x y := by
    rw [same_join h, heq, ← h.root_iff]
    have hself (z : ℕ) : (if G.rootOf z = G.rootOf b then G.rootOf b else G.rootOf z) =
        G.rootOf z := by
      split
      · next hz => exact hz.symm
      · rfl
    rw [hself, hself]
  have htext : l.text a = l.text b := h.text_eq ((h.root_iff a b).mp heq)
  refine ⟨h.forest, h.length_eq, fun x y => ?_, fun {a' b'} hmem => ?_, fun {g} hg o => ?_,
    fun hmem => h.added hmem, fun hmem => h.pinned hmem, fun {g} hg => ?_, fun {g} hg => ?_⟩
  · rw [hsame]
    exact h.root_iff x y
  · rcases List.mem_append.mp hmem with hmem | hmem
    · exact h.joined hmem
    · obtain ⟨rfl, rfl⟩ := Prod.mk.inj (List.mem_singleton.mp hmem)
      exact ⟨ha, hb, htext⟩
  · simp only [hsame]
    exact h.mem_iff hg o
  · have hset : (l.join [(a, b)]).pinsOf g = l.pinsOf g := by
      ext p
      simp only [Ledger.pinsOf, Set.mem_ofPred_eq, hsame]
      exact Iff.rfl
    rw [hset]
    exact h.pin hg
  · simp only [hsame]
    exact h.directory hg

/-- Two groups of one text are united. -/
theorem Holds.unite (h : G.Holds R l) (ha : a < G.groups.length) (hb : b < G.groups.length)
    (htext : l.text a = l.text b) : (G.unite a b).Holds R (l.join [(a, b)]) := by
  have hfind := (h.find a).find b
  have hroot (x : ℕ) : ((G.find a).1.find b).1.rootOf x = G.rootOf x := by
    rw [rootOf_find (h.find a).forest, rootOf_find h.forest]
  rw [unite_eq h]
  split
  · next heq =>
    apply hfind.join_same ha hb
    rwa [hroot, hroot]
  · next hne =>
    rw [← hroot a, ← hroot b] at hne ⊢
    exact hfind.merged ha hb hne htext

theorem Holds.length_unite (h : G.Holds R l) (a b : ℕ) :
    (G.unite a b).groups.length = G.groups.length := by
  rw [unite_eq h]
  split
  · rfl
  · rw [length_merged]
    rfl

/-! ## New groups -/

/-- The ids lead to the groups that have them. -/
structure Labelled (G : Groups) (l : Ledger) : Prop where
  ids_iff {id : Bytes} {g : ℕ} : G.ids id = some g ↔ g < G.groups.length ∧ l.label g = id

theorem length_withNew (G : Groups) (id : Bytes) (directory : Bool) :
    (G.withNew id directory).groups.length = G.groups.length + 1 := by
  simp [withNew]

/-- A new group moves no root. -/
theorem rootOf_withNew (h : G.Holds R l) (id : Bytes) (directory : Bool) (x : ℕ) :
    (G.withNew id directory).rootOf x = G.rootOf x := by
  have hroot := h.forest.rootOf_concat x
  rw [h.length_eq] at hroot
  exact hroot

/-- Nor does it change the others. -/
theorem groupOf_withNew (h : G.Holds R l) (id : Bytes) (directory : Bool)
    (hx : x < G.groups.length) : (G.withNew id directory).groupOf x = G.groupOf x := by
  rw [groupOf, rootOf_withNew h, withNew, List.getD_eq_getElem?_getD,
    List.getElem?_append_left (h.rootOf_lt hx), ← List.getD_eq_getElem?_getD]
  rfl

/-- It begins empty. -/
theorem groupOf_withNew_self (h : G.Holds R l) (id : Bytes) (directory : Bool) :
    (G.withNew id directory).groupOf G.groups.length = ⟨[], directory, [], false⟩ := by
  rw [groupOf, rootOf_withNew h, h.rootOf_of_le le_rfl, withNew]
  simp [List.getD_eq_getElem?_getD]

theorem label_withNew (l : Ledger) {n : ℕ} (id : Bytes) (hg : g < n) :
    (l.withNew n id).label g = l.label g :=
  Function.update_of_ne hg.ne _ _

theorem text_withNew (l : Ledger) {n : ℕ} (id : Bytes) (hg : g < n) :
    (l.withNew n id).text g = l.text g := by
  rw [Ledger.text, label_withNew l id hg]
  rfl

/-- Nothing that was done before is about a new group. -/
theorem Holds.not_same_length (h : G.Holds R l) (hg : g < G.groups.length) :
    ¬ l.Same g G.groups.length := fun hsame => (h.lt_of_same hsame hg).ne rfl

/-- A new group follows the ledger. -/
theorem Holds.withNew (h : G.Holds R l) (id : Bytes) :
    (G.withNew id (isDirectory id)).Holds R (l.withNew G.groups.length id) where
  forest := by
    have hforest := h.forest.concat
    rw [h.length_eq] at hforest
    exact hforest
  length_eq := by simp [Groups.withNew, h.length_eq]
  root_iff x y := by
    rw [rootOf_withNew h, rootOf_withNew h]
    exact h.root_iff x y
  joined {a b} hmem := by
    obtain ⟨ha, hb, htext⟩ := h.joined hmem
    rw [length_withNew, text_withNew l id ha, text_withNew l id hb]
    exact ⟨Nat.lt_succ_of_lt ha, Nat.lt_succ_of_lt hb, htext⟩
  mem_iff {x} hx o := by
    rw [length_withNew] at hx
    rcases Nat.lt_succ_iff_lt_or_eq.mp hx with hlt | rfl
    · rw [groupOf_withNew h id _ hlt]
      exact h.mem_iff hlt o
    · rw [groupOf_withNew_self h]
      constructor
      · intro ho
        exact absurd ho List.not_mem_nil
      · rintro ⟨g, hmem, hsame⟩
        -- nothing that was added is in the new group
        exact absurd hsame (h.not_same_length (h.added hmem).1)
  added {g o} hmem := by
    obtain ⟨hg, ho⟩ := h.added hmem
    rw [length_withNew, text_withNew l id hg]
    exact ⟨Nat.lt_succ_of_lt hg, ho⟩
  pinned {g p} hmem := by
    obtain ⟨hg, hp⟩ := h.pinned hmem
    rw [length_withNew, text_withNew l id hg]
    exact ⟨Nat.lt_succ_of_lt hg, hp⟩
  pin {x} hx := by
    rw [length_withNew] at hx
    rcases Nat.lt_succ_iff_lt_or_eq.mp hx with hlt | rfl
    · rw [groupOf_withNew h id _ hlt]
      exact h.pin hlt
    · rw [groupOf_withNew_self h]
      have hset : (l.withNew G.groups.length id).pinsOf G.groups.length = ∅ := by
        apply Set.eq_empty_of_forall_notMem
        rintro p ⟨g, hmem, hsame⟩
        exact h.not_same_length (h.pinned hmem).1 hsame
      rw [hset]
      exact ⟨fun _ => rfl, fun hne => absurd rfl hne, by simp⟩
  directory {x} hx := by
    rw [length_withNew] at hx ⊢
    rcases Nat.lt_succ_iff_lt_or_eq.mp hx with hlt | rfl
    · rw [groupOf_withNew h id _ hlt, h.directory hlt]
      constructor
      · rintro ⟨g, hg, hdir, hsame⟩
        exact ⟨g, Nat.lt_succ_of_lt hg, by rwa [label_withNew l id hg], hsame⟩
      · rintro ⟨g, -, hdir, hsame⟩
        have hg : g < G.groups.length := h.lt_of_same hsame.symm hlt
        exact ⟨g, hg, by rwa [label_withNew l id hg] at hdir, hsame⟩
    · rw [groupOf_withNew_self h]
      have hself : (l.withNew G.groups.length id).label G.groups.length = id :=
        Function.update_self ..
      constructor
      · intro hdir
        exact ⟨G.groups.length, Nat.lt_succ_self _, by rwa [hself], .refl _ _⟩
      · rintro ⟨g, hg, hdir, hsame⟩
        rcases Nat.lt_succ_iff_lt_or_eq.mp hg with hlt | rfl
        · exact absurd hsame (h.not_same_length hlt)
        · rwa [hself] at hdir

/-- Its id is found from then on. -/
theorem ids_withNew {id id' : Bytes} {directory : Bool} :
    (G.withNew id directory).ids id' = some g ↔
      (id' = id ∧ g = G.groups.length) ∨ (id' ≠ id ∧ G.ids id' = some g) := by
  have hids : (G.withNew id directory).ids id' =
    Function.update G.ids id (some G.groups.length) id' := rfl
  rw [hids]
  by_cases hid : id' = id
  · rw [hid, Function.update_self]
    simp [eq_comm]
  · rw [Function.update_of_ne hid]
    simp [hid]

/-- Every id is that of its group's label. -/
theorem Labelled.withNew (h : G.Labelled l) {id : Bytes} (hid : G.ids id = none) (directory : Bool) :
    (G.withNew id directory).Labelled (l.withNew G.groups.length id) where
  ids_iff {id' g} := by
    rw [ids_withNew, length_withNew]
    constructor
    · rintro (⟨rfl, rfl⟩ | ⟨-, hg⟩)
      · exact ⟨Nat.lt_succ_self _, Function.update_self ..⟩
      · obtain ⟨hlt, hlabel⟩ := h.ids_iff.mp hg
        exact ⟨Nat.lt_succ_of_lt hlt, (label_withNew l id hlt).trans hlabel⟩
    · rintro ⟨hg, hlabel⟩
      rcases Nat.lt_succ_iff_lt_or_eq.mp hg with hlt | rfl
      · rw [label_withNew l id hlt] at hlabel
        have hsome := h.ids_iff.mpr ⟨hlt, hlabel⟩
        refine .inr ⟨?_, hsome⟩
        rintro rfl
        rw [hid] at hsome
        cases hsome
      · have hself : (l.withNew G.groups.length id).label G.groups.length = id :=
          Function.update_self ..
        exact .inl ⟨hlabel.symm.trans hself, rfl⟩

/-- One id leads to one group. -/
theorem Labelled.eq_of_label (h : G.Labelled l) {x y : ℕ} (hx : x < G.groups.length)
    (hy : y < G.groups.length) (heq : l.label x = l.label y) : x = y :=
  Option.some.inj ((h.ids_iff.mpr ⟨hx, heq⟩).symm.trans (h.ids_iff.mpr ⟨hy, rfl⟩))

/-- Groups are added to what the ledger knows. -/
structure Extends (G G' : Groups) (l l' : Ledger) : Prop where
  length_le : G.groups.length ≤ G'.groups.length
  label_eq {g : ℕ} (hg : g < G.groups.length) : l'.label g = l.label g
  joins : l'.joins = l.joins
  adds : l'.adds = l.adds
  pins : l'.pins = l.pins

/-- The group of an id is there afterwards, and nothing else changes. -/
theorem Holds.group (h : G.Holds R l) (hlabelled : G.Labelled l) (id : Bytes) :
    ∃ l', (G.group id (isDirectory id)).1.Holds R l' ∧
      (G.group id (isDirectory id)).1.Labelled l' ∧
      G.Extends (G.group id (isDirectory id)).1 l l' ∧
      (G.group id (isDirectory id)).2 < (G.group id (isDirectory id)).1.groups.length ∧
      l'.label (G.group id (isDirectory id)).2 = id := by
  unfold Groups.group
  split
  · next g hg =>
    obtain ⟨hlt, hlabel⟩ := hlabelled.ids_iff.mp hg
    exact ⟨l, h, hlabelled, ⟨le_rfl, fun _ => rfl, rfl, rfl, rfl⟩, hlt, hlabel⟩
  · next hnone =>
    refine ⟨l.withNew G.groups.length id, h.withNew id, hlabelled.withNew hnone _,
      ⟨?_, fun hg => label_withNew l id hg, rfl, rfl, rfl⟩, ?_, Function.update_self ..⟩
    · rw [length_withNew]
      exact Nat.le_succ _
    · rw [length_withNew]
      exact Nat.lt_succ_self _

end Groups
end Pak
end Bg3le
