import Bg3le.Pak.GroupsTheorems

/-!
# The fixer after its construction

Every component of every name is an occurrence of the group of its id, the indexes lead to exactly
the names that have what they are looked up by, and a group is pinned by the names alone.
-/

namespace Bg3le
namespace Pak

/-! ## Occurrences as ranges of buffers -/

/-- Names and contents are the buffers that the fixer edits. -/
def buffer (names : List Bytes) (contents : List Content) : ℕ ⊕ ℕ → Bytes
  | .inl i => names.getD i []
  | .inr c => ((contents[c]?).map Content.bytes).getD []

/-- The buffer that an occurrence is a range of. -/
def Occurrence.file (o : Occurrence) : ℕ ⊕ ℕ :=
  match o.content with
  | none => .inl o.index
  | some c => .inr c

def Occurrence.slot (o : Occurrence) : Slots.Slot (ℕ ⊕ ℕ) := ⟨o.file, o.pos, o.len⟩

theorem spelling_eq (names : List Bytes) (contents : List Content) (o : Occurrence) :
    spelling names contents o = Slots.read (buffer names contents) o.slot := by
  unfold spelling Slots.read Occurrence.slot Occurrence.file
  cases o.content with
  | none => rfl
  | some c => rfl

/-- An occurrence spells a text: the same one up to case. -/
structure Spells (B : ℕ ⊕ ℕ → Bytes) (o : Occurrence) (text : Bytes) : Prop where
  fits : o.pos + o.len ≤ (B o.file).length
  lowered_eq : lowered (Slots.read B o.slot) = text
  noBackslash : 92 ∉ Slots.read B o.slot

theorem Spells.length_eq {B : ℕ ⊕ ℕ → Bytes} {o : Occurrence} {text : Bytes} (h : Spells B o text) :
    o.len = text.length := by
  rw [← h.lowered_eq, length_lowered]
  exact (Slots.length_read (s := o.slot) h.fits).symm

/-- The occurrence of a component in its name. -/
def Part.occurrence (p : Part) (i : ℕ) : Occurrence := ⟨none, i, p.begin, p.stop - p.begin⟩

theorem not_mem_slice {s : Bytes} {pos len : ℕ} {c : UInt8} (h : c ∉ s) : c ∉ slice s pos len :=
  fun hc => h (List.mem_of_mem_drop (List.mem_of_mem_take hc))

/-! ## The pins of a name -/

/-- The pins of a name that the engine looks for. -/
def fixedPins (name : Bytes) : List (Bytes × Bytes) :=
  ((components name).filter fun c => ¬ isDirectory c.1).map fun c =>
    (c.1, slice name c.2.1 (c.2.2 - c.2.1))

/-- The pin of a directory that the base game has. -/
def canonicalPin (name : Bytes) (c : Bytes × ℕ × ℕ) : Option (Bytes × Bytes) :=
  (canonical.lookup (lowered (slice name c.2.1 (c.2.2 - c.2.1)))).map fun spelling => (c.1, spelling)

/-- The pins of the directories from a texture's last "GUI" on. -/
def iconPins (name : Bytes) : List (Bytes × Bytes) :=
  let isGui := fun c : Bytes × ℕ × ℕ => iequals (slice name c.2.1 (c.2.2 - c.2.1)) (bytes "GUI")
  let from_ := ((List.range ((components name).length - 1)).filter fun k =>
    ((components name)[k]?).any isGui).getLast?.getD (components name).length
  (((components name).drop from_).takeWhile fun c => isDirectory c.1).filterMap (canonicalPin name)

/-- A GUI texture. -/
def isTexture (name : Bytes) : Bool :=
  (leafDot name).isSome && (find (bytes "/gui/") (lowered name)).isSome &&
    extension name = bytes "dds"

/-- A GUI texture that the engine names after an icon. -/
def isIcon (name : Bytes) : Bool := isTexture name && iconDirectory (lowered name)

/-- The stem of a name, in lower case. -/
def stemText (name : Bytes) : Bytes :=
  slice (lowered name) (stemRange name).1 ((stemRange name).2 - (stemRange name).1)

/-- What a name pins, by the ids of the groups. -/
def namePins (name : Bytes) : List (Bytes × Bytes) :=
  (if fixedName (lastComponent name) then fixedPins name else []) ++
    (if isTexture name then [(bytes "x:" ++ lowered name, bytes "DDS")] else []) ++
    (if isIcon name then iconPins name else [])

/-! ## What was built so far -/

/-- The pins of the groups with an id. -/
def Ledger.Pinned (l : Ledger) (id p : Bytes) : Prop := ∃ g, (g, p) ∈ l.pins ∧ l.label g = id

/-- Components by the ids of their groups. -/
def Ledger.ids (l : Ledger) (parts : List Part) : List (Bytes × ℕ × ℕ) :=
  parts.map fun p => (l.label p.group, p.begin, p.stop)

/-- The occurrences of the groups are the components of the names. -/
structure Built (B : ℕ ⊕ ℕ → Bytes) (f : Fixer) (l : Ledger) : Prop where
  holds : f.groups.Holds (Spells B) l
  labelled : f.groups.Labelled l
  name_eq (i : ℕ) : B (.inl i) = f.index.name i
  joins : l.joins = []
  mem_adds {g : ℕ} {o : Occurrence} : (g, o) ∈ l.adds ↔
    ∃ i, ∃ p ∈ f.index.parts i, g = p.group ∧ o = p.occurrence i

variable {B : ℕ ⊕ ℕ → Bytes} {f f' f'' : Fixer} {l l' l'' : Ledger} {i n : ℕ} {name : Bytes}

theorem Built.part_lt (h : Built B f l) {p : Part} (hp : p ∈ f.index.parts i) :
    p.group < f.groups.groups.length :=
  (h.holds.added (h.mem_adds.mpr ⟨i, p, hp, rfl, rfl⟩)).1

theorem Built.same_iff (h : Built B f l) {x y : ℕ} : l.Same x y ↔ x = y := by
  rw [Ledger.Same, h.joins]
  exact UnionFind.joined_nil

theorem Built.directory_iff (h : Built B f l) {g : ℕ} (hg : g < f.groups.groups.length) :
    (f.groups.groupOf g).directory = true ↔ isDirectory (l.label g) = true := by
  rw [h.holds.directory hg]
  constructor
  · rintro ⟨g', -, hdir, hsame⟩
    rwa [← h.same_iff.mp hsame]
  · intro hdir
    exact ⟨g, hg, hdir, .refl _ _⟩

/-- Nothing but the names and the components counts. -/
theorem Built.withIndex (h : Built B f l) {X : Index} (hnames : X.names = f.index.names)
    (hparts : X.parts = f.index.parts) : Built B { f with index := X } l where
  holds := h.holds
  labelled := h.labelled
  name_eq i := by rw [h.name_eq, Index.name, Index.name, hnames]
  joins := h.joins
  mem_adds := by rw [hparts]; exact h.mem_adds

theorem push_apply {κ α : Type*} [DecidableEq κ] (m : κ → List α) (key key' : κ) (a : α) :
    push m key a key' = m key' ++ if key' = key then [a] else [] := by
  unfold push
  by_cases hkey : key' = key
  · rw [hkey, Function.update_self, if_pos rfl]
  · rw [Function.update_of_ne hkey, if_neg hkey, List.append_nil]

theorem mem_push {κ α : Type*} [DecidableEq κ] {m : κ → List α} {key key' : κ} {a b : α} :
    b ∈ push m key a key' ↔ b ∈ m key' ∨ (key' = key ∧ b = a) := by
  rw [push_apply]
  by_cases hkey : key' = key
  · simp [hkey]
  · simp [hkey]

/-! ## Components -/

/-- The ledger knows more groups. -/
structure Keeps (f f' : Fixer) (l l' : Ledger) : Prop where
  length_le : f.groups.groups.length ≤ f'.groups.groups.length
  label_eq {g : ℕ} (hg : g < f.groups.groups.length) : l'.label g = l.label g

theorem Keeps.trans (h : Keeps f f' l l') (h' : Keeps f' f'' l' l'') : Keeps f f'' l l'' where
  length_le := h.length_le.trans h'.length_le
  label_eq hg := (h'.label_eq (hg.trans_le h.length_le)).trans (h.label_eq hg)

theorem Keeps.ids_eq (h : Keeps f f' l l') (parts : List Part)
    (hparts : ∀ p ∈ parts, p.group < f.groups.groups.length) : l'.ids parts = l.ids parts := by
  apply List.map_congr_left
  intro p hp
  rw [h.label_eq (hparts p hp)]

theorem spells_component (hB : B (.inl i) = name) (hname : 92 ∉ name) {id : Bytes} {r : ℕ × ℕ}
    (hr : (id, r) ∈ components name) : Spells B ⟨none, i, r.1, r.2 - r.1⟩ (textOf id) := by
  obtain ⟨hle, hle'⟩ := layout_le (mem_layout_of_mem hr)
  have hread : Slots.read B (Occurrence.slot ⟨none, i, r.1, r.2 - r.1⟩) =
      slice name r.1 (r.2 - r.1) := by
    rw [← hB]
    rfl
  refine ⟨?_, ?_, ?_⟩
  · show r.1 + (r.2 - r.1) ≤ (B (.inl i)).length
    rw [hB]
    omega
  · rw [hread, textOf_component hname hr, lowered_slice]
  · rw [hread]
    exact not_mem_slice hname

/-- What becomes of the pins and the components of an entry. -/
structure Grows (f f' : Fixer) (l l' : Ledger) (i : ℕ) (cs : List (Bytes × ℕ × ℕ)) : Prop where
  keeps : Keeps f f' l l'
  names : f'.index.names = f.index.names
  full : f'.index.full = f.index.full
  stems : f'.index.stems = f.index.stems
  icons : f'.index.icons = f.index.icons
  ids_self : l'.ids (f'.index.parts i) = l.ids (f.index.parts i) ++ cs
  parts_of_ne {j : ℕ} (hj : j ≠ i) : f'.index.parts j = f.index.parts j
  pinned (id p : Bytes) : l'.Pinned id p ↔ l.Pinned id p

theorem Grows.trans {cs cs' : List (Bytes × ℕ × ℕ)} (h : Grows f f' l l' i cs)
    (h' : Grows f' f'' l' l'' i cs') : Grows f f'' l l'' i (cs ++ cs') where
  keeps := h.keeps.trans h'.keeps
  names := h'.names.trans h.names
  full := h'.full.trans h.full
  stems := h'.stems.trans h.stems
  icons := h'.icons.trans h.icons
  ids_self := by rw [h'.ids_self, h.ids_self, List.append_assoc]
  parts_of_ne hj := (h'.parts_of_ne hj).trans (h.parts_of_ne hj)
  pinned id p := (h'.pinned id p).trans (h.pinned id p)

/-- A component is added to the group of its id. -/
theorem Built.addPart (h : Built B f l) (i : ℕ) {id : Bytes} {begin stop : ℕ}
    (hspells : Spells B ⟨none, i, begin, stop - begin⟩ (textOf id)) :
    ∃ l', Built B (f.addPart i id (isDirectory id) begin stop).1 l' ∧
      Grows f (f.addPart i id (isDirectory id) begin stop).1 l l' i [(id, begin, stop)] ∧
      (f.addPart i id (isDirectory id) begin stop).2 <
        (f.addPart i id (isDirectory id) begin stop).1.groups.groups.length ∧
      l'.label (f.addPart i id (isDirectory id) begin stop).2 = id := by
  obtain ⟨l', hholds, hlabelled, hextends, hlt, hlabel⟩ := h.holds.group h.labelled id
  -- the group of the identifier gets the occurrence, which spells its label
  have hadd := hholds.add hlt (o := ⟨none, i, begin, stop - begin⟩) (by
    rw [Ledger.text, hlabel]
    exact hspells)
  have hlength : (f.addPart i id (isDirectory id) begin stop).1.groups.groups.length =
    (f.groups.group id (isDirectory id)).1.groups.length := Groups.length_add ..
  have hkeeps : Keeps f (f.addPart i id (isDirectory id) begin stop).1 l
      (l'.add [((f.groups.group id (isDirectory id)).2, ⟨none, i, begin, stop - begin⟩)]) :=
    ⟨hextends.length_le.trans_eq hlength.symm, fun hg => hextends.label_eq hg⟩
  have hself : (f.addPart i id (isDirectory id) begin stop).1.index.parts i =
      f.index.parts i ++ [⟨begin, stop, (f.groups.group id (isDirectory id)).2⟩] :=
    Function.update_self ..
  refine ⟨_, ⟨hadd, ⟨fun {id' g} => ?_⟩, h.name_eq, hextends.joins.trans h.joins, fun {g o} => ?_⟩,
    ⟨hkeeps, rfl, rfl, rfl, rfl, ?_, fun hj => Function.update_of_ne hj _ _, fun id' p => ?_⟩,
    hlt.trans_eq hlength.symm, hlabel⟩
  · rw [hlength]
    exact hlabelled.ids_iff
  · rw [Ledger.add, List.mem_append, hextends.adds, h.mem_adds, List.mem_singleton]
    constructor
    · rintro (⟨j, p, hp, rfl, rfl⟩ | heq)
      · exact ⟨j, p, mem_push.mpr (.inl hp), rfl, rfl⟩
      · obtain ⟨rfl, rfl⟩ := Prod.mk.inj heq
        exact ⟨i, _, mem_push.mpr (.inr ⟨rfl, rfl⟩), rfl, rfl⟩
    · rintro ⟨j, p, hp, rfl, rfl⟩
      rcases mem_push.mp hp with hp | ⟨rfl, rfl⟩
      · exact .inl ⟨j, p, hp, rfl, rfl⟩
      · exact .inr rfl
  -- the parts of the entry: those before keep their identifiers, and the new one has its own
  · rw [hself, Ledger.ids, List.map_append]
    have hold := hkeeps.ids_eq (f.index.parts i) fun p hp => h.part_lt hp
    rw [Ledger.ids] at hold
    rw [hold]
    congr 1
    rw [List.map_singleton]
    exact congrArg (fun id => [(id, begin, stop)]) hlabel
  · constructor
    · rintro ⟨g, hmem, hg⟩
      have hmem : (g, p) ∈ l.pins := hextends.pins ▸ hmem
      exact ⟨g, hmem, (hkeeps.label_eq (h.holds.pinned hmem).1).symm.trans hg⟩
    · rintro ⟨g, hmem, hg⟩
      exact ⟨g, hextends.pins ▸ hmem, (hkeeps.label_eq (h.holds.pinned hmem).1).trans hg⟩

/-- The suffixes after the slashes `rest` of an entry. -/
def suffixIndex (i : ℕ) (low key : Bytes) (rest : List ℕ) : List ℕ :=
  (rest.filter fun slash => key = low.drop (slash + 1)).map fun _ => i

/-- The loop over the directories of a name. -/
theorem Built.addDirectories (h : Built B f l) (hB : B (.inl i) = name) (hname : 92 ∉ name)
    {begin : ℕ} {rest : List ℕ} (hrest : Remaining name begin rest) (hmem : ∀ r ∈
      directoryRanges begin rest, (bytes "d:" ++ (lowered name).take r.2, r) ∈ components name) :
    ∃ f' l', rest.foldl (Fixer.addDirectory i (lowered name)) (f, begin) =
        (f', lastBegin begin rest) ∧ Built B f' l' ∧
      Grows f f' l l' i ((directoryRanges begin rest).map fun r =>
        (bytes "d:" ++ (lowered name).take r.2, r)) ∧
      ∀ key, f'.index.suffixes key =
        f.index.suffixes key ++ suffixIndex i (lowered name) key rest := by
  induction rest generalizing f begin l with
  | nil =>
    exact ⟨f, l, rfl, h, ⟨⟨le_rfl, fun _ => rfl⟩, rfl, rfl, rfl, rfl, (List.append_nil _).symm,
      fun _ => rfl, fun _ _ => Iff.rfl⟩, fun _ => (List.append_nil _).symm⟩
  | cons slash rest ih =>
    rw [directoryRanges] at hmem ⊢
    obtain ⟨l₁, hpart, hgrows, -, -⟩ := h.addPart i
      (spells_component hB hname (hmem _ List.mem_cons_self))
    have hstep := hpart.withIndex
      (X := (Fixer.addDirectory i (lowered name) (f, begin) slash).1.index) rfl rfl
    obtain ⟨f', l', heq, hbuilt, hgrows', hsuffixes⟩ := ih hstep hrest.tail fun r hr =>
      hmem r (List.mem_cons_of_mem _ hr)
    have hgrows₁ : Grows f (Fixer.addDirectory i (lowered name) (f, begin) slash).1 l l₁ i
        [(bytes "d:" ++ (lowered name).take slash, begin, slash)] :=
      ⟨⟨hgrows.keeps.length_le, hgrows.keeps.label_eq⟩, hgrows.names, hgrows.full, hgrows.stems, hgrows.icons, hgrows.ids_self,
        hgrows.parts_of_ne, hgrows.pinned⟩
    refine ⟨f', l', heq, hbuilt, hgrows₁.trans hgrows', fun key => ?_⟩
    have hpush : (Fixer.addDirectory i (lowered name) (f, begin) slash).1.index.suffixes key =
        f.index.suffixes key ++ if key = (lowered name).drop (slash + 1) then [i] else [] :=
      push_apply ..
    rw [hsuffixes key, hpush, List.append_assoc]
    congr 1
    unfold suffixIndex
    by_cases hkey : key = (lowered name).drop (slash + 1)
    · rw [if_pos hkey, List.filter_cons_of_pos (by simpa using hkey)]
      rfl
    · rw [if_neg hkey, List.filter_cons_of_neg (by simpa using hkey)]
      rfl

end Pak
end Bg3le
