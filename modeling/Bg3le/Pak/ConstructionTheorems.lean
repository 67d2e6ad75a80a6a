import Bg3le.Pak.PinsTheorems

/-!
# The constructor of the fixer

Each round of the constructor adds the components, the index entries and the pins of one name.
-/

namespace Bg3le
namespace Pak

variable {B : ℕ ⊕ ℕ → Bytes} {f f' f'' : Fixer} {l l' l'' : Ledger} {i n : ℕ} {name : Bytes}

/-! ## The components of an entry -/

/-- The stem of an entry is added, as `add_entry` does after the directories. -/
def Fixer.addStem (f : Fixer) (i : ℕ) (name : Bytes) : Fixer :=
  let s := f.addPart i (stemId name) false (stemRange name).1 (stemRange name).2
  { s.1 with index := { s.1.index with stems := Function.update s.1.index.stems i s.2 } }

theorem Fixer.addEntry_eq {f₂ : Fixer} (hname : f.index.name i = name)
    (hdirs : (slashes name).foldl (Fixer.addDirectory i (lowered name))
      ({ f with index := { f.index with full := push f.index.full (lowered name) i } }, 0) =
        (f₂, leafBegin name)) :
    f.addEntry i =
      let f₃ := f₂.addStem i name
      let stem : Part := ⟨(stemRange name).1, (stemRange name).2, f₃.index.stems i⟩
      match leafDot name with
      | none => f₃.pinFixed name [stem]
      | some dot =>
        let e := f₃.addPart i (bytes "x:" ++ lowered name) false (dot + 1) name.length
        let ext : Part := ⟨dot + 1, name.length, e.2⟩
        let f₅ := e.1.pinFixed name [stem, ext]
        if (Pak.find (bytes "/gui/") (lowered name)).isSome ∧ extension name = bytes "dds" then
          f₅.pinTexture i (lowered name) stem ext
        else f₅ := by
  subst hname
  unfold Fixer.addEntry
  simp only [hdirs]
  have hdot : (rfind 46 (f.index.name i)).filter (leafBegin (f.index.name i) < ·) =
    leafDot (f.index.name i) := rfl
  rw [hdot]
  unfold Fixer.addStem stemId stemRange
  simp only
  cases leafDot (f.index.name i) with
  | none => simp
  | some dot => simp

/-- An entry with its components, before its pins. -/
structure Begun (f f' : Fixer) (l l' : Ledger) (i : ℕ) (name : Bytes)
    (cs : List (Bytes × ℕ × ℕ)) : Prop where
  keeps : Keeps f f' l l'
  names : f'.index.names = f.index.names
  full : f'.index.full = push f.index.full (lowered name) i
  suffixes (key : Bytes) : f'.index.suffixes key =
    f.index.suffixes key ++ suffixIndex i (lowered name) key (slashes name)
  icons : f'.index.icons = f.index.icons
  ids_self : l'.ids (f'.index.parts i) = cs
  stem_lt : f'.index.stems i < f'.groups.groups.length
  stem_label : l'.label (f'.index.stems i) = stemId name
  parts_of_ne {j : ℕ} (hj : j ≠ i) : f'.index.parts j = f.index.parts j
  stems_of_ne {j : ℕ} (hj : j ≠ i) : f'.index.stems j = f.index.stems j
  pinned (id p : Bytes) : l'.Pinned id p ↔ l.Pinned id p

theorem Built.begin (h : Built B f l) (hB : B (.inl i) = name) (hname : 92 ∉ name)
    (hnew : f.index.parts i = []) :
    ∃ f₂ l', (slashes name).foldl (Fixer.addDirectory i (lowered name))
      ({ f with index := { f.index with full := push f.index.full (lowered name) i } }, 0) =
        (f₂, leafBegin name) ∧ Built B (f₂.addStem i name) l' ∧
      Begun f (f₂.addStem i name) l l' i name ((directoryRanges 0 (slashes name)).map (fun r =>
        (bytes "d:" ++ (lowered name).take r.2, r)) ++ [(stemId name, stemRange name)]) := by
  have hfull := h.withIndex (X := { f.index with full := push f.index.full (lowered name) i }) rfl rfl
  obtain ⟨f₂, l₂, hdirs, hbuilt, hgrows, hsuffixes⟩ := hfull.addDirectories hB hname
    (remaining_slashes name) fun r hr => List.mem_append_left _ (List.mem_map_of_mem hr)
  have hstem : (stemId name, stemRange name) ∈ components name :=
    List.mem_append_right _ List.mem_cons_self
  obtain ⟨l₃, hpart, hgrows', hlt, hlabel⟩ := hbuilt.addPart i (spells_component hB hname hstem)
  have hall := hgrows.trans hgrows'
  have hself : (f₂.addStem i name).index.stems i =
      (f₂.addPart i (stemId name) false (stemRange name).1 (stemRange name).2).2 :=
    Function.update_self ..
  refine ⟨f₂, l₃, hdirs, hpart.withIndex (X := (f₂.addStem i name).index) rfl rfl,
    ⟨hall.keeps.length_le, hall.keeps.label_eq⟩, hall.names, hall.full, hsuffixes, hall.icons, ?_, ?_,
    ?_, hall.parts_of_ne, fun {j} hj => ?_, hall.pinned⟩
  · refine hall.ids_self.trans ?_
    have hnil : l.ids (f.index.parts i) = [] := by rw [hnew]; rfl
    exact (congrArg (· ++ _) hnil).trans (List.nil_append _)
  · rw [hself]
    exact hlt
  · rw [hself]
    exact hlabel
  · exact (Function.update_of_ne hj _ _).trans (congrFun hgrows.stems j)

theorem Begun.addPart {cs : List (Bytes × ℕ × ℕ)} (h : Begun f f' l l' i name cs)
    (hbuilt : Built B f' l') {id : Bytes} {begin stop : ℕ}
    (hspells : Spells B ⟨none, i, begin, stop - begin⟩ (textOf id)) :
    ∃ l'', Built B (f'.addPart i id (isDirectory id) begin stop).1 l'' ∧
      Begun f (f'.addPart i id (isDirectory id) begin stop).1 l l'' i name
        (cs ++ [(id, begin, stop)]) ∧
      (f'.addPart i id (isDirectory id) begin stop).2 <
        (f'.addPart i id (isDirectory id) begin stop).1.groups.groups.length ∧
      l''.label (f'.addPart i id (isDirectory id) begin stop).2 = id := by
  obtain ⟨l'', hpart, hgrows, hlt, hlabel⟩ := hbuilt.addPart i hspells
  refine ⟨l'', hpart, ⟨h.keeps.trans hgrows.keeps, hgrows.names.trans h.names,
    hgrows.full.trans h.full, h.suffixes, hgrows.icons.trans h.icons, ?_,
    h.stem_lt.trans_le hgrows.keeps.length_le, (hgrows.keeps.label_eq h.stem_lt).trans h.stem_label,
    fun hj => (hgrows.parts_of_ne hj).trans (h.parts_of_ne hj), h.stems_of_ne,
    fun id' p => (hgrows.pinned id' p).trans (h.pinned id' p)⟩, hlt, hlabel⟩
  rw [hgrows.ids_self, h.ids_self]

/-! ## One entry -/

/-- An entry is in the indexes, with its components and its pins, and no other entry changes. -/
structure Enters (f f' : Fixer) (l l' : Ledger) (i : ℕ) (name : Bytes) : Prop where
  keeps : Keeps f f' l l'
  names : f'.index.names = f.index.names
  full : f'.index.full = push f.index.full (lowered name) i
  suffixes (key : Bytes) : f'.index.suffixes key =
    f.index.suffixes key ++ suffixIndex i (lowered name) key (slashes name)
  icons (key : Bytes) : f'.index.icons key =
    f.index.icons key ++ if isIcon name = true ∧ key = stemText name then [i] else []
  ids_self : l'.ids (f'.index.parts i) = components name
  stem_lt : f'.index.stems i < f'.groups.groups.length
  stem_label : l'.label (f'.index.stems i) = stemId name
  parts_of_ne {j : ℕ} (hj : j ≠ i) : f'.index.parts j = f.index.parts j
  stems_of_ne {j : ℕ} (hj : j ≠ i) : f'.index.stems j = f.index.stems j
  pinned (id p : Bytes) : l'.Pinned id p ↔ l.Pinned id p ∨ (id, p) ∈ namePins name

/-- An entry that is no texture, once its pins are there. -/
theorem Begun.enters {pins : List (ℕ × Bytes)} {G : Groups}
    (h : Begun f f' l l' i name (components name)) (hlength : G.groups.length = f'.groups.groups.length)
    (hpins : l'.pinIds pins = namePins name) (hicon : isIcon name = false) :
    Enters f { f' with groups := G } l (l'.pin pins) i name := by
  refine ⟨⟨h.keeps.length_le.trans_eq hlength.symm, h.keeps.label_eq⟩, h.names, h.full, h.suffixes,
    fun key => ?_, h.ids_self, h.stem_lt.trans_eq hlength.symm, h.stem_label, h.parts_of_ne,
    h.stems_of_ne, fun id p => ?_⟩
  · rw [hicon]
    simp [h.icons]
  · rw [Ledger.pinned_pin, h.pinned, hpins]

theorem Built.finishPlain (hbuilt : Built B f' l') (h : Begun f f' l l' i name (components name))
    (hname : 92 ∉ name) {parts : List Part} (hparts : ∀ p ∈ parts, p.group < f'.groups.groups.length)
    (hids : l'.ids parts = (components name).filter fun c => ¬ isDirectory c.1)
    (htexture : isTexture name = false) :
    ∃ l'', Built B (f'.pinFixed name parts) l'' ∧ Enters f (f'.pinFixed name parts) l l'' i name := by
  obtain ⟨pins, hfixed, hpins, hlength⟩ := hbuilt.pinFixed hname hparts hids
  have hicon : isIcon name = false := by rw [isIcon, htexture]; rfl
  have hpins' : l'.pinIds pins = namePins name := by
    rw [hpins, namePins, htexture, hicon]
    simp
  have henters := h.enters hlength hpins' hicon
  have hindex := f'.index_pinFixed name parts
  refine ⟨_, hfixed, ?_⟩
  rw [← hindex] at henters
  exact henters

theorem Built.finishTexture (hbuilt : Built B f' l') (h : Begun f f' l l' i name (components name))
    (hname : 92 ∉ name) (hindexName : f'.index.name i = name) {dot : ℕ} {ext : Part}
    (hdot : leafDot name = some dot) (hext : ext.group < f'.groups.groups.length)
    (hlabel : l'.label ext.group = bytes "x:" ++ lowered name) (htexture : isTexture name = true)
    (hids : l'.ids [⟨(stemRange name).1, (stemRange name).2, f'.index.stems i⟩, ext] =
      (components name).filter fun c => ¬ isDirectory c.1) :
    ∃ l'', Built B ((f'.pinFixed name [⟨(stemRange name).1, (stemRange name).2, f'.index.stems i⟩,
        ext]).pinTexture i (lowered name)
        ⟨(stemRange name).1, (stemRange name).2, f'.index.stems i⟩ ext) l'' ∧
      Enters f ((f'.pinFixed name [⟨(stemRange name).1, (stemRange name).2, f'.index.stems i⟩,
        ext]).pinTexture i (lowered name)
        ⟨(stemRange name).1, (stemRange name).2, f'.index.stems i⟩ ext) l l'' i name := by
  have hparts (p : Part) (hp : p ∈ [⟨(stemRange name).1, (stemRange name).2, f'.index.stems i⟩, ext]) :
      p.group < f'.groups.groups.length := by
    rcases List.mem_cons.mp hp with rfl | hp
    · exact h.stem_lt
    · rw [List.mem_singleton.mp hp]
      exact hext
  obtain ⟨pins, hfixed, hpins, hlength⟩ := hbuilt.pinFixed hname hparts hids
  have hindex := f'.index_pinFixed name
    [⟨(stemRange name).1, (stemRange name).2, f'.index.stems i⟩, ext]
  have hdds : extension name = bytes "dds" := by
    unfold isTexture at htexture
    simp only [Bool.and_eq_true, decide_eq_true_eq] at htexture
    exact htexture.2
  subst hindexName
  have hname' := congrArg (fun X => Index.name X i) hindex
  have hself := h.ids_self
  have hpinned := hfixed.pinTexture (i := i)
    ⟨(stemRange (f'.index.name i)).1, (stemRange (f'.index.name i)).2, f'.index.stems i⟩ ext
    (by rw [hname']; exact hname) (by rw [hname', hindex]; exact hself)
    (hext.trans_eq hlength.symm) (by rw [hname']; exact hlabel) (by rw [hname']; exact hdot)
    (by rw [hname']; exact hdds)
  rw [hname'] at hpinned
  obtain ⟨pins', htext, hpins', hlength'⟩ := hpinned
  -- the pins of the fixed name and of the texture are one list
  rw [Ledger.pin_pin] at htext
  have hindex' := (f'.pinFixed (f'.index.name i) [⟨(stemRange (f'.index.name i)).1,
    (stemRange (f'.index.name i)).2, f'.index.stems i⟩, ext]).index_pinTexture i
    (lowered (f'.index.name i)) ⟨(stemRange (f'.index.name i)).1,
      (stemRange (f'.index.name i)).2, f'.index.stems i⟩ ext
  rw [hindex] at hindex'
  have hlengths := hlength'.trans hlength
  have hicon : isIcon (f'.index.name i) = iconDirectory (lowered (f'.index.name i)) := by
    rw [isIcon, htexture]
    rfl
  have hall : l'.pinIds (pins ++ pins') = namePins (f'.index.name i) := by
    have happend : l'.pinIds (pins ++ pins') = l'.pinIds pins ++ l'.pinIds pins' :=
      List.map_append
    rw [happend, hpins, namePins, htexture, hicon, if_pos rfl, List.append_assoc]
    exact congrArg _ hpins'
  -- only the icons are entered, and only where the directory holds icons
  have hrest : ∀ X : Index, X = (if iconDirectory (lowered (f'.index.name i)) then { f'.index with
      icons := push f'.index.icons (stemText (f'.index.name i)) i } else f'.index) →
      X.names = f'.index.names ∧ X.full = f'.index.full ∧ X.suffixes = f'.index.suffixes ∧
        X.parts = f'.index.parts ∧ X.stems = f'.index.stems ∧ ∀ key, X.icons key =
          f'.index.icons key ++ if isIcon (f'.index.name i) = true ∧
            key = stemText (f'.index.name i) then [i] else [] := by
    intro X hX
    rw [hicon]
    split at hX
    · next hdir =>
      subst hX
      refine ⟨rfl, rfl, rfl, rfl, rfl, fun key => ?_⟩
      simp only [hdir, true_and]
      exact push_apply ..
    · next hdir =>
      subst hX
      refine ⟨rfl, rfl, rfl, rfl, rfl, fun key => ?_⟩
      simp [hdir]
  obtain ⟨hnames, hfull, hsuffixes, hpartsEq, hstems, hicons⟩ := hrest _ hindex'
  refine ⟨_, htext, ⟨h.keeps.length_le.trans_eq hlengths.symm, h.keeps.label_eq⟩,
    hnames.trans h.names, hfull.trans h.full, fun key => ?_, fun key => ?_, ?_, ?_, ?_,
    fun hj => ?_, fun hj => ?_, fun id p => ?_⟩
  · rw [hsuffixes]
    exact h.suffixes key
  · rw [hicons, h.icons]
  · rw [hpartsEq]
    exact h.ids_self
  · rw [hstems]
    exact h.stem_lt.trans_eq hlengths.symm
  · rw [hstems]
    exact h.stem_label
  · rw [hpartsEq]
    exact h.parts_of_ne hj
  · rw [hstems]
    exact h.stems_of_ne hj
  · rw [Ledger.pinned_pin, h.pinned, hall]

/-- `add_entry` adds one name. -/
theorem Built.addEntry (h : Built B f l) (hname : 92 ∉ f.index.name i)
    (hnew : f.index.parts i = []) :
    ∃ l', Built B (f.addEntry i) l' ∧ Enters f (f.addEntry i) l l' i (f.index.name i) := by
  have hB := h.name_eq i
  obtain ⟨f₂, l₃, hdirs, hstem, hbegun⟩ := h.begin hB hname hnew
  rw [Fixer.addEntry_eq rfl hdirs]
  have hnames : (f₂.addStem i (f.index.name i)).index.name i = f.index.name i :=
    congrArg (fun names => names.getD i []) hbegun.names
  have hfilter := filter_components (f.index.name i)
  have hcomponents : components (f.index.name i) =
      (directoryRanges 0 (slashes (f.index.name i))).map (fun r =>
        (bytes "d:" ++ (lowered (f.index.name i)).take r.2, r)) ++
      (stemId (f.index.name i), stemRange (f.index.name i)) ::
        (leafDot (f.index.name i)).toList.map fun dot =>
          (bytes "x:" ++ lowered (f.index.name i), dot + 1, (f.index.name i).length) := rfl
  simp only
  split
  -- no extension: the name is its directories and its stem
  · next hdot =>
    rw [hdot] at hfilter hcomponents
    apply hstem.finishPlain (hcomponents ▸ hbegun) hname
    · intro p hp
      rw [List.mem_singleton.mp hp]
      exact hbegun.stem_lt
    · rw [hfilter, Ledger.ids, List.map_singleton]
      simp only [hbegun.stem_label]
      rfl
    · rw [isTexture, hdot]
      rfl
  · next dot hdot =>
    rw [hdot] at hfilter hcomponents
    have hmem : (bytes "x:" ++ lowered (f.index.name i), dot + 1, (f.index.name i).length) ∈
        components (f.index.name i) := by
      rw [hcomponents]
      simp
    -- the extension is one more part, in a group of this name alone
    obtain ⟨l₄, hext, hbegun', hlt, hlabel⟩ := hbegun.addPart hstem
      (spells_component (r := (dot + 1, (f.index.name i).length)) hB hname hmem)
    rw [List.append_assoc] at hbegun'
    have hids : l₄.ids [⟨(stemRange (f.index.name i)).1, (stemRange (f.index.name i)).2,
        (f₂.addStem i (f.index.name i)).index.stems i⟩, ⟨dot + 1, (f.index.name i).length,
          ((f₂.addStem i (f.index.name i)).addPart i (bytes "x:" ++ lowered (f.index.name i)) false
            (dot + 1) (f.index.name i).length).2⟩] =
        (components (f.index.name i)).filter fun c => ¬ isDirectory c.1 := by
      rw [hfilter, Ledger.ids, List.map_cons, List.map_singleton]
      have hlabel' := hbegun'.stem_label
      simp only at hlabel hlabel'
      exact congrArg₂ (fun a b => [(a, _, _), (b, _, _)]) hlabel' hlabel
    split
    · next htexture =>
      refine hext.finishTexture (hcomponents ▸ hbegun') hname ?_ hdot hlt hlabel ?_ hids
      · exact hnames
      · rw [isTexture, hdot, htexture.2]
        simp [htexture.1]
    · next htexture =>
      apply hext.finishPlain (hcomponents ▸ hbegun') hname _ hids
      · rw [isTexture, hdot, ← Bool.not_eq_true]
        simp only [Option.isSome_some, Bool.true_and, Bool.and_eq_true, decide_eq_true_eq]
        exact htexture
      · intro p hp
        rcases List.mem_cons.mp hp with rfl | hp
        · exact hbegun'.stem_lt
        · rw [List.mem_singleton.mp hp]
          exact hlt

/-! ## All entries -/

/-- Suffixes have different lengths. -/
theorem suffixIndex_eq {low key : Bytes} {rest : List ℕ} (hpairwise : rest.Pairwise (· < ·))
    (hlt : ∀ slash ∈ rest, slash < low.length) : suffixIndex i low key rest =
      if ∃ slash ∈ rest, key = low.drop (slash + 1) then [i] else [] := by
  induction rest with
  | nil => simp [suffixIndex]
  | cons slash rest ih =>
    have hih := ih hpairwise.of_cons fun s hs => hlt s (List.mem_cons_of_mem _ hs)
    unfold suffixIndex at hih ⊢
    by_cases hkey : key = low.drop (slash + 1)
    · have hother : ¬ ∃ s ∈ rest, key = low.drop (s + 1) := by
        rintro ⟨s, hs, heq⟩
        have hlength := congrArg List.length (hkey.symm.trans heq)
        rw [List.length_drop, List.length_drop] at hlength
        have := List.rel_of_pairwise_cons hpairwise hs
        have := hlt s (List.mem_cons_of_mem _ hs)
        omega
      rw [if_neg hother] at hih
      rw [List.filter_cons_of_pos (by simpa using hkey), List.map_cons, hih,
        if_pos ⟨slash, List.mem_cons_self, hkey⟩]
    · rw [List.filter_cons_of_neg (by simpa using hkey), hih]
      simp [hkey]

/-- What the constructor leaves of the first `n` entries. -/
structure Complete (B : ℕ ⊕ ℕ → Bytes) (f : Fixer) (l : Ledger) (n : ℕ) : Prop where
  built : Built B f l
  full (key : Bytes) : f.index.full key =
    (List.range n).filter fun i => lowered (f.index.name i) = key
  suffixes (key : Bytes) : f.index.suffixes key = (List.range n).filter fun i =>
    ∃ slash ∈ slashes (f.index.name i), key = (lowered (f.index.name i)).drop (slash + 1)
  icons (key : Bytes) : f.index.icons key = (List.range n).filter fun i =>
    isIcon (f.index.name i) = true ∧ key = stemText (f.index.name i)
  ids_eq {i : ℕ} (hi : i < n) : l.ids (f.index.parts i) = components (f.index.name i)
  stem {i : ℕ} (hi : i < n) :
    f.index.stems i < f.groups.groups.length ∧ l.label (f.index.stems i) = stemId (f.index.name i)
  parts_of_le {i : ℕ} (hi : n ≤ i) : f.index.parts i = []
  pinned (id p : Bytes) : l.Pinned id p ↔ ∃ i < n, (id, p) ∈ namePins (f.index.name i)

theorem filter_range_succ (n : ℕ) (p : ℕ → Bool) :
    (List.range (n + 1)).filter p = (List.range n).filter p ++ if p n then [n] else [] := by
  rw [List.range_succ, List.filter_append]
  congr 1
  split
  · next h => exact List.filter_cons_of_pos h
  · next h => exact List.filter_cons_of_neg h

theorem Complete.addEntry (h : Complete B f l n) (hname : 92 ∉ f.index.name n) :
    ∃ l', Complete B (f.addEntry n) l' (n + 1) ∧ (f.addEntry n).index.names = f.index.names := by
  obtain ⟨l', hbuilt, henters⟩ := h.built.addEntry hname (h.parts_of_le le_rfl)
  have hindexName (i : ℕ) : (f.addEntry n).index.name i = f.index.name i :=
    congrArg (fun names => names.getD i []) henters.names
  -- each map gains the new entry, and the entries before it keep their own
  refine ⟨l', ⟨hbuilt, fun key => ?_, fun key => ?_, fun key => ?_, fun {i} hi => ?_, fun {i} hi => ?_,
    fun {i} hi => ?_, fun id p => ?_⟩, henters.names⟩
  · simp only [hindexName]
    rw [henters.full, push_apply, h.full, filter_range_succ]
    congr 1
    apply if_congr _ rfl rfl
    rw [decide_eq_true_eq, eq_comm]
  · simp only [hindexName]
    rw [henters.suffixes, h.suffixes, filter_range_succ, suffixIndex_eq (pairwise_slashes _)]
    · simp only [decide_eq_true_eq]
    · intro slash hslash
      rw [length_lowered]
      exact (List.getElem?_eq_some_iff.mp (mem_slashes.mp hslash)).1
  · simp only [hindexName]
    rw [henters.icons, h.icons, filter_range_succ]
    simp only [decide_eq_true_eq]
  · rw [hindexName]
    rcases Nat.lt_succ_iff_lt_or_eq.mp hi with hlt | rfl
    · rw [henters.parts_of_ne hlt.ne, henters.keeps.ids_eq _ fun p hp => h.built.part_lt hp]
      exact h.ids_eq hlt
    · exact henters.ids_self
  · rw [hindexName]
    rcases Nat.lt_succ_iff_lt_or_eq.mp hi with hlt | rfl
    · obtain ⟨hstem, hlabel⟩ := h.stem hlt
      rw [henters.stems_of_ne hlt.ne]
      exact ⟨hstem.trans_le henters.keeps.length_le, (henters.keeps.label_eq hstem).trans hlabel⟩
    · exact ⟨henters.stem_lt, henters.stem_label⟩
  · rw [henters.parts_of_ne (Nat.ne_of_gt hi)]
    exact h.parts_of_le (Nat.le_of_succ_le hi)
  · simp only [hindexName]
    rw [henters.pinned, h.pinned]
    constructor
    · rintro (⟨i, hi, hmem⟩ | hmem)
      · exact ⟨i, Nat.lt_succ_of_lt hi, hmem⟩
      · exact ⟨n, Nat.lt_succ_self n, hmem⟩
    · rintro ⟨i, hi, hmem⟩
      rcases Nat.lt_succ_iff_lt_or_eq.mp hi with hlt | rfl
      · exact .inl ⟨i, hlt, hmem⟩
      · exact .inr hmem

/-- A fixer without entries. -/
theorem complete_nil {names : List Bytes} (hB : ∀ i, B (.inl i) = names.getD i []) :
    Complete B ⟨⟨names, fun _ => [], fun _ => 0, fun _ => [], fun _ => [], fun _ => []⟩,
      ⟨[], [], fun _ => none⟩⟩ ⟨fun _ => [], [], [], []⟩ 0 where
  built := {
    holds := {
      forest := .nil
      length_eq := rfl
      root_iff x y := by
        have hroot (z : ℕ) : Groups.rootOf ⟨[], [], fun _ => none⟩ z = z :=
          UnionFind.Forest.nil.rootOf_of_up (UnionFind.up_of_length_le (Nat.zero_le z))
        rw [hroot, hroot]
        exact UnionFind.joined_nil.symm
      joined hmem := absurd hmem List.not_mem_nil
      mem_iff hg := absurd hg (Nat.not_lt_zero _)
      added hmem := absurd hmem List.not_mem_nil
      pinned hmem := absurd hmem List.not_mem_nil
      pin hg := absurd hg (Nat.not_lt_zero _)
      directory hg := absurd hg (Nat.not_lt_zero _) }
    labelled := ⟨by simp⟩
    name_eq := hB
    joins := rfl
    mem_adds := by simp }
  full _ := rfl
  suffixes _ := rfl
  icons _ := rfl
  ids_eq hi := absurd hi (Nat.not_lt_zero _)
  stem hi := absurd hi (Nat.not_lt_zero _)
  parts_of_le _ := rfl
  pinned id p := by simp [Ledger.Pinned]

theorem Complete.addEntries (h : Complete B f l 0) (hnames : ∀ i, 92 ∉ f.index.name i) (n : ℕ) :
    ∃ l', Complete B ((List.range n).foldl Fixer.addEntry f) l' n ∧
      ((List.range n).foldl Fixer.addEntry f).index.names = f.index.names := by
  induction n with
  | zero => exact ⟨l, h, rfl⟩
  | succ n ih =>
    obtain ⟨l', hcomplete, heq⟩ := ih
    rw [List.range_succ, List.foldl_append, List.foldl_cons, List.foldl_nil]
    have hname : ((List.range n).foldl Fixer.addEntry f).index.name n = f.index.name n :=
      congrArg (fun names => names.getD n []) heq
    obtain ⟨l'', hcomplete', heq'⟩ := hcomplete.addEntry (hname ▸ hnames n)
    exact ⟨l'', hcomplete', heq'.trans heq⟩

/-- `Fixer::Fixer` builds the components, the indexes and the pins of all names. -/
theorem complete_new {names : List Bytes} (hB : ∀ i, B (.inl i) = names.getD i [])
    (hnames : ∀ name ∈ names, 92 ∉ name) :
    ∃ l, Complete B (Fixer.new names) l names.length ∧ (Fixer.new names).index.names = names := by
  apply (complete_nil hB).addEntries
  intro i
  show 92 ∉ names.getD i []
  rw [List.getD_eq_getElem?_getD]
  cases hi : names[i]? with
  | none => simp
  | some name => exact hnames name (List.mem_of_getElem? hi)

end Pak
end Bg3le
