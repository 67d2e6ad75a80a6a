import Bg3le.Pak.EntriesTheorems

/-!
# What an entry pins

The pins of an entry depend on its name alone, and a pin is the text of its group up to case.
-/

namespace Bg3le
namespace Pak

variable {B : ℕ ⊕ ℕ → Bytes} {f f' f'' : Fixer} {l l' l'' : Ledger} {i n : ℕ} {name : Bytes}

/-- Pins by the ids of their groups. -/
def Ledger.pinIds (l : Ledger) (pins : List (ℕ × Bytes)) : List (Bytes × Bytes) :=
  pins.map fun q => (l.label q.1, q.2)

theorem Ledger.pinned_pin (l : Ledger) (pins : List (ℕ × Bytes)) (id p : Bytes) :
    (l.pin pins).Pinned id p ↔ l.Pinned id p ∨ (id, p) ∈ l.pinIds pins := by
  unfold Ledger.Pinned Ledger.pin Ledger.pinIds
  simp only [List.mem_append, List.mem_map, Prod.mk.injEq, or_and_right, exists_or, Prod.exists]
  apply or_congr Iff.rfl
  constructor
  · rintro ⟨g, hmem, hg⟩
    exact ⟨g, p, hmem, hg, rfl⟩
  · rintro ⟨g, _, hmem, hg, rfl⟩
    exact ⟨g, hmem, hg⟩

theorem Ledger.pin_pin (l : Ledger) (pins pins' : List (ℕ × Bytes)) :
    (l.pin pins).pin pins' = l.pin (pins ++ pins') := by
  simp [Ledger.pin]

theorem Ledger.pin_nil (l : Ledger) : l.pin [] = l := by
  simp [Ledger.pin]

/-- The groups of a name's components. -/
def Ledger.Owns (l : Ledger) (f : Fixer) (name : Bytes) (parts : List Part) : Prop :=
  ∀ p ∈ parts, p.group < f.groups.groups.length ∧
    (l.label p.group, p.begin, p.stop) ∈ components name

theorem Ledger.Owns.tail {p : Part} {parts : List Part} (h : l.Owns f name (p :: parts)) :
    l.Owns f name parts :=
  fun q hq => h q (List.mem_cons_of_mem _ hq)

/-! ## One pin -/

theorem Built.pin (h : Built B f l) {g : ℕ} (spelling : Bytes) (hg : g < f.groups.groups.length)
    (htext : lowered spelling = textOf (l.label g)) (hslash : 92 ∉ spelling)
    (hne : spelling ≠ []) :
    Built B { f with groups := f.groups.pin g spelling } (l.pin [(g, spelling)]) where
  holds := h.holds.pinTo hg htext hslash hne
  labelled := by
    refine ⟨fun {id g'} => ?_⟩
    rw [Groups.length_pin]
    exact h.labelled.ids_iff
  name_eq := h.name_eq
  joins := h.joins
  mem_adds := h.mem_adds

theorem Built.find (h : Built B f l) (g : ℕ) : Built B { f with groups := (f.groups.find g).1 } l :=
  ⟨h.holds.find g, ⟨h.labelled.ids_iff⟩, h.name_eq, h.joins, h.mem_adds⟩

/-- Canonical spellings differ from the key in case only. -/
theorem canonical_lookup {key spelling : Bytes} (h : canonical.lookup key = some spelling) :
    lowered spelling = key ∧ 92 ∉ spelling ∧ spelling ≠ [] := by
  have hall : ∀ e ∈ canonical, lowered e.2 = e.1 ∧ 92 ∉ e.2 ∧ e.2 ≠ [] := by decide
  obtain ⟨l, l', heq, -⟩ := List.lookup_eq_some_iff.mp h
  exact hall (key, spelling) (heq ▸ List.mem_append_right _ List.mem_cons_self)

/-! ## The pins of icon directories -/

theorem Built.pinDirectories (h : Built B f l) (hname : 92 ∉ name) {parts : List Part}
    (hparts : l.Owns f name parts) :
    ∃ pins, Built B { f with groups := Fixer.pinDirectories name parts f.groups } (l.pin pins) ∧
      l.pinIds pins =
        ((l.ids parts).takeWhile fun c => isDirectory c.1).filterMap (canonicalPin name) ∧
      (Fixer.pinDirectories name parts f.groups).groups.length = f.groups.groups.length := by
  induction parts generalizing f l with
  | nil => exact ⟨[], by rwa [Ledger.pin_nil], rfl, rfl⟩
  | cons p parts ih =>
    obtain ⟨hlt, hmem⟩ := hparts p List.mem_cons_self
    have hfind := h.find p.group
    have hdirectory := h.directory_iff hlt
    have hcons : l.ids (p :: parts) = (l.label p.group, p.begin, p.stop) :: l.ids parts := rfl
    rw [hcons]
    unfold Fixer.pinDirectories
    simp only
    split
    · next hdir =>
      -- the first component that is no directory: the loop stops there
      have hdir : ¬ isDirectory (l.label p.group) = true := fun hd => by
        rw [← hdirectory] at hd
        exact absurd (hd.symm.trans hdir) (by decide)
      have htake : ((l.label p.group, p.begin, p.stop) :: l.ids parts).takeWhile
          (fun c => isDirectory c.1) = [] := List.takeWhile_cons_of_neg hdir
      refine ⟨[], by rwa [Ledger.pin_nil], ?_, rfl⟩
      rw [htake]
      rfl
    · next hdir =>
      have hdir : isDirectory (l.label p.group) = true := by
        rw [← hdirectory]
        exact eq_true_of_ne_false hdir
      have htake : ((l.label p.group, p.begin, p.stop) :: l.ids parts).takeWhile
          (fun c => isDirectory c.1) = (l.label p.group, p.begin, p.stop) ::
            (l.ids parts).takeWhile fun c => isDirectory c.1 := List.takeWhile_cons_of_pos hdir
      rw [htake]
      split
      -- a directory without a canonical spelling is passed over
      · next hlookup =>
        obtain ⟨pins, hbuilt, hpins, hlength⟩ := ih hfind hparts.tail
        refine ⟨pins, hbuilt, ?_, hlength⟩
        rw [List.filterMap_cons_none (by rw [canonicalPin, hlookup]; rfl), hpins]
      · next spelling hlookup =>
        obtain ⟨htext, hslash, hne⟩ := canonical_lookup hlookup
        -- a pin adds no group, so what is left of the path is still owned
        have hpin := hfind.pin spelling hlt (by
          rw [htext, textOf_component hname hmem, lowered_slice]) hslash hne
        obtain ⟨pins, hbuilt, hpins, hlength⟩ := ih hpin fun q hq => by
          rw [Groups.length_pin]
          exact hparts.tail q hq
        refine ⟨(p.group, spelling) :: pins, ?_, ?_, hlength.trans (Groups.length_pin ..)⟩
        · rwa [Ledger.pin_pin] at hbuilt
        · have hsome : canonicalPin name (l.label p.group, p.begin, p.stop) =
              some (l.label p.group, spelling) := by rw [canonicalPin, hlookup]; rfl
          rw [List.filterMap_cons_some hsome]
          exact congrArg _ hpins

theorem Built.pinIconDirectories (h : Built B f l) (hname : 92 ∉ f.index.name i)
    (hids : l.ids (f.index.parts i) = components (f.index.name i)) :
    ∃ pins, Built B (f.pinIconDirectories i) (l.pin pins) ∧
      l.pinIds pins = iconPins (f.index.name i) ∧
      (f.pinIconDirectories i).groups.groups.length = f.groups.groups.length := by
  have howns (k : ℕ) : l.Owns f (f.index.name i) ((f.index.parts i).drop k) := by
    intro p hp
    have hp := List.mem_of_mem_drop hp
    refine ⟨h.part_lt hp, ?_⟩
    rw [← hids]
    exact List.mem_map_of_mem hp
  obtain ⟨pins, hbuilt, hpins, hlength⟩ := h.pinDirectories hname (howns _)
  refine ⟨pins, hbuilt, hpins.trans ?_, hlength⟩
  unfold iconPins
  rw [← hids]
  unfold Ledger.ids
  simp only [List.length_map, List.getElem?_map, Option.any_map, List.map_drop]

/-! ## The pins of names that are looked for -/

theorem Built.pinAll (h : Built B f l) (hname : 92 ∉ name) {parts : List Part}
    (hparts : l.Owns f name parts) (hlt : ∀ p ∈ parts, p.begin < p.stop) :
    Built B { f with groups := parts.foldl (fun G p =>
        G.pin p.group (slice name p.begin (p.stop - p.begin))) f.groups }
      (l.pin (parts.map fun p => (p.group, slice name p.begin (p.stop - p.begin)))) ∧
    (parts.foldl (fun G p => G.pin p.group (slice name p.begin (p.stop - p.begin)))
      f.groups).groups.length = f.groups.groups.length := by
  induction parts generalizing f l with
  | nil => exact ⟨by rwa [List.map_nil, Ledger.pin_nil], rfl⟩
  | cons p parts ih =>
    obtain ⟨hgroup, hmem⟩ := hparts p List.mem_cons_self
    have hpos := hlt p List.mem_cons_self
    have hle := layout_le (mem_layout_of_mem hmem)
    have hlength : (slice name p.begin (p.stop - p.begin)).length = p.stop - p.begin :=
      length_slice (by simp only at hle; omega)
    have hpin := h.pin (slice name p.begin (p.stop - p.begin)) hgroup (by
      rw [textOf_component hname hmem, lowered_slice]) (not_mem_slice hname) fun hnil => by
        rw [hnil, List.length_nil] at hlength
        omega
    obtain ⟨hbuilt, hrest⟩ := ih hpin (fun q hq => by
      rw [Groups.length_pin]
      exact hparts.tail q hq) fun q hq => hlt q (List.mem_cons_of_mem _ hq)
    rw [Ledger.pin_pin] at hbuilt
    exact ⟨hbuilt, hrest.trans (Groups.length_pin ..)⟩

/-- The stem and the extension of a fixed name are not empty. -/
theorem lt_of_fixedName (h : fixedName (lastComponent name) = true) {id : Bytes} {r : ℕ × ℕ}
    (hr : (id, r) ∈ components name) (hid : isDirectory id = false) : r.1 < r.2 := by
  unfold fixedName at h
  obtain ⟨s, hs, heq⟩ := List.any_eq_true.mp h
  have hall : ∀ s ∈ ["meta.lsx", "metadata.lsx", "metadata.lsf", "config.json", "bootstrapserver.lua",
      "bootstrapclient.lua", "story_header.div"], (bytes s) ≠ [] ∧ (bytes s).getLast? ≠ some 46 := by
    decide
  obtain ⟨hne, hlast⟩ := hall s hs
  rw [of_decide_eq_true heq, lastComponent_eq, ← lowered_drop] at hne hlast
  have hlength : leafBegin name < name.length := by
    by_contra hle
    rw [List.drop_of_length_le (by rw [length_lowered]; omega)] at hne
    exact hne rfl
  rcases List.mem_append.mp hr with hr | hr
  · obtain ⟨r, -, heq⟩ := List.mem_map.mp hr
    obtain ⟨rfl, rfl⟩ := Prod.mk.inj heq
    exact Bool.noConfusion (show true = false from hid)
  rcases List.mem_cons.mp hr with heq | hr
  · obtain ⟨-, rfl⟩ := Prod.mk.inj heq
    unfold stemRange
    cases hdot : leafDot name with
    | none => exact hlength
    | some dot => exact (leafDot_eq_some hdot).1
  · obtain ⟨dot, hdot, heq⟩ := List.mem_map.mp hr
    obtain ⟨-, rfl⟩ := Prod.mk.inj heq
    obtain ⟨hbegin, hget, hlt, -⟩ := leafDot_eq_some (Option.mem_toList.mp hdot)
    -- the last dot would be the last character
    by_contra hle
    apply hlast
    simp only at hle
    rw [List.getLast?_eq_getElem?, List.length_drop, length_lowered, List.getElem?_drop,
      show leafBegin name + (name.length - leafBegin name - 1) = dot by omega, lowered_dot_iff]
    exact hget

/-- All components but the directories. -/
theorem filter_components (name : Bytes) :
    (components name).filter (fun c => ¬ isDirectory c.1) = (stemId name, stemRange name) ::
      (leafDot name).toList.map fun dot => (bytes "x:" ++ lowered name, dot + 1, name.length) := by
  unfold components
  rw [List.filter_append]
  have hnone : ((directoryRanges 0 (slashes name)).map fun r =>
      (bytes "d:" ++ (lowered name).take r.2, r)).filter (fun c => ¬ isDirectory c.1) = [] := by
    apply List.filter_eq_nil_iff.mpr
    intro c hc
    obtain ⟨r, -, rfl⟩ := List.mem_map.mp hc
    have hdir : isDirectory (bytes "d:" ++ (lowered name).take r.2) = true := rfl
    simp [hdir]
  rw [hnone, List.nil_append]
  apply List.filter_eq_self.mpr
  intro c hc
  rcases List.mem_cons.mp hc with rfl | hc
  · rfl
  · obtain ⟨dot, -, rfl⟩ := List.mem_map.mp hc
    rfl

theorem Built.pinFixed (h : Built B f l) (hname : 92 ∉ name) {parts : List Part}
    (hparts : ∀ p ∈ parts, p.group < f.groups.groups.length)
    (hids : l.ids parts = (components name).filter fun c => ¬ isDirectory c.1) :
    ∃ pins, Built B (f.pinFixed name parts) (l.pin pins) ∧
      l.pinIds pins = (if fixedName (lastComponent name) then fixedPins name else []) ∧
      (f.pinFixed name parts).groups.groups.length = f.groups.groups.length := by
  unfold Fixer.pinFixed
  split
  · next hfixed =>
    have hmem (p : Part) (hp : p ∈ parts) : (l.label p.group, p.begin, p.stop) ∈
        (components name).filter fun c => ¬ isDirectory c.1 := by
      rw [← hids]
      exact List.mem_map_of_mem hp
    obtain ⟨hbuilt, hlength⟩ := h.pinAll hname
      (fun p hp => ⟨hparts p hp, List.mem_of_mem_filter (hmem p hp)⟩) fun p hp => by
        have hfilter := List.mem_filter.mp (hmem p hp)
        exact lt_of_fixedName hfixed hfilter.1 (by simpa using hfilter.2)
    refine ⟨_, hbuilt, ?_, hlength⟩
    unfold fixedPins
    rw [← hids, Ledger.pinIds, Ledger.ids, List.map_map, List.map_map]
    rfl
  · exact ⟨[], by rwa [Ledger.pin_nil], rfl, rfl⟩

theorem Fixer.index_pinFixed (f : Fixer) (name : Bytes) (parts : List Part) :
    (f.pinFixed name parts).index = f.index := by
  unfold Fixer.pinFixed
  split <;> rfl

/-! ## The pins of textures -/

theorem Built.pinTexture (h : Built B f l) (stem ext : Part) (hname : 92 ∉ f.index.name i) {dot : ℕ}
    (hids : l.ids (f.index.parts i) = components (f.index.name i))
    (hext : ext.group < f.groups.groups.length)
    (hlabel : l.label ext.group = bytes "x:" ++ lowered (f.index.name i))
    (hdot : leafDot (f.index.name i) = some dot) (hdds : extension (f.index.name i) = bytes "dds") :
    ∃ pins, Built B (f.pinTexture i (lowered (f.index.name i)) stem ext) (l.pin pins) ∧
      l.pinIds pins = (bytes "x:" ++ lowered (f.index.name i), bytes "DDS") ::
        (if iconDirectory (lowered (f.index.name i)) then iconPins (f.index.name i) else []) ∧
      (f.pinTexture i (lowered (f.index.name i)) stem ext).groups.groups.length =
        f.groups.groups.length := by
  have hpin := h.pin (bytes "DDS") hext (by
    rw [hlabel, textOf_extension hdot, ← extension_eq hdot, hdds]
    decide) (by decide) (by decide)
  have hone : l.pinIds [(ext.group, bytes "DDS")] =
      [(bytes "x:" ++ lowered (f.index.name i), bytes "DDS")] := by
    rw [Ledger.pinIds, List.map_singleton, hlabel]
  unfold Fixer.pinTexture
  split
  · have hpushed := hpin.withIndex (X := { f.index with
      icons := push f.index.icons (slice (lowered (f.index.name i)) stem.begin
        (stem.stop - stem.begin)) i }) rfl rfl
    obtain ⟨pins, hbuilt, hpins, hlength⟩ := hpushed.pinIconDirectories hname hids
    rw [Ledger.pin_pin] at hbuilt
    refine ⟨(ext.group, bytes "DDS") :: pins, hbuilt, ?_, hlength.trans (Groups.length_pin ..)⟩
    rw [Ledger.pinIds, List.map_cons, hlabel]
    exact congrArg _ hpins
  · exact ⟨_, hpin, hone, Groups.length_pin ..⟩

theorem Fixer.index_pinTexture (f : Fixer) (i : ℕ) (low : Bytes) (stem ext : Part) :
    (f.pinTexture i low stem ext).index =
      if iconDirectory low then { f.index with
        icons := push f.index.icons (slice low stem.begin (stem.stop - stem.begin)) i }
      else f.index := by
  unfold Fixer.pinTexture
  split <;> rfl

end Pak
end Bg3le
