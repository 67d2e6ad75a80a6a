import Bg3le.Pak.ListingTheorems
import Bg3le.Pak.Lsf

/-!
# A document that was read reads back from what is written of it
-/

namespace Bg3le
namespace Pak
namespace Lsf

open LittleEndian

variable {codecs : LsfCodecs} {doc : LsfDocument} {r : Reader} {sizes : SectionSizes}
  {contents pre post out : Bytes} {pos next : ℕ} {chunkable : Bool}

/-! ## Sections -/

theorem length_inflate {input : Bytes} {size : ℕ} (h : Inflate.inflate input size = some out) :
    out.length = size := by
  unfold Inflate.inflate at h
  split at h
  · obtain ⟨o, -, hlast⟩ := Option.bind_eq_some_iff.mp h
    split at hlast
    · next hsize => exact Option.some.inj hlast ▸ hsize
    · exact absurd hlast nofun
  · exact absurd h nofun

theorem length_of_filter {o : Option Bytes} {size : ℕ}
    (h : (o.filter fun out => out.length = size) = some out) : out.length = size := by
  have hkeep := (Option.filter_eq_some_iff.mp h).2
  exact of_decide_eq_true hkeep

/-- A section has the size that the metadata says, within the limit. -/
theorem length_readSection (h : r.readSection pos sizes chunkable = some (out, next)) :
    out.length ≤ kMaxSection := by
  unfold Reader.readSection at h
  by_cases hlimit : kMaxSection < sizes.uncompressed ∨ kMaxSection < sizes.onDisk
  · rw [if_pos hlimit] at h
    exact absurd h nofun
  have hsize : sizes.uncompressed ≤ kMaxSection := by omega
  rw [if_neg hlimit] at h
  split at h
  · split at h
    · have hout := (Prod.mk.inj (Option.some.inj h)).1
      rw [← hout]
      exact Nat.zero_le _
    · exact absurd h nofun
  split at h
  · split at h
    · exact absurd h nofun
    · next hroom =>
      have hout := (Prod.mk.inj (Option.some.inj h)).1
      rw [← hout, length_slice (by omega)]
      exact hsize
  split at h
  · exact absurd h nofun
  obtain ⟨o, ho, hpair⟩ := Option.map_eq_some_iff.mp h
  have hout := (Prod.mk.inj hpair).1
  subst hout
  have hlength : o.length = sizes.uncompressed := by
    split at ho
    · exact length_inflate ho
    · split at ho
      · unfold lz4Frame at ho
        split at ho
        · exact absurd ho nofun
        · exact length_of_filter ho
      · exact length_of_filter ho
    · exact length_of_filter ho
    · exact absurd ho nofun
  exact hlength.le.trans hsize

/-- A stored section is read as it stands. -/
theorem readSection_stored (chunkable : Bool) (hsmall : contents.length ≤ kMaxSection)
    (hdrop : r.data.drop pos = contents ++ post) :
    r.readSection pos ⟨contents.length, 0⟩ chunkable = some (contents, pos + contents.length) := by
  unfold Reader.readSection
  rw [if_neg (by simp; omega)]
  by_cases hempty : contents.length = 0
  · rw [if_pos hempty, if_pos rfl, List.length_eq_zero_iff.mp hempty]
    rfl
  · have hlength := congrArg List.length hdrop
    rw [List.length_drop, List.length_append] at hlength
    have hroom : ¬r.data.length < pos + contents.length := by omega
    rw [if_neg hempty, if_pos (Or.inl rfl), if_neg hroom]
    unfold slice
    rw [hdrop, List.take_left]

/-- What follows a section. -/
theorem drop_section {data : Bytes} (hdrop : data.drop pos = contents ++ post) :
    data.drop (pos + contents.length) = post := by
  rw [← List.drop_drop, hdrop, List.drop_left]

theorem length_readKeys {hasKeys : Bool} (h : r.readKeys hasKeys pos sizes = some out) :
    out.length ≤ kMaxSection := by
  unfold Reader.readKeys at h
  split at h
  · obtain ⟨⟨keys, next⟩, hsection, hkeys⟩ := Option.map_eq_some_iff.mp h
    rw [← hkeys]
    exact length_readSection hsection
  · rw [← Option.some.inj h]
    exact Nat.zero_le _

/-! ## The metadata -/

/-- The metadata of a document. -/
def metadata (doc : LsfDocument) : Metadata :=
  readMetadata doc.version (doc.filePrefix.drop doc.metadataAt)

/-- The numbers that `lsf_write` puts into the metadata, one after another. -/
def numbers (doc : LsfDocument) : List (ℕ × ℕ) :=
  if 6 ≤ doc.version then
    [(4, doc.strings.length), (4, 0), (4, doc.keys.length), (4, 0), (4, doc.nodes.length), (4, 0),
      (4, doc.attributes.length), (4, 0), (4, doc.values.length), (4, 0), (1, 0)]
  else
    [(4, doc.strings.length), (4, 0), (4, doc.nodes.length), (4, 0), (4, doc.attributes.length),
      (4, 0), (4, doc.values.length), (4, 0), (1, 0)]

theorem length_fields (numbers : List (ℕ × ℕ)) :
    (fields numbers).length = (numbers.map Prod.fst).sum := by
  unfold fields
  rw [List.length_flatMap]
  simp

/-- The metadata of a document has its place in the prefix. -/
structure Framed (doc : LsfDocument) : Prop where
  at_eq : doc.metadataAt = metadataAt doc.version
  length_prefix : doc.filePrefix.length = metadataAt doc.version + metaSize doc.version

/-- Numbers put one behind the other are put at once. -/
theorem overwrite_next {out t u : Bytes} {start k : ℕ} (ht : t.length = k)
    (hfits : start + (k + u.length) ≤ out.length) :
    Slots.overwrite (Slots.overwrite out start t) (start + k) u = Slots.overwrite out start (t ++ u) := by
  rw [← ht]
  apply Slots.overwrite_append
  rw [List.length_append, ht]
  exact hfits

theorem length_numbers (doc : LsfDocument) :
    (fields (numbers doc)).length = if 6 ≤ doc.version then 41 else 33 := by
  rw [length_fields]
  unfold numbers
  split <;> rfl

theorem fits_numbers (h : Framed doc) :
    doc.metadataAt + (fields (numbers doc)).length ≤ doc.filePrefix.length := by
  rw [length_numbers, h.length_prefix, h.at_eq]
  unfold metaSize
  split <;> omega

/-- The prefix is written with the numbers in it, and is the old one elsewhere. -/
theorem writePrefix_eq (h : Framed doc) :
    writePrefix doc = Slots.overwrite doc.filePrefix doc.metadataAt (fields (numbers doc)) := by
  have hfits := fits_numbers h
  rw [length_numbers] at hfits
  unfold writePrefix numbers put
  by_cases hversion : 6 ≤ doc.version
  · rw [if_pos hversion] at hfits
    simp only [if_pos hversion]
    rw [Nat.add_zero]
    repeat rw [overwrite_next (by simp) (by simp; omega)]
    simp [fields]
    rfl
  · rw [if_neg hversion] at hfits
    simp only [if_neg hversion]
    rw [Nat.add_zero]
    repeat rw [overwrite_next (by simp) (by simp; omega)]
    simp [fields]
    rfl

theorem length_writePrefix (h : Framed doc) : (writePrefix doc).length = doc.filePrefix.length := by
  rw [writePrefix_eq h, Slots.length_overwrite]

theorem take_writePrefix (h : Framed doc) :
    (writePrefix doc).take doc.metadataAt = doc.filePrefix.take doc.metadataAt := by
  have hfits := fits_numbers h
  have hlength : (doc.filePrefix.take doc.metadataAt).length = doc.metadataAt := by
    rw [List.length_take]
    omega
  rw [writePrefix_eq h, Slots.overwrite_eq hfits, List.append_assoc, List.take_left' hlength]

theorem drop_writePrefix (h : Framed doc) :
    (writePrefix doc).drop doc.metadataAt =
      fields (numbers doc) ++ doc.filePrefix.drop (doc.metadataAt + (fields (numbers doc)).length) := by
  have hfits := fits_numbers h
  have hlength : (doc.filePrefix.take doc.metadataAt).length = doc.metadataAt := by
    rw [List.length_take]
    omega
  rw [writePrefix_eq h, Slots.overwrite_eq hfits, List.append_assoc, List.drop_left' hlength]

theorem field_append_left {width : ℕ} (h : pos + width ≤ pre.length) :
    field (pre ++ post) pos width = field pre pos width := by
  unfold field
  rw [slice_append_left h]

theorem field_take {width n : ℕ} (h : pos + width ≤ n) :
    field (out.take n) pos width = field out pos width := by
  unfold field slice
  rw [List.drop_take, List.take_take, Nat.min_eq_left (by omega)]

/-- A number that was put, read back. -/
theorem field_numbers (h : Framed doc) {nums : List (ℕ × ℕ)} (hnums : numbers doc = nums) {k : ℕ}
    (hk : k < nums.length) (hsmall : (nums.get ⟨k, hk⟩).2 < 256 ^ (nums.get ⟨k, hk⟩).1) :
    field ((writePrefix doc).drop doc.metadataAt) (placeOf 0 nums k) (nums.get ⟨k, hk⟩).1 =
      (nums.get ⟨k, hk⟩).2 := by
  have hplace : placeOf 0 nums k + (nums.get ⟨k, hk⟩).1 ≤ (fields nums).length := by
    have hsplit : nums = nums.take k ++ nums.get ⟨k, hk⟩ :: nums.drop (k + 1) := by
      rw [List.get_eq_getElem, List.getElem_cons_drop, List.take_append_drop]
    have hsum := congrArg (fun l => (l.map Prod.fst).sum) hsplit
    simp only [List.map_append, List.sum_append, List.map_cons, List.sum_cons] at hsum
    rw [length_fields]
    unfold placeOf
    omega
  have hread : field (([] : Bytes) ++ fields nums) (placeOf 0 nums k) (nums.get ⟨k, hk⟩).1 = _ :=
    field_fields nums List.length_nil hk
  rw [List.nil_append, Nat.mod_eq_of_lt hsmall] at hread
  rw [drop_writePrefix h, hnums, field_append_left hplace]
  exact hread

/-- What lies behind the numbers stays. -/
theorem field_behind (h : Framed doc) {width k : ℕ} (hk : (fields (numbers doc)).length ≤ k) :
    field ((writePrefix doc).drop doc.metadataAt) k width =
      field (doc.filePrefix.drop doc.metadataAt) k width := by
  obtain ⟨d, rfl⟩ := Nat.exists_eq_add_of_le hk
  unfold field
  rw [drop_writePrefix h, slice_skip rfl]
  unfold slice
  rw [List.drop_drop, List.drop_drop, Nat.add_assoc]

/-- The sections have the sizes that a document can be read with. -/
structure Small (doc : LsfDocument) : Prop where
  strings : doc.strings.length ≤ kMaxSection
  nodes : doc.nodes.length ≤ kMaxSection
  attributes : doc.attributes.length ≤ kMaxSection
  values : doc.values.length ≤ kMaxSection
  keys : doc.keys.length ≤ kMaxSection

theorem lt_of_small {n : ℕ} (h : n ≤ kMaxSection) : n < 256 ^ 4 :=
  h.trans_lt (by decide)

/-- The metadata as it is written: stored sections of the document's sizes. -/
def writtenMetadata (doc : LsfDocument) : Metadata where
  strings := ⟨doc.strings.length, 0⟩
  keys := ⟨if 6 ≤ doc.version then doc.keys.length else 0, 0⟩
  nodes := ⟨doc.nodes.length, 0⟩
  attributes := ⟨doc.attributes.length, 0⟩
  values := ⟨doc.values.length, 0⟩
  flags := 0
  format := (metadata doc).format

theorem metadata_writePrefix (h : Framed doc) (hsmall : Small doc) :
    readMetadata doc.version ((writePrefix doc).drop doc.metadataAt) = writtenMetadata doc := by
  have hbehind := @field_behind doc h 4
  have hlength := length_numbers doc
  have hstrings := lt_of_small hsmall.strings
  have hkeys := lt_of_small hsmall.keys
  have hnodes := lt_of_small hsmall.nodes
  have hattributes := lt_of_small hsmall.attributes
  have hvalues := lt_of_small hsmall.values
  have hzero : (0 : ℕ) < 256 ^ 4 := by decide
  have hnone : (0 : ℕ) < 256 ^ 1 := by decide
  unfold writtenMetadata metadata readMetadata sizesAt
  by_cases hversion : 6 ≤ doc.version
  · rw [if_pos hversion] at hlength
    have hput := @field_numbers doc h _ (if_pos hversion)
    simp only [if_pos hversion]
    congr 1
    · exact congrArg₂ _ (hput (k := 0) (by simp) hstrings) (hput (k := 1) (by simp) hzero)
    · exact congrArg₂ _ (hput (k := 2) (by simp) hkeys) (hput (k := 3) (by simp) hzero)
    · exact congrArg₂ _ (hput (k := 4) (by simp) hnodes) (hput (k := 5) (by simp) hzero)
    · exact congrArg₂ _ (hput (k := 6) (by simp) hattributes) (hput (k := 7) (by simp) hzero)
    · exact congrArg₂ _ (hput (k := 8) (by simp) hvalues) (hput (k := 9) (by simp) hzero)
    · exact hput (k := 10) (by simp) hnone
    · exact hbehind (by omega)
  · rw [if_neg hversion] at hlength
    have hput := @field_numbers doc h _ (if_neg hversion)
    simp only [if_neg hversion]
    congr 1
    · exact congrArg₂ _ (hput (k := 0) (by simp) hstrings) (hput (k := 1) (by simp) hzero)
    · exact congrArg₂ _ (hput (k := 2) (by simp) hnodes) (hput (k := 3) (by simp) hzero)
    · exact congrArg₂ _ (hput (k := 4) (by simp) hattributes) (hput (k := 5) (by simp) hzero)
    · exact congrArg₂ _ (hput (k := 6) (by simp) hvalues) (hput (k := 7) (by simp) hzero)
    · exact hput (k := 8) (by simp) hnone
    · exact hbehind (by omega)

/-- The metadata is read from its own bytes. -/
theorem readMetadata_append {version : ℕ} {m l : Bytes} (h : metaSize version ≤ m.length) :
    readMetadata version (m ++ l) = readMetadata version m := by
  unfold readMetadata sizesAt
  unfold metaSize at h
  by_cases hversion : 6 ≤ version
  · rw [if_pos hversion] at h
    simp (disch := omega) only [if_pos hversion, field_append_left]
  · rw [if_neg hversion] at h
    simp (disch := omega) only [if_neg hversion, field_append_left]

/-! ## Documents -/

/-- What holds of a document that was read: all of it can be read again. -/
structure WellFormed (doc : LsfDocument) : Prop extends Framed doc, Small doc where
  magic : doc.filePrefix.take 4 = bytes "LSOF"
  version_eq : field doc.filePrefix 4 4 = doc.version
  version_pos : 1 ≤ doc.version
  version_le : doc.version ≤ 7
  hasKeys_eq : doc.hasKeys = decide (6 ≤ doc.version ∧ (metadata doc).format = 1)
  keys_eq : doc.hasKeys = false → doc.keys = []
  stringValues_eq : ∃ names, readNames doc.strings = some names ∧ doc.stringValues =
    stringValues doc.version (metadata doc).format doc.attributes names doc.values.length

theorem twelve_le_metadataAt (version : ℕ) : 12 ≤ metadataAt version := by
  unfold metadataAt
  split <;> omega

/-- The metadata is read from the prefix. -/
theorem readMetadata_take {data : Bytes} {version : ℕ}
    (h : metadataAt version + metaSize version ≤ data.length) :
    readMetadata version ((data.take (metadataAt version + metaSize version)).drop (metadataAt version)) =
      readMetadata version (data.drop (metadataAt version)) := by
  have hsplit : data.drop (metadataAt version) =
      (data.drop (metadataAt version)).take (metaSize version) ++
        (data.drop (metadataAt version)).drop (metaSize version) := (List.take_append_drop _ _).symm
  have hlength : ((data.drop (metadataAt version)).take (metaSize version)).length = metaSize version := by
    rw [List.length_take, List.length_drop]
    omega
  rw [hsplit, readMetadata_append hlength.ge, List.drop_take, Nat.add_sub_cancel_left]

/-- A document that was read is well formed. -/
theorem wellFormed_of_read {data : Bytes} (h : lsfRead codecs data = some doc) : WellFormed doc := by
  unfold lsfRead at h
  by_cases hmagic : data.length < 12 ∨ data.take 4 ≠ bytes "LSOF"
  · rw [if_pos hmagic] at h
    exact absurd h nofun
  rw [if_neg hmagic] at h
  simp only at h
  by_cases hversion : field data 4 4 < 1 ∨ 7 < field data 4 4 ∨
      data.length < metadataAt (field data 4 4) + metaSize (field data 4 4)
  · rw [if_pos hversion] at h
    exact absurd h nofun
  rw [if_neg hversion] at h
  -- what was read is read as the sections follow each other
  unfold Reader.readDocument at h
  obtain ⟨⟨strings, p₁⟩, hstrings, h⟩ := Option.bind_eq_some_iff.mp h
  obtain ⟨⟨nodes, p₂⟩, hnodes, h⟩ := Option.bind_eq_some_iff.mp h
  obtain ⟨⟨attributes, p₃⟩, hattributes, h⟩ := Option.bind_eq_some_iff.mp h
  obtain ⟨⟨values, p₄⟩, hvalues, h⟩ := Option.bind_eq_some_iff.mp h
  obtain ⟨keys, hkeys, h⟩ := Option.bind_eq_some_iff.mp h
  obtain ⟨names, hnames, h⟩ := Option.bind_eq_some_iff.mp h
  have hdoc := (Option.some.inj h).symm
  have hlimits : 1 ≤ field data 4 4 ∧ field data 4 4 ≤ 7 ∧
      metadataAt (field data 4 4) + metaSize (field data 4 4) ≤ data.length := by omega
  -- the document keeps the header, so its metadata are those that were read
  have hmetadata : metadata doc =
      readMetadata (field data 4 4) (data.drop (metadataAt (field data 4 4))) := by
    rw [hdoc]
    exact readMetadata_take hlimits.2.2
  have hfront : 4 + 4 ≤ metadataAt (field data 4 4) + metaSize (field data 4 4) := by
    have hat := twelve_le_metadataAt (field data 4 4)
    omega
  have hversion_eq : field (data.take (metadataAt (field data 4 4) + metaSize (field data 4 4))) 4 4 =
      field data 4 4 := field_take hfront
  exact
    { at_eq := by rw [hdoc]
      length_prefix := by
        rw [hdoc]
        exact List.length_take_of_le hlimits.2.2
      strings := by
        rw [hdoc]
        exact length_readSection hstrings
      nodes := by
        rw [hdoc]
        exact length_readSection hnodes
      attributes := by
        rw [hdoc]
        exact length_readSection hattributes
      values := by
        rw [hdoc]
        exact length_readSection hvalues
      keys := by
        rw [hdoc]
        exact length_readKeys hkeys
      magic := by
        rw [hdoc]
        show (data.take _).take 4 = _
        rw [List.take_take, Nat.min_eq_left (Nat.le_of_add_right_le hfront)]
        exact not_not.mp fun hne => hmagic (Or.inr hne)
      version_eq := by
        rw [hdoc]
        exact hversion_eq
      version_pos := by
        rw [hdoc]
        exact hlimits.1
      version_le := by
        rw [hdoc]
        exact hlimits.2.1
      hasKeys_eq := by
        rw [hmetadata, hdoc]
      keys_eq := by
        rw [hdoc]
        intro hnone
        unfold Reader.readKeys at hkeys
        rw [if_neg (by simpa using hnone)] at hkeys
        exact (Option.some.inj hkeys).symm
      stringValues_eq := by
        rw [hmetadata, hdoc]
        exact ⟨names, hnames, rfl⟩ }

/-- The values may be changed in place. -/
theorem WellFormed.setValues (h : WellFormed doc) {values : Bytes}
    (hlength : values.length = doc.values.length) : WellFormed (doc.setValues values hlength) :=
  { h with
    values := by
      show values.length ≤ kMaxSection
      rw [hlength]
      exact h.values
    stringValues_eq := by
      obtain ⟨names, hnames, hvalues⟩ := h.stringValues_eq
      refine ⟨names, hnames, hvalues.trans ?_⟩
      show _ = stringValues _ _ _ _ values.length
      rw [hlength]
      rfl }

/-- The keys are read as they stand, where there are some. -/
theorem readKeys_stored (h : WellFormed doc) {keys : Bytes}
    (hkeys : keys = if doc.hasKeys then doc.keys else []) (hdrop : r.data.drop pos = keys) :
    r.readKeys doc.hasKeys pos (writtenMetadata doc).keys = some doc.keys := by
  unfold Reader.readKeys
  by_cases hhas : doc.hasKeys = true
  · have hversion : 6 ≤ doc.version := by
      rw [h.hasKeys_eq] at hhas
      exact (of_decide_eq_true hhas).1
    rw [if_pos hhas] at hkeys ⊢
    rw [hkeys, ← List.append_nil doc.keys] at hdrop
    unfold writtenMetadata
    rw [if_pos hversion, readSection_stored true h.keys hdrop]
    rfl
  · rw [if_neg hhas, h.keys_eq (by simpa using hhas)]

/-- What is written of a well formed document is read back, with the prefix as it was written. -/
theorem lsfRead_written (codecs : LsfCodecs) (h : WellFormed doc) :
    lsfRead codecs (lsfWrite doc) = some { doc with filePrefix := writePrefix doc } := by
  obtain ⟨names, hnames, hvalues⟩ := h.stringValues_eq
  have hat := twelve_le_metadataAt doc.version
  have hlength := (length_writePrefix h.toFramed).trans h.length_prefix
  have htake := take_writePrefix h.toFramed
  rw [h.at_eq] at htake
  have hmetadata := metadata_writePrefix h.toFramed h.toSmall
  rw [h.at_eq] at hmetadata
  obtain ⟨keys, hkeys⟩ : ∃ keys, keys = if doc.hasKeys then doc.keys else [] := ⟨_, rfl⟩
  have hdata : lsfWrite doc =
      writePrefix doc ++ (doc.strings ++ (doc.nodes ++ (doc.attributes ++ (doc.values ++ keys)))) := by
    unfold lsfWrite
    rw [hkeys]
    simp only [List.append_assoc]
  generalize lsfWrite doc = data at hdata ⊢
  -- the prefix starts as the old one does
  have hfront : data.take (metadataAt doc.version) = doc.filePrefix.take (metadataAt doc.version) := by
    rw [hdata, List.take_append_of_le_length (by omega), htake]
  have hmagic : data.take 4 = bytes "LSOF" := by
    have hfour := congrArg (List.take 4) hfront
    rw [List.take_take, List.take_take, Nat.min_eq_left (by omega)] at hfour
    exact hfour.trans h.magic
  have hversion : field data 4 4 = doc.version := by
    rw [← field_take (n := metadataAt doc.version) (by omega), hfront, field_take (by omega)]
    exact h.version_eq
  have hread : readMetadata doc.version (data.drop (metadataAt doc.version)) = writtenMetadata doc := by
    rw [hdata, List.drop_append_of_le_length (by omega),
      readMetadata_append (by rw [List.length_drop]; omega)]
    exact hmetadata
  have hsize : metadataAt doc.version + metaSize doc.version ≤ data.length := by
    rw [hdata, List.length_append]
    omega
  -- the sections follow as they stand
  have hpos : data.drop (metadataAt doc.version + metaSize doc.version) =
      doc.strings ++ (doc.nodes ++ (doc.attributes ++ (doc.values ++ keys))) := by
    rw [hdata, ← hlength, List.drop_left]
  have hpos₁ := drop_section hpos
  have hpos₂ := drop_section hpos₁
  have hpos₃ := drop_section hpos₂
  have hpos₄ := drop_section hpos₃
  let r : Reader := ⟨codecs, data, 0, doc.version⟩
  have hstrings := readSection_stored (r := r) false h.strings hpos
  have hnodes := readSection_stored (r := r) true h.nodes hpos₁
  have hattributes := readSection_stored (r := r) true h.attributes hpos₂
  have hvalues' := readSection_stored (r := r) true h.values hpos₃
  have hkeys' := readKeys_stored (r := r) h hkeys hpos₄
  unfold lsfRead
  rw [if_neg (by rw [hmagic]; simp; omega)]
  simp only [hversion]
  rw [if_neg (by have := h.version_pos; have := h.version_le; omega), hread]
  show r.readDocument _ (writtenMetadata doc) = _
  have hhas : decide (6 ≤ r.version ∧ (writtenMetadata doc).format = 1) = doc.hasKeys := h.hasKeys_eq.symm
  unfold Reader.readDocument
  simp only [hhas]
  refine Option.bind_eq_some_iff.mpr ⟨_, hstrings, ?_⟩
  refine Option.bind_eq_some_iff.mpr ⟨_, hnodes, ?_⟩
  refine Option.bind_eq_some_iff.mpr ⟨_, hattributes, ?_⟩
  refine Option.bind_eq_some_iff.mpr ⟨_, hvalues', ?_⟩
  refine Option.bind_eq_some_iff.mpr ⟨_, hkeys', ?_⟩
  refine Option.bind_eq_some_iff.mpr ⟨_, hnames, ?_⟩
  apply congrArg some
  rw [LsfDocument.mk.injEq]
  have hstart : data.take (metadataAt doc.version + metaSize doc.version) = writePrefix doc := by
    rw [hdata, List.take_left' hlength]
  exact ⟨hstart, h.at_eq.symm, rfl, rfl, rfl, rfl, rfl, rfl, rfl, hvalues.symm⟩

/-- Writing what was read back changes nothing: the numbers are the same and are put in the same
place. -/
theorem lsfWrite_written (h : WellFormed doc) :
    lsfWrite { doc with filePrefix := writePrefix doc } = lsfWrite doc := by
  have hframed : Framed { doc with filePrefix := writePrefix doc } :=
    { at_eq := h.at_eq
      length_prefix := (length_writePrefix h.toFramed).trans h.length_prefix }
  have hagain : writePrefix { doc with filePrefix := writePrefix doc } = writePrefix doc := by
    rw [writePrefix_eq hframed]
    show Slots.overwrite (writePrefix doc) doc.metadataAt (fields (numbers doc)) = writePrefix doc
    rw [writePrefix_eq h.toFramed, Slots.overwrite_self (fits_numbers h.toFramed)]
  unfold lsfWrite
  rw [hagain]

/-- `lsf_read` of what `lsf_write` makes of a document gives its fields back, and `lsf_write` makes
the same of that. The prefix is the one that was written. -/
def Rereads (codecs : LsfCodecs) (doc : LsfDocument) : Prop :=
  ∃ again, lsfRead codecs (lsfWrite doc) = some again ∧ again.version = doc.version ∧
    again.hasKeys = doc.hasKeys ∧ again.strings = doc.strings ∧ again.nodes = doc.nodes ∧
    again.attributes = doc.attributes ∧ again.values = doc.values ∧ again.keys = doc.keys ∧
    again.stringValues = doc.stringValues ∧ lsfWrite again = lsfWrite doc

/-- Every string value lies inside of the values, and so does its terminator. -/
def Terminated (doc : LsfDocument) : Prop :=
  ∀ s ∈ doc.stringValues, s.offset + s.length + 1 ≤ doc.values.length

theorem WellFormed.rereads (codecs : LsfCodecs) (h : WellFormed doc) : Rereads codecs doc :=
  ⟨_, lsfRead_written codecs h, rfl, rfl, rfl, rfl, rfl, rfl, rfl, rfl, lsfWrite_written h⟩

theorem WellFormed.terminated (h : WellFormed doc) : Terminated doc := by
  obtain ⟨names, -, hvalues⟩ := h.stringValues_eq
  intro s hs
  rw [hvalues] at hs
  exact stringValues_inBounds hs

/-- A document that was read can be written and read again, also after its values were changed in
place. -/
theorem lsfRead_lsfWrite {data : Bytes} (h : lsfRead codecs data = some doc) :
    Rereads codecs doc ∧ Terminated doc ∧
      ∀ values (hlength : values.length = doc.values.length),
        Rereads codecs (doc.setValues values hlength) ∧ Terminated (doc.setValues values hlength) := by
  have hwell := wellFormed_of_read h
  refine ⟨hwell.rereads codecs, hwell.terminated, ?_⟩
  intro values hlength
  have hchanged := hwell.setValues hlength
  exact ⟨hchanged.rereads codecs, hchanged.terminated⟩

/-- A resource of one node name, one attribute with a string value, and two bytes of keys. Its
values are an LZ4 frame of one stored block. -/
def demoFile : Bytes :=
  let frame := encode 4 0x184D2204 ++ [0x40, 0x40, 0xC0] ++ encode 4 (2 ^ 31 + 3) ++ bytes "ab" ++
    [0] ++ encode 4 0
  bytes "LSOF" ++ encode 4 7 ++ encode 8 0 ++
    fields [(4, 9), (4, 0), (4, 2), (4, 0), (4, 0), (4, 0), (4, 16), (4, 0), (4, 3), (4, 18), (4, 2),
      (4, 1)] ++
    fields [(4, 1), (2, 1), (2, 1)] ++ bytes "n" ++
    fields [(4, 0), (4, 20 + 3 * 64), (4, 2 ^ 32 - 1), (4, 0)] ++ frame ++ [1, 2]

/-- Codecs that are not asked for anything. -/
def demoCodecs : LsfCodecs where
  compress := fun _ => []
  decompress := fun _ _ => none
  zstd := fun _ _ => none
  length_compress := by simp
  usingDict := fun _ _ _ => none

theorem lsfRead_lsfWrite_demo :
    ∃ doc, lsfRead demoCodecs demoFile = some doc ∧ doc.stringValues = [⟨0, 2, bytes "n"⟩] ∧
      doc.keys = [1, 2] ∧ Rereads demoCodecs doc ∧ Terminated doc := by
  have hread : (lsfRead demoCodecs demoFile).map (fun doc => (doc.stringValues, doc.keys)) =
      some ([⟨0, 2, bytes "n"⟩], [1, 2]) := by
    decide +kernel
  obtain ⟨doc, hdoc, hfields⟩ := Option.map_eq_some_iff.mp hread
  obtain ⟨hrereads, hterminated, -⟩ := lsfRead_lsfWrite hdoc
  exact ⟨doc, hdoc, (Prod.mk.inj hfields).1, (Prod.mk.inj hfields).2, hrereads, hterminated⟩

end Lsf
end Pak
end Bg3le
