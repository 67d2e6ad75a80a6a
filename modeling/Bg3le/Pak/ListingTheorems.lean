import Bg3le.Pak.Listing
import Bg3le.Pak.NamesTheorems

/-!
# Lists of entries

An entry is read back from its record, and `pak_listing` gives the entries that a list block was
written from.
-/

namespace Bg3le
namespace Pak

open LittleEndian

variable {codecs : Codecs} {file data l l' : Bytes} {pos size width v : ℕ}

/-! ## Slices -/

theorem slice_append_left (h : pos + size ≤ l.length) : slice (l ++ l') pos size = slice l pos size := by
  unfold slice
  rw [List.drop_append_of_le_length (by omega), List.take_append_of_le_length (by simp; omega)]

theorem slice_append_right (h : l.length = pos) (h' : l'.length = size) :
    slice (l ++ l') pos size = l' := by
  unfold slice
  rw [← h, List.drop_left, ← h', List.take_length]

theorem slice_between {pre post : Bytes} (hpre : pre.length = pos) (hlength : data.length = size) :
    slice (pre ++ data ++ post) pos size = data := by
  rw [slice_append_left (by rw [List.length_append]; omega), slice_append_right hpre hlength]

theorem slice_all (h : l.length = size) : slice l 0 size = l := slice_append_right List.length_nil h

/-- A piece of a concatenation of pieces of one size. -/
theorem slice_flatMap {α : Type*} (f : α → Bytes) {as : List α} (hf : ∀ a ∈ as, (f a).length = size)
    {i : ℕ} (hi : i < as.length) : slice (as.flatMap f) (i * size) size = f (as.get ⟨i, hi⟩) := by
  induction as generalizing i with
  | nil => exact absurd hi (Nat.not_lt_zero i)
  | cons a as ih =>
    have hhead := hf a List.mem_cons_self
    rw [List.flatMap_cons]
    match i with
    | 0 =>
      rw [Nat.zero_mul, slice_append_left (by omega), slice_all hhead]
      rfl
    | i + 1 =>
      have hdrop : (f a ++ as.flatMap f).drop ((i + 1) * size) = (as.flatMap f).drop (i * size) := by
        rw [Nat.succ_mul, Nat.add_comm, ← List.drop_drop, ← hhead, List.drop_left]
      unfold slice at ih ⊢
      rw [hdrop]
      exact ih (fun a ha => hf a (List.mem_cons_of_mem _ ha)) (Nat.lt_of_succ_lt_succ hi)

theorem fread_eq (h : pos + size ≤ file.length) : fread file pos size = some (slice file pos size) :=
  if_neg (Nat.not_lt.mpr h)

theorem fread_between {pre post : Bytes} (hpre : pre.length = pos) (hlength : data.length = size) :
    fread (pre ++ data ++ post) pos size = some data := by
  rw [fread_eq (by simp; omega), slice_between hpre hlength]

theorem readAt_eq (h : pos < 2 ^ 63) : readAt file pos size = fread file pos size :=
  if_neg (Nat.not_le.mpr h)

/-! ## Fields -/

theorem slice_skip {n : ℕ} (h : l.length = n) : slice (l ++ l') (n + pos) size = slice l' pos size := by
  unfold slice
  rw [← List.drop_drop, ← h, List.drop_left]

theorem field_head (width v : ℕ) (l : Bytes) : field (encode width v ++ l) 0 width = v % 256 ^ width := by
  unfold field
  rw [slice_append_left (by simp), slice_all (length_encode width v), decode_encode]

/-- Numbers of some widths one after another. -/
def fields (numbers : List (ℕ × ℕ)) : Bytes := numbers.flatMap fun (width, v) => encode width v

/-- The place of a number behind a head. -/
def placeOf (head : ℕ) (numbers : List (ℕ × ℕ)) (k : ℕ) : ℕ := head + ((numbers.take k).map Prod.fst).sum

/-- A number is read back at its place, up to its width. -/
theorem field_fields {head : Bytes} (numbers : List (ℕ × ℕ)) {k n : ℕ} (hhead : head.length = n)
    (hk : k < numbers.length) :
    field (head ++ fields numbers) (placeOf n numbers k) (numbers.get ⟨k, hk⟩).1 =
      (numbers.get ⟨k, hk⟩).2 % 256 ^ (numbers.get ⟨k, hk⟩).1 := by
  have hsplit : numbers = numbers.take k ++ numbers.get ⟨k, hk⟩ :: numbers.drop (k + 1) := by
    rw [List.get_eq_getElem, List.getElem_cons_drop, List.take_append_drop]
  have hbefore : (fields (numbers.take k)).length = ((numbers.take k).map Prod.fst).sum := by
    unfold fields
    rw [List.length_flatMap]
    simp
  have hfields : fields numbers = fields (numbers.take k) ++
      (encode (numbers.get ⟨k, hk⟩).1 (numbers.get ⟨k, hk⟩).2 ++ fields (numbers.drop (k + 1))) := by
    refine (congrArg fields hsplit).trans ?_
    unfold fields
    rw [List.flatMap_append, List.flatMap_cons]
  unfold field placeOf
  rw [hfields, slice_skip hhead, ← Nat.add_zero ((numbers.take k).map Prod.fst).sum, slice_skip hbefore,
    slice_append_left (by simp), slice_all (length_encode _ _), decode_encode]

theorem length_nameField {name : Bytes} (h : name.length ≤ 256) : (nameField name).length = 256 := by
  unfold nameField
  rw [List.length_append, List.length_replicate]
  omega

theorem cString_nameField {name : Bytes} (hlength : name.length < 256) (hname : 0 ∉ name) :
    cString (nameField name) = name := by
  have hzero : List.replicate (256 - name.length) (0 : UInt8) =
      0 :: List.replicate (256 - name.length - 1) 0 := by
    rw [← List.replicate_succ]
    congr 1
    omega
  unfold cString nameField
  rw [hzero, List.takeWhile_append_of_pos]
  · rw [List.takeWhile_cons_of_neg (by simp), List.append_nil]
  · intro c hc
    simp only [decide_eq_true_eq]
    rintro rfl
    exact hname hc

/-- An entry that the records of a version have room for. -/
structure PakFile.Fits (version : ℕ) (e : PakFile) : Prop where
  length_name : e.name.length < 256
  name : 0 ∉ e.name
  flags : e.flags < 256
  offset : e.offset < 2 ^ (if version = 18 then 48 else 64)
  sizeOnDisk : e.sizeOnDisk < 2 ^ (if version = 18 then 32 else 64)
  uncompressedSize : e.uncompressedSize < 2 ^ (if version = 18 then 32 else 64)
  part : e.part < 2 ^ (if version = 18 then 8 else 32)
  crc : e.crc < if version = 18 then 1 else 2 ^ 32

theorem length_toEntry {version : ℕ} {e : PakFile} (hsize : entrySize version = some size)
    (hname : e.name.length ≤ 256) : (toEntry version e).length = size := by
  unfold entrySize at hsize
  unfold toEntry
  by_cases hversion : version = 18
  · rw [if_pos hversion, Option.some.injEq] at hsize
    rw [if_pos hversion, entry18, ← hsize]
    simp [length_nameField hname]
  · rw [if_neg hversion] at hsize
    rw [if_neg hversion, entry15, ← Option.some.inj ((if_pos ?_).symm.trans hsize)]
    · simp [length_nameField hname]
    · by_contra hother
      rw [if_neg hother] at hsize
      cases hsize

/-- The two numbers that an offset of 48 bits is kept in. -/
theorem offset_eq {v : ℕ} (hv : v < 2 ^ 48) : v % 256 ^ 4 ||| (v >>> 32 % 256 ^ 2) <<< 32 = v := by
  have hlow : v % 2 ^ 32 < 2 ^ 32 := Nat.mod_lt v (Nat.two_pow_pos 32)
  rw [Nat.shiftRight_eq_div_pow, Nat.mod_eq_of_lt (show v / 2 ^ 32 < 256 ^ 2 by omega),
    show 256 ^ 4 = 2 ^ 32 by norm_num, Nat.or_comm, ← Nat.shiftLeft_add_eq_or_of_lt hlow, Nat.shiftLeft_eq]
  omega

theorem fromEntry18_entry18 {e : PakFile} (h : e.Fits 18) : fromEntry18 (entry18 e) = e := by
  obtain ⟨hlength, hname, hflags, hoffset, hdisk, huncompressed, hpart, hcrc⟩ := h
  have hfield := length_nameField (Nat.le_of_lt hlength)
  let numbers := [(4, e.offset), (2, e.offset >>> 32), (1, e.part), (1, e.flags), (4, e.sizeOnDisk),
    (4, e.uncompressedSize)]
  have hrecord : entry18 e = nameField e.name ++ fields numbers := by
    simp [entry18, fields, numbers]
  have hnumber (k : ℕ) (hk : k < 6) := field_fields numbers hfield (show k < numbers.length from hk)
  rw [← hrecord] at hnumber
  have hname' : slice (entry18 e) 0 256 = nameField e.name := by
    rw [hrecord, slice_append_left (by omega), slice_all hfield]
  have hlow : field (entry18 e) 256 4 = e.offset % 256 ^ 4 := hnumber 0 (by decide)
  have hhigh : field (entry18 e) 260 2 = e.offset >>> 32 % 256 ^ 2 := hnumber 1 (by decide)
  have hpart' : field (entry18 e) 262 1 = e.part := (hnumber 2 (by decide)).trans (Nat.mod_eq_of_lt hpart)
  have hflags' : field (entry18 e) 263 1 = e.flags :=
    (hnumber 3 (by decide)).trans (Nat.mod_eq_of_lt hflags)
  have hdisk' : field (entry18 e) 264 4 = e.sizeOnDisk :=
    (hnumber 4 (by decide)).trans (Nat.mod_eq_of_lt hdisk)
  have hsize' : field (entry18 e) 268 4 = e.uncompressedSize :=
    (hnumber 5 (by decide)).trans (Nat.mod_eq_of_lt huncompressed)
  unfold fromEntry18
  rw [hname', cString_nameField hlength hname, hlow, hhigh, offset_eq hoffset, hpart', hflags', hdisk',
    hsize', ← Nat.lt_one_iff.mp hcrc]

theorem fromEntry15_entry15 {version : ℕ} {e : PakFile} (hversion : version ≠ 18) (h : e.Fits version) :
    fromEntry15 (entry15 e) = e := by
  obtain ⟨hlength, hname, hflags, hoffset, hdisk, huncompressed, hpart, hcrc⟩ := h
  rw [if_neg hversion] at hoffset hdisk huncompressed hpart hcrc
  have hfield := length_nameField (Nat.le_of_lt hlength)
  let numbers := [(8, e.offset), (8, e.sizeOnDisk), (8, e.uncompressedSize), (4, e.part), (4, e.flags),
    (4, e.crc), (4, 0)]
  have hrecord : entry15 e = nameField e.name ++ fields numbers := by
    simp [entry15, fields, numbers]
  have hnumber (k : ℕ) (hk : k < 7) := field_fields numbers hfield (show k < numbers.length from hk)
  rw [← hrecord] at hnumber
  have hname' : slice (entry15 e) 0 256 = nameField e.name := by
    rw [hrecord, slice_append_left (by omega), slice_all hfield]
  have hoffset' : field (entry15 e) 256 8 = e.offset :=
    (hnumber 0 (by decide)).trans (Nat.mod_eq_of_lt hoffset)
  have hdisk' : field (entry15 e) 264 8 = e.sizeOnDisk :=
    (hnumber 1 (by decide)).trans (Nat.mod_eq_of_lt hdisk)
  have hsize' : field (entry15 e) 272 8 = e.uncompressedSize :=
    (hnumber 2 (by decide)).trans (Nat.mod_eq_of_lt huncompressed)
  have hpart' : field (entry15 e) 280 4 = e.part :=
    (hnumber 3 (by decide)).trans (Nat.mod_eq_of_lt hpart)
  have hflags' : field (entry15 e) 284 4 = e.flags :=
    (hnumber 4 (by decide)).trans (Nat.mod_eq_of_lt (hflags.trans (show 256 < 256 ^ 4 by decide)))
  have hcrc' : field (entry15 e) 288 4 = e.crc :=
    (hnumber 5 (by decide)).trans (Nat.mod_eq_of_lt hcrc)
  unfold fromEntry15
  rw [hname', cString_nameField hlength hname, hoffset', hdisk', hsize', hpart', hflags', hcrc',
    Nat.mod_eq_of_lt hflags]

/-- An entry is read back from its record. -/
theorem fromEntry_toEntry {version : ℕ} {e : PakFile} (h : e.Fits version) :
    fromEntry version (toEntry version e) = e := by
  unfold fromEntry toEntry
  by_cases hversion : version = 18
  · subst hversion
    rw [if_pos rfl, if_pos rfl, fromEntry18_entry18 h]
  · rw [if_neg hversion, if_neg hversion, fromEntry15_entry15 hversion h]

/-! ## Lists -/

theorem length_entries {version : ℕ} {entries : List PakFile} (hsize : entrySize version = some size)
    (hnames : ∀ e ∈ entries, e.name.length ≤ 256) :
    (entries.flatMap (toEntry version)).length = entries.length * size := by
  induction entries with
  | nil => simp
  | cons e entries ih =>
    rw [List.flatMap_cons, List.length_append, length_toEntry hsize (hnames e List.mem_cons_self),
      ih fun e he => hnames e (List.mem_cons_of_mem _ he), List.length_cons, Nat.succ_mul, Nat.add_comm]

/-- The entries that a list was written from. -/
theorem entries_eq {version : ℕ} {entries : List PakFile} (hsize : entrySize version = some size)
    (hfits : ∀ e ∈ entries, e.Fits version) :
    (List.range entries.length).map (fun i =>
      fromEntry version (slice (entries.flatMap (toEntry version)) (i * size) size)) = entries := by
  apply List.ext_getElem (by simp)
  intro i hi hi'
  have hlength : ∀ e ∈ entries, (toEntry version e).length = size := fun e he =>
    length_toEntry hsize (hfits e he).length_name.le
  rw [List.getElem_map, List.getElem_range, slice_flatMap _ hlength hi',
    fromEntry_toEntry (hfits _ (List.get_mem entries ⟨i, hi'⟩))]
  rfl

/-- The list block of some entries. -/
def listBlock (codecs : Codecs) (version : ℕ) (entries : List PakFile) : Bytes :=
  encode 4 entries.length ++ encode 4 (codecs.compressAll (entries.flatMap (toEntry version))).length
    ++ codecs.compressAll (entries.flatMap (toEntry version))

/-- What `pak_listing` needs to read some entries from a file that has their list block at `pos`. -/
structure Listed (codecs : Codecs) (version : ℕ) (entries : List PakFile) : Prop where
  readable : (entrySize version).isSome
  nonempty : entries ≠ []
  few : entries.length ≤ maxFiles
  fits : ∀ e ∈ entries, e.Fits version
  compresses : codecs.compressAll (entries.flatMap (toEntry version)) ≠ []
  small : (codecs.compressAll (entries.flatMap (toEntry version))).length ≤ maxListBytes

theorem compressAll_eq (codecs : Codecs) (hdata : data.length < 2 ^ 31) :
    codecs.compressAll data = codecs.compress data := by
  unfold Codecs.compressAll
  rw [Nat.mod_eq_of_lt (by omega), if_pos hdata, List.take_length]

theorem entrySize_le {version : ℕ} (hsize : entrySize version = some size) : size ≤ 296 := by
  unfold entrySize at hsize
  split at hsize
  · rw [← Option.some.inj hsize]
    decide
  · split at hsize
    · exact (Option.some.inj hsize).ge
    · cases hsize

theorem length_compressAll (codecs : Codecs) (data : Bytes) :
    (codecs.compressAll data).length < 2 ^ 31 := by
  unfold Codecs.compressAll
  split
  · exact codecs.length_compress _
  · exact Nat.two_pow_pos 31

/-- A file whose header leads to a list block at `pos`. -/
structure Leads (codecs : Codecs) (file header : Bytes) (version : ℕ) (pos : ℕ)
    (entries : List PakFile) : Prop where
  header_eq : fread file 0 headerSize = some header
  magic : header.take 4 = bytes "LSPK"
  version_eq : field header 4 4 = version
  offset_eq : field header 8 8 = pos
  pos_lt : pos < 2 ^ 63
  file_eq : ∃ pre post, file = pre ++ listBlock codecs version entries ++ post ∧ pre.length = pos
  few : entries.length < 2 ^ 32

/-- What `pak_listing` does once it has the two counts of the list block. -/
theorem pakListing_counts {version : ℕ} {entries : List PakFile} {header : Bytes}
    (hsize : entrySize version = some size) (h : Leads codecs file header version pos entries) :
    pakListing codecs file =
      if entries = [] ∨ maxFiles < entries.length ∨
          codecs.compressAll (entries.flatMap (toEntry version)) = [] ∨
          maxListBytes < (codecs.compressAll (entries.flatMap (toEntry version))).length then none
      else
        ((codecs.decompress (codecs.compressAll (entries.flatMap (toEntry version)))
          (entries.length * size)).filter fun out => out.length = entries.length * size).map fun list =>
            { version := version
              flags := field header 20 1
              parts := if version = 18 then field header 38 2 else 1
              listOffset := pos
              listSize := field header 16 4
              listCompressed := (codecs.compressAll (entries.flatMap (toEntry version))).length
              files := (List.range entries.length).map fun i =>
                fromEntry version (slice list (i * size) size) } := by
  obtain ⟨pre, post, hfile, hpre⟩ := h.file_eq
  have hlarge := length_compressAll codecs (entries.flatMap (toEntry version))
  generalize hp : codecs.compressAll (entries.flatMap (toEntry version)) = packed at *
  -- the two counts in front of the block are read as they were written
  have hcounts : readAt file pos 8 = some (encode 4 entries.length ++ encode 4 packed.length) := by
    rw [readAt_eq h.pos_lt, hfile, listBlock, hp, ← List.append_assoc pre, List.append_assoc]
    exact fread_between hpre (by simp)
  have hcount : field (encode 4 entries.length ++ encode 4 packed.length) 0 4 = entries.length := by
    rw [field_head, Nat.mod_eq_of_lt (show entries.length < 256 ^ 4 from h.few)]
  have hsizes : field (encode 4 entries.length ++ encode 4 packed.length) 4 4 = packed.length :=
    (field_fields [(4, packed.length)] (length_encode 4 entries.length) Nat.one_pos).trans
      (Nat.mod_eq_of_lt (show packed.length < 256 ^ 4 by omega))
  have hblock : fread file (pos + 8) packed.length = some packed := by
    rw [hfile, listBlock, hp, ← List.append_assoc pre]
    exact fread_between (by simp [hpre]) rfl
  -- each check of the reader then decides as the counts do
  unfold pakListing
  rw [h.header_eq]
  simp only [Option.bind_eq_bind, Option.bind_some]
  rw [if_neg (not_not.mpr h.magic), h.version_eq, hsize, h.offset_eq]
  simp only [Option.bind_some]
  rw [hcounts]
  simp only [Option.bind_some]
  rw [hcount, hsizes, hblock]
  simp only [Option.bind_some, List.length_eq_zero_iff]
  congr 1
  generalize (codecs.decompress packed (entries.length * size)).filter
    (fun out => out.length = entries.length * size) = list
  cases list <;> rfl

/-- `pak_listing` gives the entries of a list block that the header leads to. -/
theorem pakListing_eq (hcodecs : codecs.Undoes) {version : ℕ} {entries : List PakFile} {header : Bytes}
    (hlisted : Listed codecs version entries) (h : Leads codecs file header version pos entries) :
    pakListing codecs file = some {
      version := version
      flags := field header 20 1
      parts := if version = 18 then field header 38 2 else 1
      listOffset := pos
      listSize := field header 16 4
      listCompressed := (codecs.compressAll (entries.flatMap (toEntry version))).length
      files := entries } := by
  obtain ⟨size, hsize⟩ := Option.isSome_iff_exists.mp hlisted.readable
  have hsmall : entries.length * size ≤ maxFiles * 296 :=
    Nat.mul_le_mul hlisted.few (entrySize_le hsize)
  have hlist := length_entries hsize fun e he => (hlisted.fits e he).length_name.le
  have hbytes : (entries.flatMap (toEntry version)).length < 2 ^ 31 := by
    rw [hlist]
    exact hsmall.trans_lt (by decide)
  have hcompress := compressAll_eq codecs hbytes
  have hundone := hcodecs (entries.flatMap (toEntry version)) (hcompress ▸ hlisted.compresses)
  have hlimits : ¬(entries = [] ∨ maxFiles < entries.length ∨
      codecs.compressAll (entries.flatMap (toEntry version)) = [] ∨
      maxListBytes < (codecs.compressAll (entries.flatMap (toEntry version))).length) := by
    have hfew := hlisted.few
    have hpacked := hlisted.small
    simp only [hlisted.nonempty, hlisted.compresses, false_or, not_or, Nat.not_lt]
    exact ⟨hfew, hpacked⟩
  rw [pakListing_counts hsize h, if_neg hlimits]
  rw [← hcompress, hlist] at hundone
  rw [hundone, Option.filter_some, if_pos (decide_eq_true hlist), Option.map_some,
    entries_eq hsize hlisted.fits]

/-- `pak_listing` refuses a list that is too long. -/
theorem pakListing_long {version : ℕ} {entries : List PakFile} {header : Bytes}
    (hsize : entrySize version = some size) (h : Leads codecs file header version pos entries)
    (hlong : maxFiles < entries.length ∨
      maxListBytes < (codecs.compressAll (entries.flatMap (toEntry version))).length) :
    pakListing codecs file = none := by
  rw [pakListing_counts hsize h, if_pos]
  rcases hlong with hmany | hlarge
  · exact Or.inr (Or.inl hmany)
  · exact Or.inr (Or.inr (Or.inr hlarge))

end Pak
end Bg3le
