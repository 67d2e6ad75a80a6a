import Bg3le.Pak.ListingTheorems

/-!
# Archives that `pak_write` wrote

`pak_list` gives their names again and `pak_read` their contents, but for the empty ones.
-/

namespace Bg3le
namespace Pak

open LittleEndian

variable {codecs : Codecs} {files : List (Bytes × Bytes)} {archive path : Bytes} {pos : ℕ}

/-! ## Entries -/

theorem length_entriesFrom (pos : ℕ) (files : List (Bytes × Bytes)) :
    (entriesFrom pos files).length = files.length := by
  induction files generalizing pos with
  | nil => rfl
  | cons file files ih => rw [entriesFrom, List.length_cons, ih, List.length_cons]

theorem names_entriesFrom (pos : ℕ) (files : List (Bytes × Bytes)) :
    (entriesFrom pos files).map PakFile.name = files.map Prod.fst := by
  induction files generalizing pos with
  | nil => rfl
  | cons file files ih => rw [entriesFrom, List.map_cons, ih, List.map_cons]

/-- An entry is that of one of the files, within the contents. -/
theorem mem_entriesFrom {e : PakFile} (he : e ∈ entriesFrom pos files) :
    ∃ file ∈ files, ∃ start, start + file.2.length ≤ pos + (contentsOf files).length ∧
      e = ⟨file.1, start, file.2.length, 0, 0, 0, 0⟩ := by
  induction files generalizing pos with
  | nil => cases he
  | cons file files ih =>
    have htotal : (contentsOf (file :: files)).length = file.2.length + (contentsOf files).length := by
      unfold contentsOf
      rw [List.flatMap_cons, List.length_append]
    rw [entriesFrom, List.mem_cons] at he
    rcases he with rfl | he
    · exact ⟨file, List.mem_cons_self, pos, by omega, rfl⟩
    · obtain ⟨file', hfile', start, hstart, rfl⟩ := ih he
      exact ⟨file', List.mem_cons_of_mem _ hfile', start, by omega, rfl⟩

/-- Files that fit an archive: their names fit their records, and offsets, sizes and their number the
numbers that they are kept in. -/
structure Writable (files : List (Bytes × Bytes)) : Prop where
  nonempty : files ≠ []
  length_name : ∀ file ∈ files, file.1.length < 256
  name : ∀ file ∈ files, 0 ∉ file.1
  contents : ∀ file ∈ files, file.2.length ≤ 2 ^ 28
  small : headerSize + (contentsOf files).length < 2 ^ 48
  few : files.length < 2 ^ 32

theorem Writable.fits (h : Writable files) {e : PakFile} (he : e ∈ entriesFrom headerSize files) :
    e.Fits 18 := by
  obtain ⟨file, hfile, start, hstart, rfl⟩ := mem_entriesFrom he
  have hcontents := h.contents file hfile
  have hsmall := h.small
  exact ⟨h.length_name file hfile, h.name file hfile, by simp, by simp; omega, by simp; omega, by simp,
    by simp, by simp⟩

/-! ## Contents -/

/-- A stored entry is read from where its contents are, unless it is empty. -/
theorem readEntry_stored (codecs : Codecs) {pre contents : Bytes} (post : Bytes)
    (hpre : pre.length = pos) (hpos : pos < 2 ^ 63)
    (hcontents : contents.length ≤ maxFileBytes) (name : Bytes) (part crc : ℕ) (buffer : Bool) :
    (readEntry codecs (pre ++ contents ++ post) ⟨name, pos, contents.length, 0, 0, part, crc⟩ buffer).1 =
      if contents = [] then none else some contents := by
  unfold readEntry
  by_cases hempty : contents = []
  · rw [if_pos (Or.inl (by rw [hempty]; rfl)), if_pos hempty]
  · have hlength : contents.length ≠ 0 := fun h => hempty (List.length_eq_zero_iff.mp h)
    rw [if_neg (by simp [hempty, hcontents]), if_neg hempty, readAt_eq hpos, fread_between hpre rfl]
    simp [PakFile.method]

theorem readEach_cons {files' : Bytes → Option Bytes} {file : Bytes} {e : PakFile}
    (hfile : files' (if e.part = 0 then path else partName path e.part) = some file)
    (entries : List PakFile) (buffer : Bool) :
    readEach codecs files' path buffer (e :: entries) =
      (readEntry codecs file e buffer).1.toList.map (fun contents => (e.name, contents)) ++
        readEach codecs files' path (readEntry codecs file e buffer).2 entries := by
  rw [readEach, hfile]

/-- `pak_read` gives the contents of the entries, one after another. -/
theorem readEach_entriesFrom (codecs : Codecs) {files' : Bytes → Option Bytes} {pre post : Bytes}
    (hfile : files' path = some (pre ++ contentsOf files ++ post)) (hpre : pre.length = pos)
    (hsmall : pos + (contentsOf files).length < 2 ^ 63)
    (hcontents : ∀ file ∈ files, file.2.length ≤ maxFileBytes) (buffer : Bool) :
    readEach codecs files' path buffer (entriesFrom pos files) = files.filter fun file => file.2 ≠ [] := by
  induction files generalizing pos pre buffer with
  | nil => rfl
  | cons file files ih =>
    have htotal : contentsOf (file :: files) = file.2 ++ contentsOf files := List.flatMap_cons
    rw [htotal, List.length_append] at hsmall
    rw [htotal, ← List.append_assoc] at hfile
    have hrest (buffer : Bool) := ih hfile (by rw [List.length_append, hpre]) (by omega)
      (fun file hfile => hcontents file (List.mem_cons_of_mem _ hfile)) buffer
    have hread := readEntry_stored codecs (contentsOf files ++ post) hpre (by omega)
      (hcontents file List.mem_cons_self) file.1 0 0 buffer
    rw [List.append_assoc] at hfile
    rw [entriesFrom, readEach_cons hfile, hrest, hread, List.filter_cons]
    by_cases hempty : file.2 = []
    · simp [hempty]
    · simp [hempty]

/-! ## Round trip -/

theorem length_headerOf (listOffset compressed : ℕ) : (headerOf listOffset compressed).length = 40 := by
  unfold headerOf
  simp [bytes]

/-- The fields of the header. -/
theorem field_headerOf (listOffset compressed : ℕ) :
    (headerOf listOffset compressed).take 4 = bytes "LSPK" ∧
      field (headerOf listOffset compressed) 4 4 = 18 ∧
      field (headerOf listOffset compressed) 8 8 = listOffset % 256 ^ 8 ∧
      field (headerOf listOffset compressed) 38 2 = 1 := by
  let numbers := [(4, 18), (8, listOffset), (4, compressed + 8), (18, 0), (2, 1)]
  have hheader : headerOf listOffset compressed = bytes "LSPK" ++ fields numbers := by
    simp [headerOf, fields, numbers]
    rfl
  have hmagic : (bytes "LSPK").length = 4 := rfl
  have hnumber (k : ℕ) (hk : k < 5) := field_fields numbers hmagic (show k < numbers.length from hk)
  rw [← hheader] at hnumber
  refine ⟨?_, hnumber 0 (by decide), hnumber 1 (by decide), hnumber 4 (by decide)⟩
  rw [hheader, List.take_left' hmagic]

/-- What a list block written by `pak_write` needs to be read: no more files than are read, and a
compressed list of no more bytes. -/
structure Readable (codecs : Codecs) (files : List (Bytes × Bytes)) : Prop where
  few : files.length ≤ maxFiles
  small : (codecs.compressAll ((entriesFrom headerSize files).flatMap entry18)).length ≤ maxListBytes

/-- What `pak_write` writes when it returns true. -/
theorem pakWrite_eq (hwrite : pakWrite codecs files = some archive) :
    codecs.compressAll ((entriesFrom headerSize files).flatMap entry18) ≠ [] ∧
      archive = headerOf (headerSize + (contentsOf files).length)
        (codecs.compressAll ((entriesFrom headerSize files).flatMap entry18)).length ++
          contentsOf files ++ listBlock codecs 18 (entriesFrom headerSize files) := by
  unfold pakWrite at hwrite
  split at hwrite
  · cases hwrite
  · by_cases hpacked : codecs.compressAll ((entriesFrom headerSize files).flatMap entry18) = []
    · simp [hpacked] at hwrite
    · refine ⟨hpacked, ?_⟩
      rw [if_neg hpacked, Option.some.injEq] at hwrite
      rw [← hwrite, listBlock, length_entriesFrom]
      simp only [List.append_assoc]
      rfl

theorem listed_entriesFrom (hwritable : Writable files) (hreadable : Readable codecs files)
    (hpacked : codecs.compressAll ((entriesFrom headerSize files).flatMap entry18) ≠ []) :
    Listed codecs 18 (entriesFrom headerSize files) where
  readable := rfl
  nonempty := by
    intro hnil
    have hlength := congrArg List.length hnil
    rw [length_entriesFrom] at hlength
    exact hwritable.nonempty (List.length_eq_zero_iff.mp hlength)
  few := by
    rw [length_entriesFrom]
    exact hreadable.few
  fits := fun _ => hwritable.fits
  compresses := hpacked
  small := hreadable.small

/-- The header of the archive leads to its list. -/
theorem leads_pakWrite (hwritable : Writable files) (hwrite : pakWrite codecs files = some archive) :
    Leads codecs archive (headerOf (headerSize + (contentsOf files).length)
      (codecs.compressAll ((entriesFrom headerSize files).flatMap entry18)).length) 18
      (headerSize + (contentsOf files).length) (entriesFrom headerSize files) := by
  obtain ⟨-, harchive⟩ := pakWrite_eq hwrite
  have hsmall := hwritable.small
  obtain ⟨hmagic, hversion, hoffset, -⟩ := field_headerOf (headerSize + (contentsOf files).length)
    (codecs.compressAll ((entriesFrom headerSize files).flatMap entry18)).length
  rw [Nat.mod_eq_of_lt (by omega)] at hoffset
  refine ⟨?_, hmagic, hversion, hoffset, by omega, ⟨_, [], harchive.trans (List.append_nil _).symm, ?_⟩, ?_⟩
  · rw [harchive, List.append_assoc]
    exact fread_between List.length_nil (length_headerOf _ _)
  · rw [List.length_append, length_headerOf]
    rfl
  · rw [length_entriesFrom]
    exact hwritable.few

/-- `pak_listing` gives the entries that were written. -/
theorem pakListing_pakWrite (hcodecs : codecs.Undoes) (hwritable : Writable files)
    (hreadable : Readable codecs files) (hwrite : pakWrite codecs files = some archive) :
    ∃ listing, pakListing codecs archive = some listing ∧ listing.version = 18 ∧ listing.parts = 1 ∧
      listing.files = entriesFrom headerSize files := by
  have hpacked := (pakWrite_eq hwrite).1
  have hlisting := pakListing_eq hcodecs (listed_entriesFrom hwritable hreadable hpacked)
    (leads_pakWrite hwritable hwrite)
  obtain ⟨-, -, -, hparts⟩ := field_headerOf (headerSize + (contentsOf files).length)
    (codecs.compressAll ((entriesFrom headerSize files).flatMap entry18)).length
  exact ⟨_, hlisting, rfl, hparts, rfl⟩

theorem not_readable_iff :
    ¬Readable codecs files ↔ maxFiles < (entriesFrom headerSize files).length ∨
      maxListBytes < (codecs.compressAll ((entriesFrom headerSize files).flatMap entry18)).length := by
  rw [length_entriesFrom]
  constructor
  · intro h
    by_contra hfits
    rw [not_or, Nat.not_lt, Nat.not_lt] at hfits
    exact h ⟨hfits.1, hfits.2⟩
  · intro h hreadable
    have hfew := hreadable.few
    have hsmall := hreadable.small
    omega

section Reading

variable {disk : Bytes → Option Bytes} {lists : Lists} {entries : List PakFile}

theorem readList_known (h : lists path = some entries) :
    readList codecs disk path lists = (some entries, lists) := by
  unfold readList
  rw [h]

/-- The list of the archive is read the first time, and kept if it is short. -/
theorem readList_pakWrite (hcodecs : codecs.Undoes) (hwritable : Writable files)
    (hreadable : Readable codecs files) (hwrite : pakWrite codecs files = some archive)
    (hdisk : disk path = some archive) (hnew : lists path = none) :
    (readList codecs disk path lists).1 = some (entriesFrom headerSize files) ∧
      ((readList codecs disk path lists).2 = lists ∨
        (readList codecs disk path lists).2 path = some (entriesFrom headerSize files)) := by
  obtain ⟨listing, hlisting, -, hparts, hfiles⟩ :=
    pakListing_pakWrite hcodecs hwritable hreadable hwrite
  have hfilter : listing.files.filter (fun e => e.part = 0 || partsWanted path) =
      entriesFrom headerSize files := by
    rw [hfiles]
    apply List.filter_eq_self.mpr
    intro e he
    obtain ⟨file, -, start, -, rfl⟩ := mem_entriesFrom he
    simp
  unfold readList
  rw [hnew, hdisk, Option.bind_some, hlisting]
  simp only
  rw [if_neg (by simp [hparts]), hfilter]
  refine ⟨rfl, ?_⟩
  by_cases hfew : (entriesFrom headerSize files).length ≤ cacheableEntries
  · right
    rw [if_pos hfew]
    exact Function.update_self _ _ _
  · left
    rw [if_neg hfew]

/-- What `pak_list` and `pak_read` give when the list is read. -/
theorem read_pakWrite (hwritable : Writable files) (hwrite : pakWrite codecs files = some archive)
    (hdisk : disk path = some archive)
    (hread : (readList codecs disk path lists).1 = some (entriesFrom headerSize files)) :
    (pakList codecs disk path lists).1 = some (files.map Prod.fst) ∧
      (pakRead codecs disk path (fun _ => true) lists).1 =
        some (files.filter fun file => file.2 ≠ []) := by
  obtain ⟨-, harchive⟩ := pakWrite_eq hwrite
  have hsmall := hwritable.small
  have hnonempty : entriesFrom headerSize files ≠ [] := by
    intro hnil
    have hlength := congrArg List.length hnil
    rw [length_entriesFrom] at hlength
    exact hwritable.nonempty (List.length_eq_zero_iff.mp hlength)
  have hheader := length_headerOf (headerSize + (contentsOf files).length)
    (codecs.compressAll ((entriesFrom headerSize files).flatMap entry18)).length
  have heach := readEach_entriesFrom codecs (hdisk.trans (congrArg some harchive)) hheader
    (show 40 + (contentsOf files).length < 2 ^ 63 by unfold headerSize at hsmall; omega)
    hwritable.contents false
  have hpair : readList codecs disk path lists =
      (some (entriesFrom headerSize files), (readList codecs disk path lists).2) := Prod.ext hread rfl
  constructor
  · unfold pakList
    rw [hpair]
    exact congrArg some (names_entriesFrom headerSize files)
  · unfold pakRead
    rw [hpair]
    simp only [List.filter_true]
    rw [if_neg hnonempty, hdisk]
    exact congrArg some heach

/-- A list that is too long is not read. -/
theorem read_long (hwritable : Writable files) (hlong : ¬Readable codecs files)
    (hwrite : pakWrite codecs files = some archive) (hdisk : disk path = some archive)
    (hnew : lists path = none) : readList codecs disk path lists = (none, lists) := by
  have hnone : pakListing codecs archive = none :=
    pakListing_long rfl (leads_pakWrite hwritable hwrite) (not_readable_iff.mp hlong)
  unfold readList
  rw [hnew, hdisk, Option.bind_some, hnone]

/-- An archive that `pak_write` wrote has the names it was given, and the contents that are not empty,
whether its list was read before or not. One with a list that is too long cannot be read. -/
theorem pakRead_pakWrite (hcodecs : codecs.Undoes) (hwritable : Writable files)
    (hwrite : pakWrite codecs files = some archive) (hdisk : disk path = some archive)
    (hnew : lists path = none) :
    (Readable codecs files →
      (pakList codecs disk path lists).1 = some (files.map Prod.fst) ∧
        (pakRead codecs disk path (fun _ => true) lists).1 =
          some (files.filter fun file => file.2 ≠ []) ∧
        (pakRead codecs disk path (fun _ => true) (pakList codecs disk path lists).2).1 =
          some (files.filter fun file => file.2 ≠ [])) ∧
      (¬Readable codecs files →
        (pakList codecs disk path lists).1 = none ∧
          (pakRead codecs disk path (fun _ => true) lists).1 = none) := by
  constructor
  · intro hreadable
    obtain ⟨hread, hkept⟩ := readList_pakWrite hcodecs hwritable hreadable hwrite hdisk hnew
    obtain ⟨hlist, hfirst⟩ := read_pakWrite hwritable hwrite hdisk hread
    have hagain : (readList codecs disk path (readList codecs disk path lists).2).1 =
        some (entriesFrom headerSize files) := by
      rcases hkept with hsame | hkept
      · rw [hsame, hread]
      · rw [readList_known hkept]
    exact ⟨hlist, hfirst, (read_pakWrite hwritable hwrite hdisk hagain).2⟩
  · intro hlong
    have hread := read_long hwritable hlong hwrite hdisk hnew
    unfold pakList pakRead
    rw [hread]
    exact ⟨rfl, rfl⟩

end Reading

/-! ## A small archive -/

/-- Two files, of which one is empty. -/
def twoFiles : List (Bytes × Bytes) := [(bytes "a", bytes "b"), (bytes "c", [])]

/-- The block that LZ4 makes of their entries. -/
def twoPacked : Bytes := [47, 97, 0, 1, 0, 235, 19, 40, 255, 0, 19, 1, 8, 0, 19, 99, 8, 0, 15, 2, 0, 229,
  22, 41, 249, 0, 80, 0, 0, 0, 0, 0]

/-- LZ4 as far as some data and their blocks go. Other data are kept as they are behind a mark, which
no block begins with. -/
def lz4Of (blocks : List (Bytes × Bytes)) (hshort : ∀ block ∈ blocks, block.2.length < 2 ^ 31) :
    Codecs where
  compress data :=
    match blocks.find? fun (block : Bytes × Bytes) => block.1 = data with
    | some block => block.2
    | none => if data.length < 2 ^ 30 then 255 :: data else []
  decompress packed size :=
    (match blocks.find? fun (block : Bytes × Bytes) => block.2 = packed with
    | some block => some block.1
    | none => if packed.head? = some 255 then some packed.tail else none).filter
      fun out => out.length ≤ size
  zstd _ _ := none
  length_compress data := by
    split
    · next hblock => exact hshort _ (List.mem_of_find?_eq_some hblock)
    · split
      · rw [List.length_cons]
        omega
      · decide

/-- Blocks that are not each other's, or marked, are undone. -/
theorem lz4Of_undoes {blocks : List (Bytes × Bytes)}
    (hshort : ∀ block ∈ blocks, block.2.length < 2 ^ 31)
    (hdistinct : ∀ a ∈ blocks, ∀ b ∈ blocks, a.2 = b.2 → a = b)
    (hmark : ∀ block ∈ blocks, block.2.head? ≠ some 255) : (lz4Of blocks hshort).Undoes := by
  intro data hdata
  cases hfind : blocks.find? fun block => block.1 = data with
  | some block =>
    have hmem := List.mem_of_find?_eq_some hfind
    have hblock : block.1 = data := by simpa using List.find?_some hfind
    have hagain : (blocks.find? fun other => other.2 = block.2) = some block := by
      obtain ⟨other, hother⟩ := Option.isSome_iff_exists.mp
        (List.find?_isSome.mpr
          (⟨block, hmem, by simp⟩ : ∃ other ∈ blocks, decide (other.2 = block.2) = true))
      have hpacked : other.2 = block.2 := by simpa using List.find?_some hother
      rw [hother, hdistinct other (List.mem_of_find?_eq_some hother) block hmem hpacked]
    simp [lz4Of, hfind, hagain, hblock]
  | none =>
    have hfew : data.length < 2 ^ 30 := by
      by_contra hmany
      exact hdata (by simp only [lz4Of, hfind, if_neg hmany])
    have hcompress : (lz4Of blocks hshort).compress data = 255 :: data := by
      simp only [lz4Of, hfind, if_pos hfew]
    have hagain : (blocks.find? fun block => block.2 = 255 :: data) = none := by
      rw [List.find?_eq_none]
      intro block hblock heq
      exact hmark block hblock (by simp [of_decide_eq_true heq])
    rw [hcompress]
    simp [lz4Of, hagain]

def twoCodecs : Codecs :=
  lz4Of [((entriesFrom headerSize twoFiles).flatMap entry18, twoPacked)] (by decide)

theorem twoCodecs_undoes : twoCodecs.Undoes := lz4Of_undoes (by decide) (by simp) (by decide)

theorem writable_twoFiles : Writable twoFiles :=
  ⟨by decide, by decide, by decide, by decide, by decide, by decide⟩

theorem readable_twoFiles : Readable twoCodecs twoFiles := ⟨by decide, by decide +kernel⟩

/-- The empty file is not given back. -/
theorem empty_not_read : twoCodecs.Undoes ∧ Writable twoFiles ∧ (pakWrite twoCodecs twoFiles).isSome ∧
    ∀ archive, pakWrite twoCodecs twoFiles = some archive →
      (pakRead twoCodecs (fun _ => some archive) (bytes "x.pak") (fun _ => true) fun _ => none).1 ≠
        some twoFiles := by
  have hread : ((pakWrite twoCodecs twoFiles).map fun archive =>
      (pakRead twoCodecs (fun _ => some archive) (bytes "x.pak") (fun _ => true) fun _ => none).1) =
        some (some [(bytes "a", bytes "b")]) := by
    decide +kernel
  refine ⟨twoCodecs_undoes, writable_twoFiles, by decide +kernel, ?_⟩
  intro archive hwrite hsame
  rw [hwrite, Option.map_some, hsame] at hread
  exact absurd hread (by decide)

/-- The names and the contents of the two files. -/
theorem pakRead_pakWrite_two :
    (pakList twoCodecs (fun _ => pakWrite twoCodecs twoFiles) (bytes "x.pak") fun _ => none).1 =
        some [bytes "a", bytes "c"] ∧
      (pakRead twoCodecs (fun _ => pakWrite twoCodecs twoFiles) (bytes "x.pak") (fun _ => true)
        fun _ => none).1 = some [(bytes "a", bytes "b")] := by
  have hsome : (pakWrite twoCodecs twoFiles).isSome := by decide +kernel
  obtain ⟨archive, hwrite⟩ := Option.isSome_iff_exists.mp hsome
  obtain ⟨hlist, hread, -⟩ := (@pakRead_pakWrite twoCodecs twoFiles archive (bytes "x.pak")
    (fun _ => pakWrite twoCodecs twoFiles) (fun _ => none) twoCodecs_undoes writable_twoFiles hwrite
    hwrite rfl).1 readable_twoFiles
  exact ⟨hlist, hread⟩

end Pak
end Bg3le
