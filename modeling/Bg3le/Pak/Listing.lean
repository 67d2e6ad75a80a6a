import Bg3le.Library.LittleEndian
import Bg3le.Library.Slots
import Bg3le.Pak.Inflate
import Bg3le.Pak.Names

/-!
# LSPK archives (`pak.cpp`)

A file is the list of its bytes. Its list of entries is an LZ4 block of fixed-size records, in one of
two shapes.
-/

namespace Bg3le
namespace Pak

open LittleEndian

def headerSize : ℕ := 40
def maxFiles : ℕ := 4 <<< 20
def maxListBytes : ℕ := 1 <<< 28
def maxFileBytes : ℕ := 1 <<< 28
def cacheableEntries : ℕ := 8192

/-- The LZ4 and Zstandard functions that are called. `compress` gives no bytes where
`LZ4_compress_default` gives no positive `int`, and a decoder gives nothing where it fails. -/
structure Codecs where
  compress : Bytes → Bytes
  decompress : Bytes → ℕ → Option Bytes
  zstd : Bytes → ℕ → Option Bytes
  length_compress : ∀ data, (compress data).length < 2 ^ 31

/-- What was compressed is decoded into a buffer of its size. -/
def Codecs.Undoes (codecs : Codecs) : Prop :=
  ∀ data, codecs.compress data ≠ [] → codecs.decompress (codecs.compress data) data.length = some data

/-- `LZ4_compress_default` over a buffer, whose size it takes as an `int`. -/
def Codecs.compressAll (codecs : Codecs) (data : Bytes) : Bytes :=
  if data.length % 2 ^ 32 < 2 ^ 31 then codecs.compress (data.take (data.length % 2 ^ 32)) else []

/-! ## Files -/

/-- `fread` at a position of a file. -/
def fread (file : Bytes) (pos size : ℕ) : Option Bytes :=
  if file.length < pos + size then none else some (slice file pos size)

/-- `read_at`. An offset that is negative as a `long` cannot be sought. -/
def readAt (file : Bytes) (offset size : ℕ) : Option Bytes :=
  if 2 ^ 63 ≤ offset then none else fread file offset size

/-- `fwrite` at a position of a file, which grows to hold the data. -/
def fwrite (file : Bytes) (pos : ℕ) (data : Bytes) : Bytes :=
  Slots.overwrite (file ++ List.replicate (pos + data.length - file.length) 0) pos data

/-- A number in a record. -/
def field (record : Bytes) (pos width : ℕ) : ℕ := decode (slice record pos width)

/-! ## Entries -/

/-- `PakFile`. -/
structure PakFile where
  name : Bytes
  offset : ℕ
  sizeOnDisk : ℕ
  uncompressedSize : ℕ
  flags : ℕ
  part : ℕ
  crc : ℕ
deriving DecidableEq

/-- `PakListing`. -/
structure PakListing where
  version : ℕ
  flags : ℕ
  parts : ℕ
  listOffset : ℕ
  listSize : ℕ
  listCompressed : ℕ
  files : List PakFile

/-- `Name` of an entry. -/
def nameField (name : Bytes) : Bytes := name ++ List.replicate (256 - name.length) 0

/-- The string that a `Name` begins with. -/
def cString (name : Bytes) : Bytes := name.takeWhile (· ≠ 0)

/-- `Entry18`. -/
def entry18 (file : PakFile) : Bytes :=
  nameField file.name ++ encode 4 file.offset ++ encode 2 (file.offset >>> 32) ++ encode 1 file.part
    ++ encode 1 file.flags ++ encode 4 file.sizeOnDisk ++ encode 4 file.uncompressedSize

/-- `Entry15`. -/
def entry15 (file : PakFile) : Bytes :=
  nameField file.name ++ encode 8 file.offset ++ encode 8 file.sizeOnDisk
    ++ encode 8 file.uncompressedSize ++ encode 4 file.part ++ encode 4 file.flags ++ encode 4 file.crc
    ++ encode 4 0

def fromEntry18 (raw : Bytes) : PakFile where
  name := cString (slice raw 0 256)
  offset := field raw 256 4 ||| field raw 260 2 <<< 32
  sizeOnDisk := field raw 264 4
  uncompressedSize := field raw 268 4
  flags := field raw 263 1
  part := field raw 262 1
  crc := 0

def fromEntry15 (raw : Bytes) : PakFile where
  name := cString (slice raw 0 256)
  offset := field raw 256 8
  sizeOnDisk := field raw 264 8
  uncompressedSize := field raw 272 8
  flags := field raw 284 4 % 256
  part := field raw 280 4
  crc := field raw 288 4

/-- The size of an entry in an archive of a version that is read. -/
def entrySize (version : ℕ) : Option ℕ :=
  if version = 18 then some 272 else if version = 15 ∨ version = 16 then some 296 else none

def toEntry (version : ℕ) (file : PakFile) : Bytes :=
  if version = 18 then entry18 file else entry15 file

def fromEntry (version : ℕ) (raw : Bytes) : PakFile :=
  if version = 18 then fromEntry18 raw else fromEntry15 raw

/-- The method that an entry is compressed with. -/
def PakFile.method (file : PakFile) : ℕ := file.flags &&& 0x0f

/-- `read_entry`. An empty vector has a buffer if it held something before: the contents that are
read, and whether there is one afterwards. -/
def readEntry (codecs : Codecs) (file : Bytes) (e : PakFile) (buffer : Bool) : Option Bytes × Bool :=
  if e.sizeOnDisk = 0 ∨ maxFileBytes < e.sizeOnDisk ∨ maxFileBytes < e.uncompressedSize then
    (none, buffer)
  else
    match readAt file e.offset e.sizeOnDisk with
    | none => (none, buffer)
    | some raw =>
      let size := e.uncompressedSize
      let resized := buffer || 0 < size
      match e.method with
      | 0 => (some raw, true)
      | 1 => (if resized then Inflate.inflate raw size else none, resized)
      | 2 => ((codecs.decompress raw size).filter fun out => out.length = size, resized)
      | 3 => ((codecs.zstd raw size).filter fun out => out.length = size, resized)
      | _ => (none, buffer)

/-! ## Listings -/

/-- `pak_listing`. -/
def pakListing (codecs : Codecs) (file : Bytes) : Option PakListing := do
  let header ← fread file 0 headerSize
  if header.take 4 ≠ bytes "LSPK" then none
  else
    let version := field header 4 4
    let listOffset := field header 8 8
    let size ← entrySize version
    let counts ← readAt file listOffset 8
    let count := field counts 0 4
    let compressed := field counts 4 4
    if count = 0 ∨ maxFiles < count ∨ compressed = 0 ∨ maxListBytes < compressed then none
    else
      let packed ← fread file (listOffset + 8) compressed
      let list ← (codecs.decompress packed (count * size)).filter fun out => out.length = count * size
      return {
        version := version
        flags := field header 20 1
        parts := if version = 18 then field header 38 2 else 1
        listOffset := listOffset
        listSize := field header 16 4
        listCompressed := compressed
        files := (List.range count).map fun i => fromEntry version (slice list (i * size) size) }

/-- `pak_file_read`, into an empty vector. -/
def pakFileRead (codecs : Codecs) (file : Bytes) (e : PakFile) : Option Bytes :=
  (readEntry codecs file e false).1

/-- `pak_file_empty`. -/
def pakFileEmpty (e : PakFile) : Bool :=
  e.sizeOnDisk = 0 || (e.method ≠ 0 && e.uncompressedSize = 0)

/-- `pak_write_listing`: what it makes of the file, unless it returns false. -/
def pakWriteListing (codecs : Codecs) (file : Bytes) (pos : ℕ) (listing : PakListing) : Option Bytes :=
  if listing.files.any fun e => 256 ≤ e.name.length then none
  else
    let packed := codecs.compressAll (listing.files.flatMap (toEntry listing.version))
    if packed = [] ∨ 2 ^ 63 ≤ pos then none
    else
      let block := encode 4 listing.files.length ++ encode 4 packed.length ++ packed
      let listSize := packed.length + (2 ^ 32 + listing.listSize - listing.listCompressed)
      some (fwrite (fwrite file pos block) 8 (encode 8 pos ++ encode 4 listSize))

/-! ## Reading an archive -/

/-- `parts_wanted`. -/
def partsWanted (path : Bytes) : Bool := (find (bytes "/Data/") path).isNone

/-- `part_name`. -/
def partName (path : Bytes) (part : ℕ) : Bytes :=
  (if 4 < path.length then path.take (path.length - 4) else path) ++ bytes "_" ++
    bytes (toString part) ++ bytes ".pak"

/-- `g_lists`. -/
abbrev Lists := Bytes → Option (List PakFile)

/-- `read_list`, with the files that can be opened. -/
def readList (codecs : Codecs) (files : Bytes → Option Bytes) (path : Bytes) (lists : Lists) :
    Option (List PakFile) × Lists :=
  match lists path with
  | some entries => (some entries, lists)
  | none =>
    match (files path).bind (pakListing codecs) with
    | none => (none, lists)
    | some listing =>
      let parts := partsWanted path
      if listing.version = 18 ∧ listing.parts ≠ 1 ∧ parts = false then (none, lists)
      else
        let entries := listing.files.filter fun e => e.part = 0 || parts
        (some entries,
          if entries.length ≤ cacheableEntries then Function.update lists path (some entries) else lists)

/-- `pak_list`: the names that the sink is called with, unless it returns false. -/
def pakList (codecs : Codecs) (files : Bytes → Option Bytes) (path : Bytes) (lists : Lists) :
    Option (List Bytes) × Lists :=
  let (entries, lists) := readList codecs files path lists
  (entries.map (List.map PakFile.name), lists)

/-- The loop of `pak_read`: the names and contents of the entries that can be read. -/
def readEach (codecs : Codecs) (files : Bytes → Option Bytes) (path : Bytes) :
    Bool → List PakFile → List (Bytes × Bytes)
  | _, [] => []
  | buffer, e :: entries =>
    match files (if e.part = 0 then path else partName path e.part) with
    | none => readEach codecs files path buffer entries
    | some file =>
      let (contents, buffer) := readEntry codecs file e buffer
      contents.toList.map (fun contents => (e.name, contents)) ++
        readEach codecs files path buffer entries

/-- `pak_read`: what the sink is called with, unless it returns false. -/
def pakRead (codecs : Codecs) (files : Bytes → Option Bytes) (path : Bytes) (accept : Bytes → Bool)
    (lists : Lists) : Option (List (Bytes × Bytes)) × Lists :=
  match readList codecs files path lists with
  | (none, lists) => (none, lists)
  | (some entries, lists) =>
    let wanted := entries.filter fun e => accept e.name
    if wanted = [] then (some [], lists)
    else ((files path).map fun _ => readEach codecs files path false wanted, lists)

/-! ## Writing an archive -/

/-- The loop of `pak_write` over the files: their entries, with the contents from `pos` on. -/
def entriesFrom : ℕ → List (Bytes × Bytes) → List PakFile
  | _, [] => []
  | pos, (name, contents) :: files =>
    ⟨name, pos, contents.length, 0, 0, 0, 0⟩ :: entriesFrom (pos + contents.length) files

/-- The contents of the files one after another. -/
def contentsOf (files : List (Bytes × Bytes)) : Bytes := files.flatMap Prod.snd

/-- The header of an archive with its list at an offset. -/
def headerOf (listOffset compressed : ℕ) : Bytes :=
  bytes "LSPK" ++ encode 4 18 ++ encode 8 listOffset ++ encode 4 (compressed + 8)
    ++ List.replicate 18 0 ++ encode 2 1

/-- `pak_write`: the archive that it writes, unless it returns false. -/
def pakWrite (codecs : Codecs) (files : List (Bytes × Bytes)) : Option Bytes :=
  if files.any fun file => 256 ≤ file.1.length then none
  else
    let entries := entriesFrom headerSize files
    let listOffset := headerSize + (contentsOf files).length
    let packed := codecs.compressAll (entries.flatMap entry18)
    if packed = [] then none
    else
      some (headerOf listOffset packed.length ++ contentsOf files ++ encode 4 files.length
        ++ encode 4 packed.length ++ packed)

end Pak
end Bg3le
