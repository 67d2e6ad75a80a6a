import Bg3le.Pak.Fixer
import Bg3le.Pak.Lsf

/-!
# Fixed copies of archives (`pak_fix_build`)

A copy has the edited files behind what it starts with: all of the archive, or its header alone,
where the archive itself is the second part.
-/

namespace Bg3le
namespace Pak

open LittleEndian

def kMaxScanBytes : ℕ := 32 <<< 20
def kAlign : ℕ := 64

/-! ## Checksums -/

/-- A bit of the loop that builds the table of `crc32`. -/
def crcBit (c : UInt32) : UInt32 := if c &&& 1 ≠ 0 then (0xedb88320 : UInt32) ^^^ (c >>> 1) else c >>> 1

/-- `table` of `crc32`. -/
def crcTable (i : UInt32) : UInt32 := crcBit^[8] i

/-- `crc32`. -/
def crc32 (data : Bytes) : ℕ :=
  (data.foldl (fun c b => crcTable ((c ^^^ b.toUInt32) &&& 0xff) ^^^ (c >>> 8)) 0xffffffff
    ^^^ 0xffffffff).toNat

/-! ## Contents -/

/-- The size by which a file is left alone. -/
def PakFile.scanSize (file : PakFile) : ℕ :=
  if file.uncompressedSize ≠ 0 then file.uncompressedSize else file.sizeOnDisk

/-- What the loop over the files keeps of one. -/
def contentOf (codecs : LsfCodecs) (input : Bytes) (i : ℕ) (file : PakFile) : Option Content :=
  let ext := extension file.name
  if isLsf ext = false ∧ isText ext = false then none
  else if pakFileEmpty file then none
  else if kMaxScanBytes < file.scanSize then none
  else do
    let text ← pakFileRead codecs.toCodecs input file
    if isLsf ext then
      let doc ← Lsf.lsfRead codecs text
      return ⟨i, true, [], doc, false⟩
    else return Content.ofText i text

def contentsIn (codecs : LsfCodecs) (input : Bytes) (files : List PakFile) : List Content :=
  files.zipIdx.filterMap fun (file, i) => contentOf codecs input i file

/-- What is written of a content. -/
def Content.written (content : Content) : Bytes :=
  if content.lsf then Lsf.lsfWrite content.doc else content.text

/-- The files of `replaced` that were edited. -/
def editedFiles (contents : List Content) : List (ℕ × Bytes) :=
  (contents.filter Content.changed).map fun content => (content.file, content.written)

/-- The files that are empty. -/
def emptyFiles (files : List PakFile) : List ℕ :=
  (files.zipIdx.filter fun (file, _) => pakFileEmpty file).map Prod.snd

/-- `replaced`. -/
def replaced (files : List PakFile) (contents : List Content) : List (ℕ × Bytes) :=
  editedFiles contents ++ (emptyFiles files).map fun i => (i, [10])

/-! ## Copies -/

/-- A file is put behind the copy, at a multiple of `kAlign`. -/
def appendFile : Bytes × List PakFile → ℕ × Bytes → Bytes × List PakFile
  | (out, files), (i, data) =>
    let padded := out ++ List.replicate ((kAlign - out.length % kAlign) % kAlign) 0
    (padded ++ data, files.modify i fun file =>
      { file with
        part := 0
        offset := padded.length
        sizeOnDisk := data.length
        uncompressedSize := 0
        flags := 0
        crc := crc32 data })

/-- A file under another name. -/
def PakFile.rename (file : PakFile) (name : Bytes) : PakFile := { file with name := name }

/-- The files under their new names, if some are new. -/
def renameAll (files : List PakFile) : Option (List Bytes) → List PakFile
  | none => files
  | some names => List.zipWith PakFile.rename files names

/-- What the copy starts with, and the files with their parts. -/
def startCopy (input : Bytes) (listing : PakListing) : Bytes × List PakFile :=
  if listing.version = 18 then
    (Slots.overwrite (input.take headerSize) 38 (encode 2 2),
      listing.files.map fun file => { file with part := 1 })
  else (input, listing.files)

/-- The rest of `pak_fix_build`, once it is known what changes. -/
def writeCopy (codecs : Codecs) (input : Bytes) (listing : PakListing) (edits : List (ℕ × Bytes))
    (names : Option (List Bytes)) : Option Bytes :=
  let (out, files) := edits.foldl appendFile (startCopy input listing)
  pakWriteListing codecs out out.length { listing with files := renameAll files names }

/-- `pak_fix_build`: the fixes that it adds, what it returns, and the copy if it writes one. -/
structure FixBuilt where
  fixes : List Bytes
  count : ℤ
  copy : Option Bytes

/-- The archives that `pak_fix_build` looks into. -/
def fixable (listing : PakListing) : Bool :=
  listing.parts = 1 && listing.flags &&& 4 = 0 && listing.files.all fun file => file.part = 0

/-- What `unify` makes of the files. -/
def unified (codecs : LsfCodecs) (input : Bytes) (files : List PakFile) : Unified :=
  let contents := contentsIn codecs input files
  ((Fixer.new (files.map PakFile.name)).scan contents).unify contents

/-- The new names, where one is new. -/
def renamed (files : List PakFile) (u : Unified) : Option (List Bytes) :=
  u.names.filter fun names => names ≠ files.map PakFile.name

/-- `pak_fix_build`. -/
def pakFixBuild (codecs : LsfCodecs) (input : Bytes) : FixBuilt :=
  match (pakListing codecs.toCodecs input).filter fixable with
  | none => ⟨[], 0, none⟩
  | some listing =>
    let u := unified codecs input listing.files
    let edits := replaced listing.files u.contents
    let fixes := u.fixes ++ (emptyFiles listing.files).map fun i =>
      (listing.files[i]?.map PakFile.name).getD [] ++ bytes ": was empty; now a newline"
    let count := Int.bmod fixes.length (2 ^ 32)
    if edits = [] ∧ renamed listing.files u = none then ⟨fixes, count, none⟩
    else
      match writeCopy codecs.toCodecs input listing edits (renamed listing.files u) with
      | none => ⟨fixes, -1, none⟩
      | some copy => ⟨fixes, count, some copy⟩

end Pak
end Bg3le
