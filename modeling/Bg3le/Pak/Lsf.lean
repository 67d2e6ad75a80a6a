import Bg3le.Library.Slots
import Bg3le.Pak.Listing
import Bg3le.Pak.LsfDocument

/-!
# Reading and writing LSF documents (`lsf.cpp`)

The sections follow the metadata in the order strings, nodes, attributes, values, keys. What is
written is stored: it has the sizes on disk of zero that stand for that.
-/

namespace Bg3le
namespace Pak

/-- The decoders that sections are compressed for. `usingDict` is `LZ4_decompress_safe_usingDict`:
it takes a block, the room that is left, and what the block may reach back into. -/
structure LsfCodecs extends Codecs where
  usingDict : Bytes → ℕ → Bytes → Option Bytes

namespace Lsf

open LittleEndian

def kMaxSection : ℕ := 1 <<< 28

/-! ## Sections -/

/-- The loop of `lz4_frame`, onto what is already decoded. A round takes four bytes at least. -/
def lz4Blocks (codecs : LsfCodecs) (input : Bytes) (blockChecksum : Bool) (size : ℕ) :
    ℕ → ℕ → Bytes → Option Bytes
  | 0, _, _ => none
  | rounds + 1, pos, out =>
    if input.length < pos + 4 then none
    else
      let word := field input pos 4
      let pos := pos + 4
      if word = 0 then some out
      else
        let length := word % 2 ^ 31
        let next := pos + length + if blockChecksum then 4 else 0
        if input.length < pos + length then none
        else if 2 ^ 31 ≤ word then
          if size < out.length + length then none
          else lz4Blocks codecs input blockChecksum size rounds next (out ++ slice input pos length)
        else do
          -- linked blocks reach back into what is already decoded
          let dict := out.drop (out.length - 65536)
          let block ← codecs.usingDict (slice input pos length) (size - out.length) dict
          lz4Blocks codecs input blockChecksum size rounds next (out ++ block)

/-- `lz4_frame`, into a buffer of a size. -/
def lz4Frame (codecs : LsfCodecs) (input : Bytes) (size : ℕ) : Option Bytes :=
  if input.length < 7 ∨ field input 0 4 ≠ 0x184D2204 then none
  else
    let flg := field input 4 1
    let pos := 6 + (if flg.testBit 3 then 8 else 0) + (if flg.testBit 0 then 4 else 0) + 1
    (lz4Blocks codecs input (flg.testBit 4) size input.length pos []).filter fun out =>
      out.length = size

/-- `Reader`, without its position. -/
structure Reader where
  codecs : LsfCodecs
  data : Bytes
  method : ℕ
  version : ℕ

/-- The two sizes of a section in the metadata. -/
structure SectionSizes where
  uncompressed : ℕ
  onDisk : ℕ

/-- `Reader::section` at a position: the section, and the position behind it. -/
def Reader.readSection (r : Reader) (pos : ℕ) (sizes : SectionSizes) (chunkable : Bool) :
    Option (Bytes × ℕ) :=
  let uncompressed := sizes.uncompressed
  let onDisk := sizes.onDisk
  if kMaxSection < uncompressed ∨ kMaxSection < onDisk then none
  else if uncompressed = 0 then if onDisk = 0 then some ([], pos) else none
  else if onDisk = 0 ∨ r.method = 0 then
    if r.data.length < pos + uncompressed then none
    else some (slice r.data pos uncompressed, pos + uncompressed)
  else if r.data.length < pos + onDisk then none
  else
    let input := slice r.data pos onDisk
    let out :=
      match r.method with
      | 1 => Inflate.inflate input uncompressed
      | 2 => if chunkable ∧ 2 ≤ r.version then lz4Frame r.codecs input uncompressed
        else (r.codecs.decompress input uncompressed).filter fun out => out.length = uncompressed
      | 3 => (r.codecs.zstd input uncompressed).filter fun out => out.length = uncompressed
      | _ => none
    out.map fun out => (out, pos + onDisk)

/-- The keys are the last section, where there are some. -/
def Reader.readKeys (r : Reader) (hasKeys : Bool) (pos : ℕ) (sizes : SectionSizes) : Option Bytes :=
  if hasKeys then (r.readSection pos sizes true).map Prod.fst else some []

/-! ## Names and string values -/

/-- `is_string_type`. -/
def isStringType (type : ℕ) : Bool :=
  type = 20 ∨ type = 21 ∨ type = 22 ∨ type = 23 ∨ type = 29 ∨ type = 30

/-- The names of a chain, and the position behind them. -/
def readChain (buf : Bytes) : ℕ → ℕ → Option (List Bytes × ℕ)
  | 0, pos => some ([], pos)
  | count + 1, pos =>
    if buf.length < pos + 2 then none
    else
      let length := field buf pos 2
      if buf.length < pos + 2 + length then none
      else do
        let (names, next) ← readChain buf count (pos + 2 + length)
        return (slice buf (pos + 2) length :: names, next)

def readChains (buf : Bytes) : ℕ → ℕ → Option (List (List Bytes))
  | 0, _ => some []
  | chains + 1, pos =>
    if buf.length < pos + 2 then none
    else do
      let (names, next) ← readChain buf (field buf pos 2) (pos + 2)
      let rest ← readChains buf chains next
      return names :: rest

/-- `read_names`. -/
def readNames (buf : Bytes) : Option (List (List Bytes)) :=
  if buf.length < 4 then none else readChains buf (field buf 0 4) 4

/-- The records of the attributes section. -/
def records (attributes : Bytes) (step : ℕ) : List Bytes :=
  (List.range (attributes.length / step)).map fun i => slice attributes (i * step) step

/-- What the loop over the attributes keeps of a value, if it is a string. -/
def stringValue (names : List (List Bytes)) (valuesSize offset name typeAndLength : ℕ) :
    List LsfString :=
  let type := typeAndLength % 64
  let length := typeAndLength / 64
  if isStringType type ∧ 1 < length ∧ offset + length ≤ valuesSize then
    [⟨offset, length - 1, (names.getD (name / 2 ^ 16) []).getD (name % 2 ^ 16) []⟩]
  else []

/-- The loop over the attributes. From version 3 on a record has its offset, before that the
values follow one another. -/
def stringValuesFrom (v3 : Bool) (names : List (List Bytes)) (valuesSize : ℕ) :
    ℕ → List Bytes → List LsfString
  | _, [] => []
  | offset, a :: rest =>
    let offset := if v3 then field a 12 4 else offset
    let typeAndLength := field a 4 4
    stringValue names valuesSize offset (field a 0 4) typeAndLength ++
      stringValuesFrom v3 names valuesSize
        (if v3 then offset else (offset + typeAndLength / 64) % 2 ^ 32) rest

variable {v3 : Bool} {names : List (List Bytes)} {valuesSize offset : ℕ} {s : LsfString}

/-- A string value lies inside of the values, and so does its terminator. -/
theorem stringValue_inBounds {name typeAndLength : ℕ}
    (hs : s ∈ stringValue names valuesSize offset name typeAndLength) :
    s.offset + s.length + 1 ≤ valuesSize := by
  simp only [stringValue] at hs
  split at hs
  · have heq := List.mem_singleton.mp hs
    subst heq
    show offset + (typeAndLength / 64 - 1) + 1 ≤ valuesSize
    omega
  · exact absurd hs List.not_mem_nil

theorem stringValuesFrom_inBounds {attributes : List Bytes}
    (hs : s ∈ stringValuesFrom v3 names valuesSize offset attributes) :
    s.offset + s.length + 1 ≤ valuesSize := by
  induction attributes generalizing offset with
  | nil => exact absurd hs List.not_mem_nil
  | cons a rest ih =>
    rw [stringValuesFrom, List.mem_append] at hs
    rcases hs with hvalue | hrest
    · exact stringValue_inBounds hvalue
    · exact ih hrest

/-- The `StringValues` of a document. -/
def stringValues (version format : ℕ) (attributes : Bytes) (names : List (List Bytes))
    (valuesSize : ℕ) : List LsfString :=
  let v3 : Bool := 3 ≤ version ∧ format = 1
  stringValuesFrom v3 names valuesSize 0 (records attributes (if v3 then 16 else 12))

theorem stringValues_inBounds {version format : ℕ} {attributes : Bytes}
    (hs : s ∈ stringValues version format attributes names valuesSize) :
    s.offset + s.length + 1 ≤ valuesSize :=
  stringValuesFrom_inBounds hs

/-! ## Documents -/

def metadataAt (version : ℕ) : ℕ := 8 + if 5 ≤ version then 8 else 4

def metaSize (version : ℕ) : ℕ := if 6 ≤ version then 48 else 40

/-- What is read of the metadata. -/
structure Metadata where
  strings : SectionSizes
  keys : SectionSizes
  nodes : SectionSizes
  attributes : SectionSizes
  values : SectionSizes
  flags : ℕ
  format : ℕ

/-- The sizes that stand at a position. -/
def sizesAt (m : Bytes) (pos : ℕ) : SectionSizes := ⟨field m pos 4, field m (pos + 4) 4⟩

def readMetadata (version : ℕ) (m : Bytes) : Metadata :=
  if 6 ≤ version then
    { strings := sizesAt m 0
      keys := sizesAt m 8
      nodes := sizesAt m 16
      attributes := sizesAt m 24
      values := sizesAt m 32
      flags := field m 40 1
      format := field m 44 4 }
  else
    { strings := sizesAt m 0
      keys := ⟨0, 0⟩
      nodes := sizesAt m 8
      attributes := sizesAt m 16
      values := sizesAt m 24
      flags := field m 32 1
      format := field m 36 4 }

/-- The rest of `lsf_read`, from the sections on. -/
def Reader.readDocument (r : Reader) (filePrefix : Bytes) (m : Metadata) : Option LsfDocument := do
  let hasKeys : Bool := 6 ≤ r.version ∧ m.format = 1
  let (strings, pos) ← r.readSection (metadataAt r.version + metaSize r.version) m.strings false
  let (nodes, pos) ← r.readSection pos m.nodes true
  let (attributes, pos) ← r.readSection pos m.attributes true
  let (values, pos) ← r.readSection pos m.values true
  let keys ← r.readKeys hasKeys pos m.keys
  let names ← readNames strings
  return {
    filePrefix := filePrefix
    metadataAt := metadataAt r.version
    version := r.version
    hasKeys := hasKeys
    strings := strings
    nodes := nodes
    attributes := attributes
    values := values
    keys := keys
    stringValues := stringValues r.version m.format attributes names values.length
    inBounds := fun _ hs => Nat.le_of_succ_le (stringValues_inBounds hs) }

/-- `lsf_read`. -/
def lsfRead (codecs : LsfCodecs) (data : Bytes) : Option LsfDocument :=
  if data.length < 12 ∨ data.take 4 ≠ bytes "LSOF" then none
  else
    let version := field data 4 4
    let start := metadataAt version + metaSize version
    if version < 1 ∨ 7 < version ∨ data.length < start then none
    else
      let m := readMetadata version (data.drop (metadataAt version))
      Reader.readDocument ⟨codecs, data, m.flags % 16, version⟩ (data.take start) m

/-- `put` of `lsf_write`: a number in the metadata of what is written. -/
def put (doc : LsfDocument) (out : Bytes) (pos value : ℕ) : Bytes :=
  Slots.overwrite out (doc.metadataAt + pos) (encode 4 value)

/-- The prefix as it is written. Sizes on disk of zero with no method is how LSLib writes it. -/
def writePrefix (doc : LsfDocument) : Bytes :=
  let out := doc.filePrefix
  if 6 ≤ doc.version then
    let out := put doc (put doc out 0 doc.strings.length) 4 0
    let out := put doc (put doc out 8 doc.keys.length) 12 0
    let out := put doc (put doc out 16 doc.nodes.length) 20 0
    let out := put doc (put doc out 24 doc.attributes.length) 28 0
    let out := put doc (put doc out 32 doc.values.length) 36 0
    Slots.overwrite out (doc.metadataAt + 40) [0]
  else
    let out := put doc (put doc out 0 doc.strings.length) 4 0
    let out := put doc (put doc out 8 doc.nodes.length) 12 0
    let out := put doc (put doc out 16 doc.attributes.length) 20 0
    let out := put doc (put doc out 24 doc.values.length) 28 0
    Slots.overwrite out (doc.metadataAt + 32) [0]

/-- `lsf_write`. -/
def lsfWrite (doc : LsfDocument) : Bytes :=
  writePrefix doc ++ doc.strings ++ doc.nodes ++ doc.attributes ++ doc.values ++
    if doc.hasKeys then doc.keys else []

end Lsf

/-- The document with its values changed in place. -/
def LsfDocument.setValues (doc : LsfDocument) (values : Bytes)
    (hlength : values.length = doc.values.length) : LsfDocument :=
  { doc with
    values := values
    inBounds := by
      intro s hs
      rw [hlength]
      exact doc.inBounds s hs }

end Pak
end Bg3le
