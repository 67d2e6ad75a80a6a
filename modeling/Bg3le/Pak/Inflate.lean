import Bg3le.Bytes

/-!
# DEFLATE decompression (`inflate.cpp`)

A function that returns false, and a `take` or `decode` that returns -1, gives nothing here: every
caller gives up then.
-/

namespace Bg3le
namespace Pak
namespace Inflate

def maxBits : ℕ := 15
def litCodes : ℕ := 288
def distCodes : ℕ := 30

/-! ## Bits -/

/-- `Bits`, with the bytes from `At` on for the input. -/
structure Bits where
  rest : Bytes
  buffer : ℕ
  count : ℕ

/-- The loop of `take`: bytes are added to the value until there are enough bits. -/
def fill (need value count : ℕ) : Bytes → Option Bits
  | [] => if count < need then none else some ⟨[], value, count⟩
  | b :: rest =>
    if count < need then fill need (value ||| b.toNat <<< count) (count + 8) rest
    else some ⟨b :: rest, value, count⟩

/-- `Bits::take`. -/
def Bits.take (need : ℕ) (s : Bits) : Option (ℕ × Bits) :=
  (fill need s.buffer s.count s.rest).map fun s =>
    (s.buffer &&& (1 <<< need - 1), { s with buffer := s.buffer >>> need, count := s.count - need })

/-! ## Huffman codes -/

/-- `Huffman`: how many codes each length has, and the symbols in the order of their codes. -/
structure Huffman where
  count : List ℕ
  symbol : List ℕ

/-- The first two loops of `construct`. -/
def countLengths (lengths : List ℕ) : List ℕ :=
  lengths.foldl (fun count len => count.set len (count.getD len 0 + 1))
    (List.replicate (maxBits + 1) 0)

/-- The third loop of `construct`, over the lengths up to `n`. -/
def offsetsUpTo (count : List ℕ) (n : ℕ) : List ℕ :=
  (List.range' 1 n).foldl
    (fun offsets len => offsets.set (len + 1) (offsets.getD len 0 + count.getD len 0))
    (List.replicate (maxBits + 2) 0)

/-- The last loop of `construct`, at the symbol `i` of length `len`. -/
def place (offsets symbol : List ℕ) (len i : ℕ) : List ℕ × List ℕ :=
  if len ≠ 0 then
    (offsets.set len (offsets.getD len 0 + 1), symbol.set (offsets.getD len 0) i)
  else (offsets, symbol)

/-- `construct`. The symbols are those of an array that is zero at first. -/
def construct (lengths : List ℕ) : Huffman where
  count := countLengths lengths
  symbol :=
    (lengths.zipIdx.foldl (fun t entry => place t.1 t.2 entry.1 entry.2)
      (offsetsUpTo (countLengths lengths) maxBits, List.replicate (litCodes + distCodes + 2) 0)).2

/-- The loop of `decode`, with the lengths that are left. -/
def decodeFrom (h : Huffman) : ℕ → ℕ → ℕ → ℕ → ℕ → Bits → Option (ℕ × Bits)
  | 0, _, _, _, _, _ => none
  | left + 1, len, code, first, index, s => do
    let (bit, s) ← s.take 1
    let code := code ||| bit
    let count := h.count.getD len 0
    if code < first + count then return (h.symbol.getD (index + (code - first)) 0, s)
    else decodeFrom h left (len + 1) (code <<< 1) ((first + count) <<< 1) (index + count) s

def decode (h : Huffman) (s : Bits) : Option (ℕ × Bits) := decodeFrom h maxBits 1 0 0 0 s

/-! ## Output -/

/-- `Output`, with what was written so far. -/
structure Output where
  size : ℕ
  data : Bytes

/-- `Output::put`. -/
def Output.put (out : Output) (byte : ℕ) : Option Output :=
  if out.size ≤ out.data.length then none
  else some { out with data := out.data ++ [byte.toUInt8] }

/-- The loop that copies byte by byte, because the run may overlap itself. -/
def copyFrom (distance : ℕ) : ℕ → Bytes → Bytes
  | 0, data => data
  | length + 1, data =>
    copyFrom distance length (data ++ [data.getD (data.length - distance) 0])

/-! ## Blocks -/

def stored (s : Bits) (out : Output) : Option (Bits × Output) :=
  match s.rest with
  | len₀ :: len₁ :: nlen₀ :: nlen₁ :: rest =>
    let len := len₀.toNat ||| len₁.toNat <<< 8
    let nlen := nlen₀.toNat ||| nlen₁.toNat <<< 8
    if len ^^^ 0xffff ≠ nlen then none
    else if rest.length < len then none
    else if out.size < out.data.length + len then none
    else some (⟨rest.drop len, 0, 0⟩, { out with data := out.data ++ rest.take len })
  | _ => none

def lens : List ℕ := [3, 4, 5, 6, 7, 8, 9, 10, 11, 13, 15, 17, 19, 23, 27, 31, 35, 43, 51, 59, 67, 83,
  99, 115, 131, 163, 195, 227, 258]

def lext : List ℕ := [0, 0, 0, 0, 0, 0, 0, 0, 1, 1, 1, 1, 2, 2, 2, 2, 3, 3, 3, 3, 4, 4, 4, 4, 5, 5, 5,
  5, 0]

def dists : List ℕ := [1, 2, 3, 4, 5, 7, 9, 13, 17, 25, 33, 49, 65, 97, 129, 193, 257, 385, 513, 769,
  1025, 1537, 2049, 3073, 4097, 6145, 8193, 12289, 16385, 24577]

def dext : List ℕ := [0, 0, 0, 0, 1, 1, 2, 2, 3, 3, 4, 4, 5, 5, 6, 6, 7, 7, 8, 8, 9, 9, 10, 10, 11, 11,
  12, 12, 13, 13]

/-- What `codes` does with a symbol from 257 on. -/
def copy (dist : Huffman) (symbol : ℕ) (s : Bits) (out : Output) : Option (Bits × Output) := do
  let index := symbol - 257
  if 29 ≤ index then none
  else
    let (extra, s) ← s.take (lext.getD index 0)
    let length := lens.getD index 0 + extra
    let (dsym, s) ← decode dist s
    if 30 ≤ dsym then none
    else
      let (dextra, s) ← s.take (dext.getD dsym 0)
      let distance := dists.getD dsym 0 + dextra
      if out.data.length < distance then none
      else if out.size < out.data.length + length then none
      else some (s, { out with data := copyFrom distance length out.data })

/-- The loop of `codes`. Each round but the last writes at least one byte. -/
def codesFrom (lit dist : Huffman) : ℕ → Bits → Output → Option (Bits × Output)
  | 0, _, _ => none
  | rounds + 1, s, out => do
    let (symbol, s) ← decode lit s
    if symbol < 256 then
      let out ← out.put symbol
      codesFrom lit dist rounds s out
    else if symbol = 256 then return (s, out)
    else
      let (s, out) ← copy dist symbol s out
      codesFrom lit dist rounds s out

def codes (s : Bits) (out : Output) (lit dist : Huffman) : Option (Bits × Output) :=
  codesFrom lit dist (out.size - out.data.length + 1) s out

/-- The lengths that `fixed_block` fills in. -/
def fixedLit : List ℕ :=
  (List.range litCodes).map fun i => if i < 144 then 8 else if i < 256 then 9 else if i < 280 then 7 else 8

def fixedDist : List ℕ := List.replicate distCodes 5

def fixedBlock (s : Bits) (out : Output) : Option (Bits × Output) :=
  codes s out (construct fixedLit) (construct fixedDist)

def order : List ℕ := [16, 17, 18, 0, 8, 7, 9, 6, 10, 5, 11, 4, 12, 3, 13, 2, 14, 1, 15]

/-- The loop that reads the lengths of the code for code lengths, in their order. -/
def readCodeLengths : List ℕ → List ℕ → Bits → Option (List ℕ × Bits)
  | [], lengths, s => some (lengths, s)
  | i :: is, lengths, s => do
    let (bits, s) ← s.take 3
    readCodeLengths is (lengths.set i bits) s

/-- The loop that clears the lengths that were not read. -/
def clearLengths (is lengths : List ℕ) : List ℕ := is.foldl (fun lengths i => lengths.set i 0) lengths

/-- The value and the count of a repeat symbol. -/
def repeated (symbol index : ℕ) (lengths : List ℕ) (s : Bits) : Option (ℕ × ℕ × Bits) :=
  if symbol = 16 then
    if index = 0 then none
    else (s.take 2).map fun (extra, s) => (lengths.getD (index - 1) 0, 3 + extra, s)
  else if symbol = 17 then (s.take 3).map fun (extra, s) => (0, 3 + extra, s)
  else (s.take 7).map fun (extra, s) => (0, 11 + extra, s)

/-- The loop that writes a repeated length. -/
def setRun (value : ℕ) : ℕ → ℕ → List ℕ → List ℕ
  | 0, _, lengths => lengths
  | n + 1, index, lengths => setRun value n (index + 1) (lengths.set index value)

/-- The loop over the literal and distance lengths. Each round writes at least one of them. -/
def readLengths (code : Huffman) (total : ℕ) : ℕ → ℕ → List ℕ → Bits → Option (List ℕ × Bits)
  | 0, _, _, _ => none
  | rounds + 1, index, lengths, s =>
    if total ≤ index then some (lengths, s)
    else do
      let (symbol, s) ← decode code s
      if symbol < 16 then readLengths code total rounds (index + 1) (lengths.set index symbol) s
      else
        let (value, n, s) ← repeated symbol index lengths s
        if total < index + n then none
        else readLengths code total rounds (index + n) (setRun value n index lengths) s

def dynamicBlock (s : Bits) (out : Output) : Option (Bits × Output) := do
  let (nlen, s) ← s.take 5
  let (ndist, s) ← s.take 5
  let (ncode, s) ← s.take 4
  let literals := nlen + 257
  let distances := ndist + 1
  let counts := ncode + 4
  if litCodes < literals ∨ distCodes + 2 < distances then none
  else
    let (lengths, s) ←
      readCodeLengths (order.take counts) (List.replicate (litCodes + distCodes + 2) 0) s
    let lengths := clearLengths (order.drop counts) lengths
    let code := construct (lengths.take 19)
    let (lengths, s) ← readLengths code (literals + distances) (literals + distances + 1) 0 lengths s
    if lengths.getD 256 0 = 0 then none
    else
      codes s out (construct (lengths.take literals))
        (construct ((lengths.drop literals).take distances))

def block (type : ℕ) (s : Bits) (out : Output) : Option (Bits × Output) :=
  if type = 0 then stored s out
  else if type = 1 then fixedBlock s out
  else if type = 2 then dynamicBlock s out
  else none

/-- The loop of `inflate` over the blocks. A block takes at least one bit. -/
def blocksFrom : ℕ → Bits → Output → Option Output
  | 0, _, _ => none
  | rounds + 1, s, out => do
    let (last, s) ← s.take 1
    let (type, s) ← s.take 2
    let (s, out) ← block type s out
    if last ≠ 0 then return out else blocksFrom rounds s out

/-- The test for a zlib wrapper: deflate in the low nibble and a header that is a multiple of 31. -/
def zlibWrapped (b₀ b₁ : UInt8) : Bool :=
  b₀ &&& 0x0f = 8 ∧ (b₀.toNat <<< 8 ||| b₁.toNat) % 31 = 0

/-- `inflate`, for buffers that are not null. -/
def inflate (input : Bytes) (outSize : ℕ) : Option Bytes :=
  match input with
  | b₀ :: b₁ :: rest => do
    let input := if zlibWrapped b₀ b₁ then rest else input
    let out ← blocksFrom (8 * input.length + 1) ⟨input, 0, 0⟩ ⟨outSize, []⟩
    if out.data.length = outSize then return out.data else none
  | _ => none

end Inflate
end Pak
end Bg3le
