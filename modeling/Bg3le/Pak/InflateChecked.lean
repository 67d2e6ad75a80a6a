import Bg3le.Pak.Inflate

/-!
# DEFLATE with its accesses checked (`inflate.cpp`)

The same decompression with every index into a table and every access to the output checked. A
stream that is refused is one thing; an access outside an array, or a loop that has not ended, is
a fault.
-/

namespace Bg3le
namespace Pak
namespace Inflate
namespace Checked

/-- Why nothing is decompressed. -/
inductive Stop where
  /-- The code gives up: it returns false or -1. -/
  | refused
  /-- An index outside a table. -/
  | table
  /-- A write at or past the end of the output, or a read before its start. -/
  | output
  /-- A loop that has not ended. -/
  | running
deriving DecidableEq

/-- An entry of a table. -/
def entry (table : List ℕ) (i : ℤ) : Except Stop ℕ :=
  if i < 0 then .error .table
  else match table[i.toNat]? with
  | some v => .ok v
  | none => .error .table

/-- A table with an entry stored. -/
def store (table : List ℕ) (i v : ℕ) : Except Stop (List ℕ) :=
  if i < table.length then .ok (table.set i v) else .error .table

/-- `Bits::take`, which reads no further than the input goes. -/
def take (need : ℕ) (s : Bits) : Except Stop (ℕ × Bits) :=
  match s.take need with
  | some r => .ok r
  | none => .error .refused

/-! ## Huffman codes -/

/-- The second loop of `construct`. -/
def countLengths : List ℕ → List ℕ → Except Stop (List ℕ)
  | [], count => .ok count
  | len :: lengths, count => do
    let n ← entry count len
    let count ← store count len (n + 1)
    countLengths lengths count

/-- The third loop of `construct`, over these lengths. -/
def addOffsets (count : List ℕ) : List ℕ → List ℕ → Except Stop (List ℕ)
  | [], offsets => .ok offsets
  | len :: lens, offsets => do
    let before ← entry offsets len
    let n ← entry count len
    let offsets ← store offsets (len + 1) (before + n)
    addOffsets count lens offsets

/-- The last loop of `construct`, from the symbol `i` on. -/
def placeAll : List ℕ → ℕ → List ℕ → List ℕ → Except Stop (List ℕ)
  | [], _, _, symbol => .ok symbol
  | len :: lengths, i, offsets, symbol =>
    if len ≠ 0 then do
      let at' ← entry offsets len
      let symbol ← store symbol at' i
      let offsets ← store offsets len (at' + 1)
      placeAll lengths (i + 1) offsets symbol
    else placeAll lengths (i + 1) offsets symbol

def construct (lengths : List ℕ) : Except Stop Huffman := do
  let count ← countLengths lengths (List.replicate (maxBits + 1) 0)
  let offsets ← addOffsets count (List.range' 1 maxBits) (List.replicate (maxBits + 2) 0)
  let symbol ← placeAll lengths 0 offsets (List.replicate (litCodes + distCodes + 2) 0)
  return ⟨count, symbol⟩

/-- The loop of `decode`, with the lengths that are left. -/
def decodeFrom (h : Huffman) : ℕ → ℕ → ℕ → ℤ → ℤ → Bits → Except Stop (ℕ × Bits)
  | 0, _, _, _, _, _ => .error .refused
  | left + 1, len, code, first, index, s => do
    let (bit, s) ← take 1 s
    let code := code ||| bit
    let count ← entry h.count len
    if (code : ℤ) - count < first then do
      let symbol ← entry h.symbol (index + (code - first))
      return (symbol, s)
    else decodeFrom h left (len + 1) (code <<< 1) ((first + count) * 2) (index + count) s

def decode (h : Huffman) (s : Bits) : Except Stop (ℕ × Bits) := decodeFrom h maxBits 1 0 0 0 s

/-! ## Output -/

/-- A byte is stored behind those that were written. -/
def write (out : Output) (byte : UInt8) : Except Stop Output :=
  if out.data.length < out.size then .ok { out with data := out.data ++ [byte] }
  else .error .output

/-- A byte that was written so far back. -/
def readBack (out : Output) (distance : ℕ) : Except Stop UInt8 :=
  if distance ≤ out.data.length then
    match out.data[out.data.length - distance]? with
    | some byte => .ok byte
    | none => .error .output
  else .error .output

/-- `Output::put`. -/
def put (out : Output) (byte : ℕ) : Except Stop Output :=
  if out.size ≤ out.data.length then .error .refused else write out byte.toUInt8

/-- The copy of a stored block. -/
def writeAll (out : Output) : Bytes → Except Stop Output
  | [] => .ok out
  | byte :: bytes => do
    let out ← write out byte
    writeAll out bytes

/-- The copy of a run. -/
def copyFrom (distance : ℕ) : ℕ → Output → Except Stop Output
  | 0, out => .ok out
  | length + 1, out => do
    let byte ← readBack out distance
    let out ← write out byte
    copyFrom distance length out

/-! ## Blocks -/

def stored (s : Bits) (out : Output) : Except Stop (Bits × Output) :=
  match s.rest with
  | len₀ :: len₁ :: nlen₀ :: nlen₁ :: rest =>
    let len := len₀.toNat ||| len₁.toNat <<< 8
    let nlen := nlen₀.toNat ||| nlen₁.toNat <<< 8
    if len ^^^ 0xffff ≠ nlen then .error .refused
    else if rest.length < len then .error .refused
    else if out.size < out.data.length + len then .error .refused
    else do
      let out ← writeAll out (rest.take len)
      return (⟨rest.drop len, 0, 0⟩, out)
  | _ => .error .refused

/-- What `codes` does with a symbol from 257 on. -/
def copy (dist : Huffman) (symbol : ℕ) (s : Bits) (out : Output) : Except Stop (Bits × Output) := do
  let index := symbol - 257
  if 29 ≤ index then .error .refused
  else
    let (extra, s) ← take (← entry lext index) s
    let length := (← entry lens index) + extra
    let (dsym, s) ← decode dist s
    if 30 ≤ dsym then .error .refused
    else
      let (dextra, s) ← take (← entry dext dsym) s
      let distance := (← entry dists dsym) + dextra
      if out.data.length < distance then .error .refused
      else if out.size < out.data.length + length then .error .refused
      else
        let out ← copyFrom distance length out
        return (s, out)

/-- The loop of `codes`, of so many rounds. -/
def codesFrom (lit dist : Huffman) : ℕ → Bits → Output → Except Stop (Bits × Output)
  | 0, _, _ => .error .running
  | rounds + 1, s, out => do
    let (symbol, s) ← decode lit s
    if symbol < 256 then
      let out ← put out symbol
      codesFrom lit dist rounds s out
    else if symbol = 256 then return (s, out)
    else
      let (s, out) ← copy dist symbol s out
      codesFrom lit dist rounds s out

def codes (s : Bits) (out : Output) (lit dist : Huffman) : Except Stop (Bits × Output) :=
  codesFrom lit dist (out.size - out.data.length + 1) s out

def fixedBlock (s : Bits) (out : Output) : Except Stop (Bits × Output) := do
  let lit ← construct fixedLit
  let dist ← construct fixedDist
  codes s out lit dist

/-- The loop that reads the lengths of the code for code lengths, in their order. -/
def readCodeLengths : List ℕ → List ℕ → Bits → Except Stop (List ℕ × Bits)
  | [], lengths, s => .ok (lengths, s)
  | i :: is, lengths, s => do
    let (bits, s) ← take 3 s
    let lengths ← store lengths i bits
    readCodeLengths is lengths s

/-- The loop that clears the lengths that were not read. -/
def clearLengths : List ℕ → List ℕ → Except Stop (List ℕ)
  | [], lengths => .ok lengths
  | i :: is, lengths => do
    let lengths ← store lengths i 0
    clearLengths is lengths

/-- The value and the count of a repeat symbol. -/
def repeated (symbol index : ℕ) (lengths : List ℕ) (s : Bits) : Except Stop (ℕ × ℕ × Bits) :=
  if symbol = 16 then
    if index = 0 then .error .refused
    else do
      let value ← entry lengths ((index : ℤ) - 1)
      let (extra, s) ← take 2 s
      return (value, 3 + extra, s)
  else if symbol = 17 then do
    let (extra, s) ← take 3 s
    return (0, 3 + extra, s)
  else do
    let (extra, s) ← take 7 s
    return (0, 11 + extra, s)

/-- The loop that writes a repeated length. -/
def setRun (value : ℕ) : ℕ → ℕ → List ℕ → Except Stop (List ℕ)
  | 0, _, lengths => .ok lengths
  | n + 1, index, lengths => do
    let lengths ← store lengths index value
    setRun value n (index + 1) lengths

/-- The loop over the literal and distance lengths, of so many rounds. -/
def readLengths (code : Huffman) (total : ℕ) : ℕ → ℕ → List ℕ → Bits → Except Stop (List ℕ × Bits)
  | 0, _, _, _ => .error .running
  | rounds + 1, index, lengths, s =>
    if total ≤ index then .ok (lengths, s)
    else do
      let (symbol, s) ← decode code s
      if symbol < 16 then
        let lengths ← store lengths index symbol
        readLengths code total rounds (index + 1) lengths s
      else
        let (value, n, s) ← repeated symbol index lengths s
        if total < index + n then .error .refused
        else
          let lengths ← setRun value n index lengths
          readLengths code total rounds (index + n) lengths s

/-- The lengths from one on, so many of them. -/
def part (lengths : List ℕ) (from' n : ℕ) : Except Stop (List ℕ) :=
  if from' + n ≤ lengths.length then .ok ((lengths.drop from').take n) else .error .table

def dynamicBlock (s : Bits) (out : Output) : Except Stop (Bits × Output) := do
  let (nlen, s) ← take 5 s
  let (ndist, s) ← take 5 s
  let (ncode, s) ← take 4 s
  let literals := nlen + 257
  let distances := ndist + 1
  let counts := ncode + 4
  if litCodes < literals ∨ distCodes + 2 < distances then .error .refused
  else if order.length < counts then .error .table
  else
    let (lengths, s) ←
      readCodeLengths (order.take counts) (List.replicate (litCodes + distCodes + 2) 0) s
    let lengths ← clearLengths (order.drop counts) lengths
    let code ← construct (← part lengths 0 19)
    let (lengths, s) ← readLengths code (literals + distances) (literals + distances + 1) 0 lengths s
    if (← entry lengths 256) = 0 then .error .refused
    else
      let lit ← construct (← part lengths 0 literals)
      let dist ← construct (← part lengths literals distances)
      codes s out lit dist

def block (type : ℕ) (s : Bits) (out : Output) : Except Stop (Bits × Output) :=
  if type = 0 then stored s out
  else if type = 1 then fixedBlock s out
  else if type = 2 then dynamicBlock s out
  else .error .refused

/-- The loop of `inflate` over the blocks, of so many rounds. -/
def blocksFrom : ℕ → Bits → Output → Except Stop Output
  | 0, _, _ => .error .running
  | rounds + 1, s, out => do
    let (last, s) ← take 1 s
    let (type, s) ← take 2 s
    let (s, out) ← block type s out
    if last ≠ 0 then return out else blocksFrom rounds s out

/-- `inflate`, for buffers that are not null. -/
def inflate (input : Bytes) (outSize : ℕ) : Except Stop Bytes :=
  match input with
  | b₀ :: b₁ :: rest => do
    let input := if zlibWrapped b₀ b₁ then rest else input
    let out ← blocksFrom (8 * input.length + 1) ⟨input, 0, 0⟩ ⟨outSize, []⟩
    if out.data.length = outSize then return out.data else .error .refused
  | _ => .error .refused

end Checked
end Inflate
end Pak
end Bg3le
