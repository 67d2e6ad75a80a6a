import Bg3le.Net.Protobuf

/-!
# The protobuf reader of `pb.h`

`Reader` walks the fields of a message. A reader is the bytes that are left, and each of its
functions gives what it read and the bytes after it, or nothing where it returns false.
-/

namespace Bg3le
namespace Net
namespace Pb

/-- The loop of `read_varint`: the value so far, and the shift of the next seven bits. -/
def readVarintFrom (v : UInt64) (shift : ℕ) : Bytes → Option (UInt64 × Bytes)
  | [] => none
  | b :: rest =>
    let v := v ||| ((b &&& 0x7f).toUInt64 <<< UInt64.ofNat shift)
    if b &&& 0x80 = 0 then some (v, rest)
    else if 63 < shift + 7 then none
    else readVarintFrom v (shift + 7) rest

/-- `Reader::read_varint`. -/
def readVarint (data : Bytes) : Option (UInt64 × Bytes) := readVarintFrom 0 0 data

/-- `Reader::next`: a field number and its wire type. It returns false at the end and at a key
that cannot be read. -/
def next (data : Bytes) : Option (UInt32 × UInt32 × Bytes) :=
  (readVarint data).map fun (k, rest) => ((k >>> 3).toUInt32, (k &&& 7).toUInt32, rest)

/-- `Reader::read_fixed`. -/
def readFixed (n : ℕ) (data : Bytes) : Option (Bytes × Bytes) :=
  if data.length < n then none else some (data.take n, data.drop n)

/-- `Reader::read_bytes`. -/
def readBytes (data : Bytes) : Option (Bytes × Bytes) := do
  let (len, rest) ← readVarint data
  readFixed len.toNat rest

/-- `Reader::skip`. -/
def skip (wire : UInt32) (data : Bytes) : Option Bytes :=
  if wire = 0 then (readVarint data).map Prod.snd
  else if wire = 1 then (readFixed 8 data).map Prod.snd
  else if wire = 2 then (readBytes data).map Prod.snd
  else if wire = 5 then (readFixed 4 data).map Prod.snd
  else none

/-- A loop over the fields of a message, which `next` ends: `handle` takes a field up, or returns
false for the loop. A field takes at least one byte, so there are no more of them than bytes. -/
def readFields {σ : Type} (handle : σ → UInt32 → UInt32 → Bytes → Option (σ × Bytes)) :
    ℕ → σ → Bytes → Option σ
  | 0, s, _ => some s
  | n + 1, s, data =>
    match next data with
    | none => some s
    | some (field, wire, rest) => do
      let (s', rest') ← handle s field wire rest
      readFields handle n s' rest'

end Pb
end Net
end Bg3le
