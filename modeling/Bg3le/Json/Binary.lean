import Bg3le.Json.Stringify
import Bg3le.Library.FloatWord
import Bg3le.Library.LittleEndian

/-!
# The binary form of JSON

What `Ext._Internal.JsonBinaryEncode` writes of a value, and what `JsonBinaryDecode` makes of a blob.
-/

namespace Bg3le
namespace Json

open NumberText JsonText

inductive TypeTag where
  | null
  | bool
  | int0
  | int8
  | int16
  | int32
  | int64
  | float
  | string
  | stringRef8
  | stringRef16
  | stringRef32
  | object
  | array
  | finish
deriving DecidableEq

def TypeTag.code : TypeTag → ℕ
  | .null => 0
  | .bool => 1
  | .int0 => 2
  | .int8 => 3
  | .int16 => 4
  | .int32 => 5
  | .int64 => 6
  | .float => 7
  | .string => 8
  | .stringRef8 => 9
  | .stringRef16 => 10
  | .stringRef32 => 11
  | .object => 12
  | .array => 13
  | .finish => 14

/-- The tag in the low half of a byte. -/
def TypeTag.ofByte (b : UInt8) : Option TypeTag :=
  match b.toNat % 16 with
  | 0 => some .null
  | 1 => some .bool
  | 2 => some .int0
  | 3 => some .int8
  | 4 => some .int16
  | 5 => some .int32
  | 6 => some .int64
  | 7 => some .float
  | 8 => some .string
  | 9 => some .stringRef8
  | 10 => some .stringRef16
  | 11 => some .stringRef32
  | 12 => some .object
  | 13 => some .array
  | 14 => some .finish
  | _ => none

/-! ## Writing -/

structure PooledString where
  tagOffset : ℕ
  stringOffset : ℕ
  length : ℕ

/-- What has been written, and the strings that can be referred to, by their hash. -/
structure BinaryWriter where
  buf : Bytes
  strings : ℕ → Option PooledString

/-- `Tag`. -/
def tag (type : TypeTag) (length : ℕ) : UInt8 := (type.code + 16 * (length % 16)).toUInt8

/-- A tag with the high bits of a number, and its low bytes. -/
def sized (type : TypeTag) (width n : ℕ) : Bytes :=
  tag type (n / 256 ^ width) :: LittleEndian.encode width n

/-- `LongTag`: the bytes of the length are counted up to three, and all of them written. -/
def longTag (type : TypeTag) (length : ℕ) : Bytes :=
  let lenBytes := if 0x10000 ≤ length / 4 then 3 else if 0x100 ≤ length / 4 then 2
    else if 0 < length / 4 then 1 else 0
  (type.code + 16 * (length % 4) + 64 * lenBytes).toUInt8 ::
    (Nat.digits 256 (length / 4)).map Nat.toUInt8

namespace BinaryWriter

def empty : BinaryWriter := ⟨[], fun _ => none⟩

/-- `pos_`. -/
def pos (w : BinaryWriter) : ℕ := w.buf.length

def put (w : BinaryWriter) (bs : Bytes) : BinaryWriter := { w with buf := w.buf ++ bs }

def null (w : BinaryWriter) : BinaryWriter := w.put [tag .null 0]

def bool (w : BinaryWriter) (b : Bool) : BinaryWriter := w.put [tag .bool b.toNat]

def int64 (w : BinaryWriter) (v : ℤ) : BinaryWriter :=
  if -4 ≤ v ∧ v ≤ 3 then w.put (sized .int0 0 (v + 4).toNat)
  else if -0x400 ≤ v ∧ v ≤ 0x3ff then w.put (sized .int8 1 (v + 0x400).toNat)
  else if -0x40000 ≤ v ∧ v ≤ 0x3ffff then w.put (sized .int16 2 (v + 0x40000).toNat)
  else if -0x400000000 ≤ v ∧ v ≤ 0x3ffffffff then w.put (sized .int32 4 (v + 0x400000000).toNat)
  else w.put (tag .int64 0 :: LittleEndian.encode 8 (v % 2 ^ 64).toNat)

def double (w : BinaryWriter) (v : Double) : BinaryWriter :=
  w.put (tag .float 4 :: LittleEndian.encode 4 (floatWord v))

def stringRef (w : BinaryWriter) (offset : ℕ) : BinaryWriter :=
  if offset < 0xfff then w.put (sized .stringRef8 1 offset)
  else if offset < 0xfffff then w.put (sized .stringRef16 2 offset)
  else w.put (tag .stringRef32 0 :: LittleEndian.encode 4 offset)

/-- A string in full, which later ones of its hash may refer to. -/
def newString (hash : Bytes → ℕ) (w : BinaryWriter) (v : Bytes) : BinaryWriter where
  buf := w.buf ++ longTag .string v.length ++ v
  strings := Function.update w.strings (hash v) (some {
    tagOffset := w.pos
    stringOffset := w.pos + (longTag .string v.length).length
    length := v.length })

/-- Whether the bytes that an entry points to are the string. -/
def isSame (w : BinaryWriter) (v : Bytes) (ref : PooledString) : Bool :=
  v.length = ref.length && v = (w.buf.drop ref.stringOffset).take v.length

/-- `String`, and `Key`. -/
def string (hash : Bytes → ℕ) (w : BinaryWriter) (v : Bytes) : BinaryWriter :=
  match (w.strings (hash v)).filter (w.isSame v) with
  | some ref => w.stringRef (w.pos - ref.tagOffset)
  | none => w.newString hash v

def startObject (w : BinaryWriter) : BinaryWriter := w.put [tag .object 0]

def endObject (w : BinaryWriter) : BinaryWriter := w.put [tag .finish 0]

def startArray (w : BinaryWriter) : BinaryWriter := w.put [tag .array 0]

def endArray (w : BinaryWriter) : BinaryWriter := w.put [tag .finish 0]

end BinaryWriter

section

variable (host : Host) (hash : Bytes → ℕ) (unsupported : Value → Bytes)

/-- `StringifyTableAsArray`. -/
def BinaryWriter.stringifyTableAsArray (write : Value → BinaryWriter → Except Bytes BinaryWriter) :
    List Value → BinaryWriter → Except Bytes BinaryWriter
  | [], w => .ok w
  | v :: vs, w => do
    let w ← write v w
    BinaryWriter.stringifyTableAsArray write vs w

/-- `StringifyTableAsObjectUnordered`. -/
def BinaryWriter.stringifyTableAsObjectUnordered
    (write : Value → BinaryWriter → Except Bytes BinaryWriter) :
    List (Value × Value) → BinaryWriter → Except Bytes BinaryWriter
  | [], w => .ok w
  | (k, v) :: rest, w => do
    let key ← keyText host false k
    let w ← write v (w.string hash key)
    BinaryWriter.stringifyTableAsObjectUnordered write rest w

/-- `StringifyTable`. -/
def BinaryWriter.stringifyTable (write : Value → BinaryWriter → Except Bytes BinaryWriter) (t : LuaTable)
    (w : BinaryWriter) : Except Bytes BinaryWriter :=
  if t.isLinearArray then do
    let w ← BinaryWriter.stringifyTableAsArray write t.elements w.startArray
    .ok w.endArray
  else do
    let w ← BinaryWriter.stringifyTableAsObjectUnordered host hash write t.pairs w.startObject
    .ok w.endObject

/-- `Stringify` by the type of the value. -/
def BinaryWriter.stringifyValue (write : Value → BinaryWriter → Except Bytes BinaryWriter) (v : Value)
    (w : BinaryWriter) : Except Bytes BinaryWriter :=
  match v with
  | .nil => .ok w.null
  | .boolean b => .ok (w.bool b)
  | .integer i => .ok (w.int64 i)
  | .float x => .ok (w.double x)
  | .string s => .ok (w.string hash s)
  | .table t => BinaryWriter.stringifyTable host hash write (host.table t) w
  | .userdata u => .error (unsupported (.userdata u))
  | .other o => .error (unsupported (.other o))

def depthError : Bytes := bytes "Recursion depth exceeded while stringifying JSON"

/-- `Stringify<BinaryWriter>`, with a `MaxDepth` of sixty-four. -/
def BinaryWriter.stringify : ℕ → ℕ → Value → BinaryWriter → Except Bytes BinaryWriter
  | 0, _, _, _ => .error depthError
  | fuel + 1, depth, v, w =>
    if 64 < depth then .error depthError
    else BinaryWriter.stringifyValue host hash unsupported (BinaryWriter.stringify fuel (depth + 1)) v w

/-- `bg3le_json_binary_encode`: there are no more than sixty-five levels. -/
def jsonBinaryEncode (v : Value) : Except Bytes Bytes :=
  (BinaryWriter.stringify host hash unsupported 66 0 v .empty).map BinaryWriter.buf

end

/-! ## Reading -/

/-- What a blob is read as: for a table, what is put into it one after the other. -/
inductive Parsed where
  | nil
  | boolean (b : Bool)
  | integer (i : ℤ)
  | float (x : Double)
  | string (s : Bytes)
  | array (items : List Parsed)
  | object (members : List (Parsed × Parsed))

/-- What ends a reader without a value: `false`, an error of Lua, a byte that is not in the buffer. -/
inductive Stop where
  | refused
  | raised
  | outside
  | stuck
deriving DecidableEq

structure BinaryReader where
  pos : ℕ
  depth : ℕ

namespace BinaryReader

section

variable (buf : Bytes)

/-- `Available`. -/
def available (r : BinaryReader) : ℕ := (2 ^ 32 - r.pos + buf.length) % 2 ^ 32

def require (r : BinaryReader) (n : ℕ) : Except Stop Unit :=
  if r.available buf < n then .error .refused else .ok ()

/-- `Consume`. -/
def consume (r : BinaryReader) (n : ℕ) : BinaryReader := { r with pos := (r.pos + n) % 2 ^ 32 }

/-- The `n` bytes at `Cur(off)`. -/
def cur (r : BinaryReader) (off n : ℕ) : Except Stop Bytes :=
  if r.pos + off + n ≤ buf.length then .ok ((buf.drop (r.pos + off)).take n) else .error .outside

def curByte (r : BinaryReader) : Except Stop UInt8 :=
  match buf[r.pos]? with
  | some b => .ok b
  | none => .error .outside

/-- `PeekNext`. -/
def peekNext (r : BinaryReader) : Except Stop (Option TypeTag) := do
  r.require buf 1
  let b ← r.curByte buf
  .ok (TypeTag.ofByte b)

/-- `TypeData`. -/
def typeData (r : BinaryReader) : Except Stop ℕ := do
  let b ← r.curByte buf
  .ok (b.toNat / 16)

/-- `ReadLongTag`. -/
def readLongTag (r : BinaryReader) : Except Stop (ℕ × BinaryReader) := do
  let b ← r.curByte buf
  let n := b.toNat / 64
  r.require buf (1 + n)
  let length ← (r.consume 1).cur buf 0 n
  .ok (b.toNat / 16 % 4 + 4 * LittleEndian.decode length, (r.consume 1).consume n)

def readString (r : BinaryReader) : Except Stop (Bytes × BinaryReader) := do
  let (length, r) ← r.readLongTag buf
  r.require buf length
  let s ← r.cur buf 0 length
  .ok (s, r.consume length)

/-- `ReadStringAt`: the reader itself stays where it is. -/
def readStringAt (r : BinaryReader) (delta : ℕ) : Except Stop Bytes := do
  if r.pos < delta then .error .refused
  else do
    let (s, _) ← readString buf { r with pos := r.pos - delta }
    .ok s

/-- The number behind a tag, with the bits of the tag above it. -/
def readSized (r : BinaryReader) (width : ℕ) : Except Stop ℕ := do
  r.require buf (1 + width)
  let high ← r.typeData buf
  let low ← r.cur buf 1 width
  .ok (256 ^ width * high + LittleEndian.decode low)

/-- The number behind a tag. -/
def readPlain (r : BinaryReader) (width : ℕ) : Except Stop ℕ := do
  r.require buf (1 + width)
  let low ← r.cur buf 1 width
  .ok (LittleEndian.decode low)

/-- The signed number of a word. -/
def signed (n : ℕ) : ℤ := if n < 2 ^ 63 then n else n - 2 ^ 64

/-- `ParseNext` of anything but a table. -/
def parseScalar (type : TypeTag) (r : BinaryReader) : Except Stop (Parsed × BinaryReader) :=
  match type with
  | .null => .ok (.nil, r.consume 1)
  | .bool => do .ok (.boolean ((← r.typeData buf) != 0), r.consume 1)
  | .int0 => do .ok (.integer ((← r.typeData buf) - 4), r.consume 1)
  | .int8 => do .ok (.integer ((← r.readSized buf 1) - 0x400), r.consume 2)
  | .int16 => do .ok (.integer ((← r.readSized buf 2) - 0x40000), r.consume 3)
  | .int32 => do .ok (.integer ((← r.readSized buf 4) - 0x400000000), r.consume 5)
  | .int64 => do .ok (.integer (signed (← r.readPlain buf 8)), r.consume 9)
  | .float => do .ok (.float (wordFloat (← r.readPlain buf 4)), r.consume 5)
  | .string => do
    let (s, r) ← r.readString buf
    .ok (.string s, r)
  | .stringRef8 => do .ok (.string (← r.readStringAt buf (← r.readSized buf 1)), r.consume 2)
  | .stringRef16 => do .ok (.string (← r.readStringAt buf (← r.readSized buf 2)), r.consume 3)
  | .stringRef32 => do .ok (.string (← r.readStringAt buf (← r.readPlain buf 4)), r.consume 5)
  | .object | .array | .finish => .error .refused

/-- `depth_++ > MaxDepth`. -/
def enter (r : BinaryReader) : Except Stop BinaryReader :=
  if 64 < r.depth then .error .refused else .ok { r with depth := r.depth + 1 }

/-- The end of a table. -/
def leave (r : BinaryReader) : BinaryReader := { r.consume 1 with depth := r.depth - 1 }

/-- Whether `lua_rawset` takes a key. -/
def setKey : Parsed → Except Stop Unit
  | .nil => .error .raised
  | .float x => if x.value = none then .error .raised else .ok ()
  | _ => .ok ()

mutual

def parseNext : ℕ → BinaryReader → Except Stop (Parsed × BinaryReader)
  | 0, _ => .error .stuck
  | fuel + 1, r => do
    match ← r.peekNext buf with
    | some .object => do
      let (members, r) ← parseObject fuel (← (r.consume 1).enter)
      .ok (.object members, r)
    | some .array => do
      let (items, r) ← parseArray fuel (← (r.consume 1).enter)
      .ok (.array items, r)
    | some type => r.parseScalar buf type
    | none => .error .refused

/-- The elements up to the end of the array. -/
def parseArray : ℕ → BinaryReader → Except Stop (List Parsed × BinaryReader)
  | 0, _ => .error .stuck
  | fuel + 1, r => do
    if (← r.peekNext buf) = some .finish then .ok ([], r.leave)
    else do
      let (v, r) ← parseNext fuel r
      let (vs, r) ← parseArray fuel r
      .ok (v :: vs, r)

def parseObject : ℕ → BinaryReader → Except Stop (List (Parsed × Parsed) × BinaryReader)
  | 0, _ => .error .stuck
  | fuel + 1, r => do
    if (← r.peekNext buf) = some .finish then .ok ([], r.leave)
    else do
      let (k, r) ← parseNext fuel r
      let (v, r) ← parseNext fuel r
      setKey k
      let (rest, r) ← parseObject fuel r
      .ok ((k, v) :: rest, r)

end

/-- `Parse`: nothing may stand behind the value. -/
def parse : Except Stop Parsed := do
  let (v, r) ← parseNext buf (2 * buf.length + 2) ⟨0, 0⟩
  if r.available buf = 0 then .ok v else .error .refused

end

end BinaryReader

/-- `bg3le_json_binary_decode`. -/
def jsonBinaryDecode (blob : Bytes) : Except Stop Parsed := BinaryReader.parse blob

end Json
end Bg3le
