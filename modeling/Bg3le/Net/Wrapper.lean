import Bg3le.Guid
import Bg3le.Library.LittleEndian
import Bg3le.Net.Protobuf

/-!
# The extender's messages: `Wrapper` and its encoding

`encode_var`, `encode` and the writing half of `ExtenderMessage::Serialize` of `src/net.cpp`.
-/

namespace Bg3le
namespace Net

/-- `NetUserVar::Kind`. -/
inductive Kind
  | null | bool | int | double | string | json | binary
deriving DecidableEq, Repr

/-- `NetUserVar`. A double is its eight bytes, as `memcpy` copies them. -/
structure NetUserVar where
  module : Bool := false
  guid : Bytes := []
  key : Bytes := []
  kind : Kind := .null
  b : Bool := false
  i : UInt64 := 0
  d : UInt64 := 0
  s : Bytes := []
deriving DecidableEq

/-- `WrapperField`: the kinds of message, by their field number. -/
inductive WrapperField
  | postLua | resetLua | hello | kick | userVars
deriving DecidableEq, Repr

def WrapperField.number : WrapperField → UInt64
  | postLua => 1
  | resetLua => 2
  | hello => 5
  | kick => 7
  | userVars => 8

/-- `Wrapper`, with the fields of every kind. -/
structure Wrapper where
  kind : WrapperField
  channel : Bytes := []
  payload : Bytes := []
  module : Bytes := []
  requestId : UInt32 := 0
  replyId : UInt32 := 0
  binary : Bool := false
  bootstrap : Bool := false
  version : UInt32 := 0
  kick : Bytes := []
  vars : List NetUserVar := []
deriving DecidableEq

/-- `kMaxPayload`. -/
def kMaxPayload : ℕ := 0xfffff

/-- `str_field`. -/
def strField (field : UInt64) (v : Bytes) : Bytes := if v = [] then [] else Pb.bytesField field v

/-- `parse_guid`: the two halves of a well-formed UUID string. -/
def parseGuid (s : Bytes) : Option (UInt64 × UInt64) := do
  let b ← Guid.parseBytes s
  return (UInt64.ofNat (LittleEndian.decode (b.take 8)),
    UInt64.ofNat (LittleEndian.decode (b.drop 8)))

/-! ## Encoding -/

/-- The value of a variable. A oneof member is written even when it holds its default. -/
def encodeValue (v : NetUserVar) : Bytes :=
  match v.kind with
  | .int => Pb.key 4 0 ++ Pb.varint v.i
  | .double => Pb.key 5 1 ++ LittleEndian.encode 8 v.d.toNat
  | .string => Pb.bytesField 6 v.s
  | .json => Pb.bytesField 7 v.s
  | .bool => Pb.key 9 0 ++ Pb.varint (if v.b then 1 else 0)
  | .binary => Pb.bytesField 10 v.s
  | .null => []

/-- `encode_var`. A GUID that does not parse is left at zero. -/
def encodeVar (v : NetUserVar) : Bytes :=
  let guid := (parseGuid v.guid).getD (0, 0)
  Pb.uintField 1 guid.1 ++ Pb.uintField 2 guid.2 ++ strField 3 v.key ++ encodeValue v
    ++ Pb.uintField 8 (if v.module then 1 else 0)

/-- The body `encode` builds for the wrapper's kind. -/
def encodeBody (w : Wrapper) : Bytes :=
  match w.kind with
  | .postLua =>
    strField 1 w.channel ++ strField 2 w.payload ++ strField 3 w.module
      ++ Pb.uintField 4 w.requestId.toUInt64 ++ Pb.uintField 5 w.replyId.toUInt64
      ++ Pb.uintField 6 (if w.binary then 1 else 0)
  | .resetLua => Pb.uintField 1 (if w.bootstrap then 1 else 0)
  | .hello => Pb.uintField 1 w.version.toUInt64
  | .kick => strField 1 w.kick
  | .userVars => w.vars.flatMap fun v => Pb.bytesField 1 (encodeVar v)

/-- `encode`. -/
def encode (w : Wrapper) : Bytes := Pb.bytesField w.kind.number (encodeBody w)

/-- What `ExtenderMessage::Serialize` writes for a message holding `bytes`: the 32-bit length and
the bytes, or a zero length for a packet past the limit. -/
def serialize (bytes : Bytes) : Bytes :=
  let size := bytes.length % 2 ^ 32
  let size := if size > kMaxPayload then 0 else size
  LittleEndian.encode 4 size ++ bytes.take size

end Net
end Bg3le
