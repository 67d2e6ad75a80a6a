import Mathlib.Data.List.TakeWhile
import Bg3le.Guid

/-!
# What a savegame visit reads and writes

The save's LSF document as the engine's visitor shows it: regions and nodes with typed attributes.
A writing visitor puts what it visits into the node it is in; a reading one answers with it, or
with the default where the node has no such attribute.
-/

namespace Bg3le
namespace Savegame

/-- The engine's FixedString: a C string that fits the largest size class of its table. `longest`
is `bg3le_fixed_string_max_length()`, 0 where it is not known. -/
structure FixedString (longest : ℕ) where
  text : Bytes
  nul_free : 0 ∉ text
  fits : longest = 0 ∨ text.length ≤ longest

/-- A FixedString index; none is `kNullString`. -/
abbrev StringId (longest : ℕ) := Option (FixedString longest)

/-- `text.c_str()`, as a C function reads it. -/
def cStr (text : Bytes) : Bytes := text.takeWhile (· ≠ 0)

theorem nul_free_cStr (text : Bytes) : 0 ∉ cStr text := fun h => by
  simpa using List.mem_takeWhile_imp h

/-- `intern(text.c_str())`: a text past the longest is refused. -/
def intern (longest : ℕ) (text : Bytes) : StringId longest :=
  if h : longest = 0 ∨ (cStr text).length ≤ longest then some ⟨cStr text, nul_free_cStr text, h⟩
  else none

/-- `fixed_string_text`. -/
def fixedStringText {longest : ℕ} (id : StringId longest) : Bytes := (id.map (·.text)).getD []

/-- `RawString`, Larian's 16-byte string: up to 15 bytes inline with the length in the last one,
or a buffer with its 32-bit size. -/
inductive RawString where
  | inline (bytes : Bytes) (last : UInt8)
  | buffer (data : Bytes) (size : UInt32)

/-- `RawString raw{}`. -/
def RawString.null : RawString := .inline [] 0

/-- `make_raw`. -/
def makeRaw (text : Bytes) : RawString :=
  if text.length ≤ 15 then .inline text (UInt8.ofNat text.length)
  else .buffer text (UInt32.ofNat text.length)

/-- `read_raw`. -/
def readRaw : RawString → Bytes
  | .inline bytes last => bytes.take (last.toNat % 16)
  | .buffer data size => data.take size.toNat

/-- `Names`, and what other names a save has. -/
inductive Name where
  | scriptExtenderSave | extenderVersion | luaVariables | mod | modId | empty | userVariables
  | entityVariables | entity | variable | name | type | value | modVariables | module
  | persistentTimers | gameTimers | realtimeTimers | timer | time | frozenTime | repeats | paused
  | handler | args
  | other (text : Bytes)
deriving DecidableEq

/-- The value of an attribute; floats by their bits. -/
inductive Value (longest : ℕ) where
  | uint8 (v : UInt8)
  | bool (v : Bool)
  | uint32 (v : UInt32)
  | double (v : UInt64)
  | float (v : UInt32)
  | int64 (v : Int64)
  | fixedString (v : StringId longest)
  | stdString (v : RawString)
  | guid (v : Guid)
  | buffer (v : Bytes)

/-- A node (or a region) of the document. -/
structure Node (longest : ℕ) where
  name : Name
  key : Name := .empty
  attributes : List (Name × Value longest) := []
  children : List (Node longest) := []

namespace Node

variable {longest : ℕ} {α : Type}

/-- Visiting an attribute when reading; `get` takes the value where it is of the visited type. -/
def visit (node : Node longest) (attr : Name) (get : Value longest → Option α) (default : α) : α :=
  (node.attributes.findSome? fun (n, v) => if n = attr then get v else none).getD default

def visitUInt8 (node : Node longest) (attr : Name) : UInt8 → UInt8 :=
  node.visit attr fun | .uint8 v => some v | _ => none

def visitBool (node : Node longest) (attr : Name) : Bool → Bool :=
  node.visit attr fun | .bool v => some v | _ => none

def visitUInt32 (node : Node longest) (attr : Name) : UInt32 → UInt32 :=
  node.visit attr fun | .uint32 v => some v | _ => none

def visitDouble (node : Node longest) (attr : Name) : UInt64 → UInt64 :=
  node.visit attr fun | .double v => some v | _ => none

def visitFloat (node : Node longest) (attr : Name) : UInt32 → UInt32 :=
  node.visit attr fun | .float v => some v | _ => none

def visitInt64 (node : Node longest) (attr : Name) : Int64 → Int64 :=
  node.visit attr fun | .int64 v => some v | _ => none

def visitFixedString (node : Node longest) (attr : Name) : StringId longest → StringId longest :=
  node.visit attr fun | .fixedString v => some v | _ => none

def visitSTDString (node : Node longest) (attr : Name) : RawString → RawString :=
  node.visit attr fun | .stdString v => some v | _ => none

/-- `VisitGuid`, whose default is the null GUID. -/
def visitGuid (node : Node longest) (attr : Name) : Guid :=
  node.visit attr (fun | .guid v => some v | _ => none) Guid.null

/-- `ReadBuffer`, which fails where no buffer was written. -/
def readBuffer (node : Node longest) (attr : Name) : Option Bytes :=
  node.visit attr (fun | .buffer v => some (some v) | _ => none) none

/-- The nodes that a loop over `VisitCount` and `EnterNode` for a name enters, in order. -/
def named (node : Node longest) (child : Name) : List (Node longest) :=
  node.children.filter (·.name = child)

/-- The node that a single `EnterNode` enters when reading, if there is one. -/
def enter (node : Node longest) (child : Name) : Option (Node longest) :=
  node.children.find? (·.name = child)

end Node

/-- A save, by its regions. -/
abbrev Save (longest : ℕ) := List (Node longest)

/-- `EnterRegion` when reading. -/
def enterRegion {longest : ℕ} (save : Save longest) (region : Name) : Option (Node longest) :=
  save.find? (·.name = region)

end Savegame
end Bg3le
