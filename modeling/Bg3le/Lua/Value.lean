import Bg3le.Bytes

/-!
# Lua values

The values that cross between contexts, and when `Ext.Json.Stringify` accepts one.
-/

namespace Bg3le
namespace Lua

/-- A key of a table; a `number` is the bits of a float. -/
inductive Key where
  | string (s : Bytes)
  | integer (i : Int64)
  | number (bits : UInt64)
  | boolean (b : Bool)
  /-- A table, a function or a userdata, by its identity. -/
  | object (id : ℕ)
deriving DecidableEq

mutual

/-- A value; `other` is a function, a userdata or a proxy, by its identity. -/
inductive Value where
  | nil
  | boolean (b : Bool)
  | integer (i : Int64)
  | number (bits : UInt64)
  | string (s : Bytes)
  | table (entries : Entries)
  | other (id : ℕ)

/-- The entries of a table, in the order `next` gives them. -/
inductive Entries where
  | nil
  | cons (key : Key) (value : Value) (rest : Entries)

end

instance : Inhabited Value := ⟨.nil⟩

def Value.isNil : Value → Bool
  | .nil => true
  | _ => false

def Value.isTable : Value → Bool
  | .table _ => true
  | _ => false

/-- Whether a condition takes it for true. -/
def Value.truthy : Value → Bool
  | .nil | .boolean false => false
  | _ => true

def Entries.toList : Entries → List (Key × Value)
  | .nil => []
  | .cons key value rest => (key, value) :: rest.toList

/-- `entries[key]`. -/
def Entries.get (key : Key) : Entries → Value
  | .nil => .nil
  | .cons k value rest => if k = key then value else rest.get key

/-- `value[name]`; indexing anything but a table or a string raises. -/
def Value.index (name : Bytes) : Value → Option Value
  | .table entries => some (entries.get (.string name))
  | .string _ => some .nil
  | _ => none

/-! ### `Ext.Json.Stringify` -/

/-- `MaxDepth`. -/
def kMaxDepth : ℕ := 64

/-- `key_text`. -/
def Key.stringifies : Key → Bool
  | .string _ | .integer _ | .number _ => true
  | _ => false

mutual

/-- Whether `stringify` returns, at a depth: it raises past `MaxDepth`, for a key that is neither
a string nor a number, and for a value of another type. `labelled` are the userdata that are enum
or bitfield values, which are written as their labels. -/
def Value.stringifies (labelled : ℕ → Bool) (depth : ℕ) : Value → Bool
  | .table entries => decide (depth ≤ kMaxDepth) && entries.stringifies labelled (depth + 1)
  | .other id => decide (depth ≤ kMaxDepth) && labelled id
  | _ => decide (depth ≤ kMaxDepth)

def Entries.stringifies (labelled : ℕ → Bool) (depth : ℕ) : Entries → Bool
  | .nil => true
  | .cons key value rest =>
    key.stringifies && value.stringifies labelled depth && rest.stringifies labelled depth

end

end Lua
end Bg3le
