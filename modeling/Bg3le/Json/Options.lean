import Bg3le.Json.Binary

/-!
# The options of `Ext.Json.Stringify`

What the values behind the first come to, and the binary form that one of them asks for.
-/

namespace Bg3le
namespace Json

open NumberText JsonText

/-- A table of options. A `MaxDepth` that is NaN bounds nothing, and is left out. -/
structure Options where
  get : Bytes → Value
  bounded : ∀ x : Double, get (bytes "MaxDepth") = .float x → x.value ≠ none

/-- `opts[k] == true`, where it is given. -/
def Options.flag (opts : Options) (k : String) (value : Bool) : Bool :=
  if opts.get (bytes k) ≠ .nil then opts.get (bytes k) = .boolean true else value

/-- `math.floor(opts[k])`, where it is a number. What is not finite stands as a limit does that is
never or always passed. -/
def Options.limit (opts : Options) (k : String) (value never : ℤ) : ℤ :=
  match opts.get (bytes k) with
  | .integer i => i
  | .float x =>
    match rational x.value with
    | some q => ⌊q⌋
    | none => if x.value = some ⊥ then -2 else never
  | _ => value

/-- The context that options give. -/
def Options.context (opts : Options) : Context where
  beautify := opts.flag "Beautify" true
  stringifyInternalTypes := opts.flag "StringifyInternalTypes" false
  iterateUserdata := opts.flag "IterateUserdata" false
  avoidRecursion := opts.flag "AvoidRecursion" false
  maxDepth := min (opts.limit "MaxDepth" 64 64) 64
  limitDepth := opts.limit "LimitDepth" (-1) (-1)
  limitArrayElements := opts.limit "LimitArrayElements" (-1) (-1)
  maxDepth_le := Int.min_le_right _ _

/-- The context of the older form, with up to three values behind the first. -/
def contextOfValues (values : List Value) : Context where
  beautify := (values[0]?).all (· = .boolean true)
  stringifyInternalTypes := (values[1]?).any (· = .boolean true)
  iterateUserdata := (values[2]?).any (· = .boolean true)

/-- What is given behind the value. -/
inductive Arguments where
  /-- Options, and how many values there are behind them. -/
  | options (opts : Options) (others : ℕ)
  /-- Values of which the first is no table. -/
  | plain (values : List Value)

def Arguments.count : Arguments → ℕ
  | .options _ others => others + 1
  | .plain values => values.length

def Arguments.context : Arguments → Context
  | .options opts _ => opts.context
  | .plain values => contextOfValues values

/-- `opts.Binary == true`. -/
def Arguments.binary : Arguments → Bool
  | .options opts _ => opts.get (bytes "Binary") = .boolean true
  | .plain _ => false

section

-- `parse` is `Ext.Json.Parse`: the value, and the tables that there are then
variable (host : Host) (hash : Bytes → ℕ) (unsupported : Value → Bytes)
  (parse : Bytes → Except Bytes (Value × (ℕ → LuaTable)))

/-- The binary form. A value that the writer cannot walk goes through the text first. -/
def stringifyBinary (ctx : Context) (v : Value) : Except Bytes Bytes :=
  match jsonBinaryEncode host hash unsupported v with
  | .ok blob => .ok blob
  | .error _ => do
    let text ← stringifyText host { ctx with beautify := false } v
    let (parsed, tables) ← parse text
    jsonBinaryEncode { host with table := tables } hash unsupported parsed

/-- `Ext.Json.Stringify`. -/
def stringifyWith (args : Arguments) (v : Value) : Except Bytes Bytes :=
  if 3 < args.count then .error (bytes "Stringify expects at most three parameters.")
  else if args.binary then stringifyBinary host hash unsupported parse args.context v
  else stringifyText host args.context v

end

end Json
end Bg3le
