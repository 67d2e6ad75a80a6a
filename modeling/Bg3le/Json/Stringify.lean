import Bg3le.Bytes
import Bg3le.Library.JsonText
import Bg3le.Library.Scientific

/-!
# `Ext.Json.Stringify`

How a Lua value is written as JSON: numbers, strings, tables by their layout, and the views of
engine objects by their metatables.
-/

namespace Bg3le
namespace Json

open NumberText JsonText

/-! ## Strings -/

/-- A digit of `%04X`. -/
def hexDigit (n : ℕ) : UInt8 := if n < 10 then (0x30 + n).toUInt8 else (0x37 + n).toUInt8

/-- `JSON_ESCAPES`, and `\u` before any other control character. -/
def escape (c : UInt8) : Bytes :=
  if c = 0x22 then bytes "\\\""
  else if c = 0x5c then bytes "\\\\"
  else if c = 0x08 then bytes "\\b"
  else if c = 0x0c then bytes "\\f"
  else if c = 0x0a then bytes "\\n"
  else if c = 0x0d then bytes "\\r"
  else if c = 0x09 then bytes "\\t"
  else if c < 0x20 then bytes "\\u00" ++ [hexDigit (c.toNat / 16), hexDigit (c.toNat % 16)]
  else [c]

def jsonString (v : Bytes) : Bytes := 0x22 :: (v.flatMap escape ++ [0x22])

/-! ## Numbers -/

/-- `sci:match("^(%d)%.?(%d*)e([-+]%d+)$")`: the digits, and the exponent. -/
def sciMatch : Bytes → Option (Bytes × ℤ)
  | [] => none
  | lead :: tail =>
    let rest := if tail.head? = some 0x2e then tail.drop 1 else tail
    match rest.dropWhile decimal.isDigit with
    | 0x65 :: sign :: exp =>
      if decimal.isDigit lead ∧ (sign = 0x2d ∨ sign = 0x2b) ∧ exp ≠ [] ∧ exp.all decimal.isDigit then
        some (lead :: rest.takeWhile decimal.isDigit,
          if sign = 0x2d then -decimal.value exp else decimal.value exp)
      else none
    | _ => none

/-- The first of the three lengths that reads back, or the longest. -/
def sci (a : ℚ) : Bytes :=
  if strtod (formatE 14 a) = some (ofRat a) then formatE 14 a
  else if strtod (formatE 15 a) = some (ofRat a) then formatE 15 a
  else formatE 16 a

/-- The digits, with the decimal point behind the first `kk` of them. -/
def layout (digits : Bytes) (kk : ℤ) : Bytes :=
  if digits.length ≤ kk ∧ kk ≤ 21 then
    digits ++ List.replicate (kk.toNat - digits.length) 0x30 ++ bytes ".0"
  else if 0 < kk ∧ kk ≤ 21 then digits.take kk.toNat ++ 0x2e :: digits.drop kk.toNat
  else if -6 < kk ∧ kk ≤ 0 then bytes "0." ++ List.replicate (-kk).toNat 0x30 ++ digits
  else if digits.length = 1 then digits ++ 0x65 :: formatD (kk - 1)
  else digits.take 1 ++ 0x2e :: (digits.drop 1 ++ 0x65 :: formatD (kk - 1))

/-- `json_number` of a positive float. -/
def jsonPositive (a : ℚ) : Bytes :=
  match sciMatch (sci a) with
  | some (digits, exp) => layout (digits.rdropWhile (· = 0x30)) (exp + 1)
  | none => []

/-- `json_number` of a float; NaN and the infinities come out as null. -/
def jsonFloat (v : Double) : Bytes :=
  match rational v.value with
  | none => bytes "null"
  | some x =>
    if x = 0 then (if v.minusZero then bytes "-0.0" else bytes "0.0")
    else if x < 0 then 0x2d :: jsonPositive (-x)
    else jsonPositive x

/-- `tostring` of a float: `%.14g`, and `.0` behind what looks like an integer. -/
def floatText (v : Double) : Bytes :=
  let text := if v.minusZero then bytes "-0" else formatG 14 v.value
  if text.all fun c => decimal.isDigit c || c == 0x2d then text ++ bytes ".0" else text

/-- `%f`. -/
def formatF (v : Double) : Bytes :=
  match rational v.value with
  | none => formatG 6 v.value
  | some x =>
    let n := (Rounding.nearestEven (|x| * 10 ^ 6)).toNat
    (if v.minusZero ∨ x < 0 then [0x2d] else []) ++ digits (n / 10 ^ 6) ++ 0x2e ::
      (List.replicate (6 - (digits (n % 10 ^ 6)).length) 0x30 ++ digits (n % 10 ^ 6))

/-! ## Values -/

/-- A value; `other` is a function or a thread. -/
inductive Value where
  | nil
  | boolean (b : Bool)
  | integer (i : ℤ)
  | float (x : Double)
  | string (s : Bytes)
  | table (t : ℕ)
  | userdata (u : ℕ)
  | other (o : ℕ)
deriving DecidableEq

/-- The array part of a table, holes included, and the hash part, if there is one. -/
structure LuaTable where
  array : List Value
  hash : Option (List (Value × Value))

/-- What `next` goes through. -/
def LuaTable.pairs (t : LuaTable) : List (Value × Value) :=
  (t.array.zipIdx.map fun e => (.integer (e.2 + 1), e.1)).filter (fun e => e.2 ≠ .nil) ++ t.hash.getD []

/-- The array part up to its last element. -/
def LuaTable.elements (t : LuaTable) : List Value := t.array.rdropWhile (· = .nil)

/-- `bg3le_table_is_linear_array`. -/
def LuaTable.isLinearArray (t : LuaTable) : Bool := t.hash.isNone && t.elements.all (· ≠ .nil)

/-- What `Stringify` asks of a metatable: `pairs` is what the view's `__pairs` goes through. -/
structure Metatable where
  pairs : Option (List (Value × Value))
  hasName : Bool
  bg3leIdentity : Option Value
  bg3leContainer : Option Bytes
  bg3leOrdered : Bool

/-- The tables and the views of a state, and the functions of Lua and of the extender that are asked
about them. -/
structure Host where
  table : ℕ → LuaTable
  rawGetMetatable : Value → Option Metatable
  enumLabelOf : ℕ → Option Bytes
  /-- The labels of a bitfield's value. -/
  bitfieldOf : ℕ → Option (List Bytes)
  isEntity : Value → Bool
  tostring : Value → Bytes
  getValueType : Value → Bytes
  /-- `<` on strings. -/
  less : Bytes → Bytes → Bool
  /-- `table.sort`. -/
  sort : {α : Type} → (α → α → Bool) → List α → List α
  sort_perm : ∀ {α : Type} (lt : α → α → Bool) (items : List α), (sort lt items).Perm items

/-- `ctx`, without what it has seen. -/
structure Context where
  beautify : Bool := true
  stringifyInternalTypes : Bool := false
  iterateUserdata : Bool := false
  avoidRecursion : Bool := false
  maxDepth : ℤ := 64
  limitDepth : ℤ := -1
  limitArrayElements : ℤ := -1
  maxDepth_le : maxDepth ≤ 64 := by decide

/-- The text that comes of a value and the identities seen, or an error. -/
abbrev Outcome := Except Bytes (Bytes × List Value)

section

variable (host : Host) (ctx : Context)

/-- `proxy_meta`. -/
def proxyMeta (v : Value) : Option Metatable :=
  (host.rawGetMetatable v).filter fun mt => mt.pairs.isSome || mt.hasName

/-- `identity`. -/
def identity (v : Value) (mt : Metatable) : Value := mt.bg3leIdentity.getD v

def keyError : Bytes := bytes "Can only stringify string or number table keys"

/-- `key_text`; `internal` says whether an object may be a key. -/
def keyText (internal : Bool) : Value → Except Bytes Bytes
  | .string s => .ok s
  | .integer i => .ok (formatD i)
  | .float x => .ok (floatText x)
  | .userdata u => if internal then .ok (host.tostring (.userdata u)) else .error keyError
  | _ => .error keyError

/-- What is to be written of a container: the text of each key, if there are keys, and the value. -/
abbrev Items := List (Option Bytes × Value)

/-- The lines of `emit`. -/
def emitItems (write : Value → List Value → Outcome) (pad : Bytes) (array : Bool) :
    Items → List Value → Outcome
  | [], seen => .ok ([], seen)
  | (key, v) :: items, seen => do
    let (text, seen) ← write v seen
    let (rest, seen) ← emitItems write pad array items seen
    .ok ((if ctx.beautify then 0x0a :: pad else []) ++
      (if array then [] else jsonString (key.getD []) ++ (if ctx.beautify then bytes ": " else bytes ":")) ++
      text ++ (if items.isEmpty then [] else [0x2c]) ++ rest, seen)

/-- `emit`. -/
def emit (write : Bytes → Value → List Value → Outcome) (items : Items) (array : Bool) (indent : Bytes)
    (seen : List Value) : Outcome :=
  let opening : UInt8 := if array then 0x5b else 0x7b
  let closing : UInt8 := if array then 0x5d else 0x7d
  if items.isEmpty then .ok ([opening, closing], seen)
  else do
    let pad := if ctx.beautify then indent ++ bytes "    " else []
    let (body, seen) ← emitItems ctx (write pad) pad array items seen
    .ok (opening :: (body ++ (if ctx.beautify then 0x0a :: indent else []) ++ [closing]), seen)

/-- `rank`. -/
def rank : Value → ℕ
  | .string _ => 0
  | .integer _ => 1
  | _ => 2

/-- The order of keys. -/
def keyLess (a b : Value × Value) : Bool :=
  if rank a.1 ≠ rank b.1 then rank a.1 < rank b.1
  else match a.1, b.1 with
    | .string s, .string t => host.less s t
    | .integer i, .integer j => i < j
    | .float x, .float y => match x.value, y.value with
      | some p, some q => p < q
      | _, _ => false
    | _, _ => false

def isKey : Value → Bool
  | .string _ | .integer _ | .float _ => true
  | _ => false

/-- A key of a table, as text. -/
def tableKey : Value → Except Bytes Bytes
  | .float x => .ok (if ctx.beautify then formatF x else floatText x)
  | k => keyText host false k

/-- The entries of a table that is written as an object. -/
def tableItems (t : LuaTable) : Except Bytes Items :=
  if ctx.beautify && t.pairs.any (fun e => !isKey e.1) then .error keyError
  else (if ctx.beautify then host.sort (keyLess host) t.pairs else t.pairs).mapM fun e => do
    .ok (some (← tableKey host ctx e.1), e.2)

/-- Whether `ctx.Seen` has it, where it is asked. -/
def isSeen (id : Value) (seen : List Value) : Bool := ctx.avoidRecursion && seen.contains id

def mark (id : Value) (seen : List Value) : List Value := if ctx.avoidRecursion then id :: seen else seen

def stringifyTable (write : Bytes → Value → List Value → Outcome) (t : ℕ) (indent : Bytes)
    (seen : List Value) : Outcome :=
  if isSeen ctx (.table t) seen then .ok (bytes "\"*RECURSION*\"", seen)
  else if (host.table t).isLinearArray then
    emit ctx write ((host.table t).elements.map fun v => (none, v)) true indent
      (mark ctx (.table t) seen)
  else do
    emit ctx write (← tableItems host ctx (host.table t)) false indent (mark ctx (.table t) seen)

def internalType (v : Value) (seen : List Value) : Outcome :=
  if ctx.stringifyInternalTypes then .ok (jsonString (host.tostring v), seen)
  else .error (bytes "Attempted to stringify unsupported type: " ++ host.getValueType v)

/-- The entries of a view, as many as the limit lets through. -/
def proxyPairs (mt : Metatable) (pairs : List (Value × Value)) : List (Value × Value) :=
  if mt.bg3leContainer.isSome ∧ ctx.limitArrayElements ≠ -1 then
    pairs.take (ctx.limitArrayElements + 1).toNat
  else pairs

def proxyItems (mt : Metatable) (pairs : List (Value × Value)) : Except Bytes Items :=
  (proxyPairs ctx mt pairs).mapM fun e => do
    if mt.bg3leContainer = some (bytes "array") then .ok (none, e.2)
    else .ok (some (← keyText host ctx.stringifyInternalTypes e.1), e.2)

/-- The members of an object come out in the order of their names. -/
def proxySorted (mt : Metatable) (items : Items) : Items :=
  if mt.bg3leContainer.isNone && !mt.bg3leOrdered then
    host.sort (fun a b => host.less (a.1.getD []) (b.1.getD [])) items
  else items

def stringifyProxy (write : Bytes → Value → List Value → Outcome) (v : Value) (mt : Metatable)
    (indent : Bytes) (depth : ℕ) (seen : List Value) : Outcome :=
  if !ctx.iterateUserdata then internalType host ctx v seen
  else if ctx.limitDepth ≠ -1 ∧ ctx.limitDepth < depth then
    .ok (bytes "\"*DEPTH LIMIT EXCEEDED*\"", seen)
  else if !host.isEntity v && isSeen ctx (identity v mt) seen then .ok (bytes "\"*RECURSION*\"", seen)
  else
    let seen := if host.isEntity v then seen else mark ctx (identity v mt) seen
    match mt.pairs with
    | none => internalType host ctx v seen
    | some pairs => do
      emit ctx write (proxySorted host mt (← proxyItems host ctx mt pairs))
        (mt.bg3leContainer = some (bytes "array")) indent seen

/-- Whether a table is walked as it is. -/
def isPlain (v : Value) : Bool := (proxyMeta host v).all fun mt => mt.pairs.isNone

/-- What `stringify` does by the type of the value. -/
def stringifyValue (write : Bytes → Value → List Value → Outcome) (indent : Bytes) (depth : ℕ) (v : Value)
    (seen : List Value) : Outcome :=
  match v with
  | .nil => .ok (bytes "null", seen)
  | .boolean b => .ok (if b then bytes "true" else bytes "false", seen)
  | .integer i => .ok (formatD i, seen)
  | .float x => .ok (jsonFloat x, seen)
  | .string s => .ok (jsonString s, seen)
  | .table t =>
    if isPlain host v then
      if ctx.limitDepth ≠ -1 ∧ ctx.limitDepth < depth then
        .ok (bytes "\"*DEPTH LIMIT EXCEEDED*\"", seen)
      else stringifyTable host ctx write t indent seen
    else match proxyMeta host v with
      | some mt => stringifyProxy host ctx write v mt indent depth seen
      | none => internalType host ctx v seen
  | .userdata u =>
    match host.enumLabelOf u, host.bitfieldOf u, proxyMeta host v with
    | some label, _, _ => .ok (jsonString label, seen)
    | none, some labels, _ =>
      .ok (0x5b :: (([0x2c] : Bytes).intercalate (labels.map jsonString) ++ [0x5d]), seen)
    | none, none, some mt => stringifyProxy host ctx write v mt indent depth seen
    | none, none, none => internalType host ctx v seen
  | .other _ => internalType host ctx v seen

/-- A value at its level; `MaxDepth` bounds the levels below. -/
def stringify : ℕ → Bytes → ℕ → Value → List Value → Outcome
  | 0, _, _, _, _ => .error (bytes "Recursion depth exceeded while stringifying JSON")
  | fuel + 1, indent, depth, v, seen =>
    if ctx.maxDepth < depth then .error (bytes "Recursion depth exceeded while stringifying JSON")
    else stringifyValue host ctx (fun pad => stringify fuel pad (depth + 1)) indent depth v seen

/-- `Ext.Json.Stringify` with its options read: there are no more than sixty-five levels. -/
def stringifyText (v : Value) : Except Bytes Bytes :=
  (stringify host ctx 66 [] 0 v []).map Prod.fst

end

end Json
end Bg3le
