import Bg3le.Install.Text

/-!
# KeyValues text, edited in place: `parse_vdf` and `set_launch_options` of `install.py`
-/

namespace Bg3le
namespace Install

/-- What the installer raises: a `ValueError` with its message, or the `TypeError` of subscripting
a missing value. -/
inductive VdfError where
  | valueError (message : Str)
  | typeError
deriving DecidableEq

/-- `"%s at offset %d"`. -/
def VdfError.at (message : String) (offset : ℕ) : VdfError :=
  .valueError (py message ++ py " at offset " ++ py (toString offset))

/-! ## Tokens -/

/-- `_unescape`: the dot of its pattern does not match a newline. -/
def unescape : Str → Str
  | [] => []
  | 92 :: 10 :: s => 92 :: 10 :: unescape s
  | 92 :: c :: s => (if c = 110 then 10 else if c = 116 then 9 else c) :: unescape s
  | c :: s => c :: unescape s

/-- `_escape`. -/
def escape : Str → Str
  | [] => []
  | c :: s => if c = 92 ∨ c = 34 then 92 :: c :: escape s else c :: escape s

/-- An entry of `tokens`. -/
inductive Token where
  | string (start stop : ℕ) (text : Str)
  | openBrace (start : ℕ)
  | closeBrace (start : ℕ)
deriving DecidableEq

/-- `(?:[^"\\]|\\.)*"`: the raw text up to the closing quote, and what follows that quote. -/
def stringBody : Str → Option (Str × Str)
  | [] => none
  | 34 :: s => some ([], s)
  | [92] => none
  | 92 :: c :: s => (stringBody s).map fun (raw, rest) => (92 :: c :: raw, rest)
  | c :: s => (stringBody s).map fun (raw, rest) => (c :: raw, rest)

/-- What `_TOKEN` can match: whitespace or a comment, a string with its raw text, or a brace. -/
inductive Match where
  | skipped
  | string (raw : Str)
  | openBrace
  | closeBrace

/-- `_TOKEN.match`, by what it matches and what it leaves. -/
def matchToken : Str → Option (Match × Str)
  | [] => none
  | c :: s =>
    if isSpace c then some (.skipped, s.dropWhile isSpace)
    else if c = 47 ∧ s.head? = some 47 then some (.skipped, s.tail.dropWhile (· ≠ 10))
    else if c = 34 then (stringBody s).map fun (raw, rest) => (.string raw, rest)
    else if c = 123 then some (.openBrace, s)
    else if c = 125 then some (.closeBrace, s)
    else none

/-- The loop that fills `tokens`, at offset `pos` and after `skip` characters of the last match. -/
def tokensFrom : ℕ → ℕ → Str → Except VdfError (List Token)
  | _, _, [] => .ok []
  | skip + 1, pos, _ :: s => tokensFrom skip (pos + 1) s
  | 0, pos, c :: s =>
    match matchToken (c :: s) with
    | none => .error (.at "unexpected text" pos)
    | some (found, rest) => do
      let tokens ← tokensFrom (s.length - rest.length) (pos + 1) s
      return match found with
        | .skipped => tokens
        | .string raw => .string pos (pos + (s.length + 1 - rest.length)) (unescape raw) :: tokens
        | .openBrace => .openBrace pos :: tokens
        | .closeBrace => .closeBrace pos :: tokens

/-! ## Blocks -/

/-- `Node`: a string value with its offsets, or a block with the offset of its closing brace. -/
inductive Node where
  | string (key : Str) (start stop : ℕ) (text : Str)
  | block (key : Str) (children : List Node) (close : ℕ)

def Node.key : Node → Str
  | .string key .. | .block key .. => key

/-- A block that is not closed yet, with its children so far. -/
structure Frame where
  key : Str
  children : List Node

def Frame.add (frame : Frame) (node : Node) : Frame :=
  { frame with children := frame.children ++ [node] }

/-- The loop over `tokens`: `top` is the innermost open block and `stack` holds those around it,
with the root last. Returns the root's children. -/
def parseTokens (top : Frame) (stack : List Frame) : List Token → Except VdfError (List Node)
  | [] => if stack = [] then .ok top.children else .error (.valueError (py "unterminated block"))
  | .closeBrace start :: tokens =>
    match stack with
    | [] => .error (.at "unbalanced brace" start)
    | parent :: stack => parseTokens (parent.add (.block top.key top.children start)) stack tokens
  | .openBrace start :: _ => .error (.at "expected a key" start)
  | [.string start _ _] => .error (.at "expected a key" start)
  | .string _ _ key :: .string start stop text :: tokens =>
    parseTokens (top.add (.string key start stop text)) stack tokens
  | .string _ _ key :: .openBrace _ :: tokens => parseTokens ⟨key, []⟩ (top :: stack) tokens
  | .string _ _ _ :: .closeBrace start :: _ => .error (.at "unexpected brace" start)

/-- `parse_vdf`: the children of the root block. -/
def parseVdf (text : Str) : Except VdfError (List Node) := do
  parseTokens ⟨[], []⟩ [] (← tokensFrom 0 0 text)

/-- `Node.child`, of a block's children. -/
def child (key : Str) (children : List Node) : Option Node :=
  children.find? fun node => lower node.key = lower key

/-- The children and the closing brace of the block that a path of keys leads to. -/
def blockAt : List Str → List Node → Option (List Node × ℕ)
  | [], _ => none
  | key :: path, nodes =>
    match child key nodes with
    | some (.block _ children close) =>
      if path = [] then some (children, close) else blockAt path children
    | _ => none

/-! ## The edit -/

/-- `text.rfind("\n", 0, close) + 1`. -/
def lineStart (text : Str) (close : ℕ) : ℕ := ((text.take close).rdropWhile (· ≠ 10)).length

/-- `_depth_indent`. -/
def depthIndent (text : Str) (close : ℕ) : Str := (text.take close).drop (lineStart text close)

/-- `APP_ID`. -/
def appId : Str := py "1086940"

def launchOptionsKey : Str := py "LaunchOptions"

/-- `path`. -/
def steamPath : List Str := [py "UserLocalConfigStore", py "Software", py "Valve", py "Steam"]

/-- The line that `LaunchOptions` is added with. -/
def optionLine (indent new : Str) : Str :=
  indent ++ py "\t\"LaunchOptions\"\t\t\"" ++ escape new ++ py "\"\n"

/-- The lines that the app's block is added with. -/
def appBlock (indent new : Str) : Str :=
  indent ++ py "\t\"" ++ appId ++ py "\"\n" ++ indent ++ py "\t\x7b\n" ++ indent
    ++ py "\t\t\"LaunchOptions\"\t\t\"" ++ escape new ++ py "\"\n" ++ indent ++ py "\t\x7d\n"

/-- `text[:at] + line + text[at:]`, at the start of the line that the closing brace is on. -/
def spliceLine (text : Str) (close : ℕ) (line : Str → Str → Str) (new : Str) : Str :=
  text.take (lineStart text close) ++ line (depthIndent text close) new
    ++ text.drop (lineStart text close)

/-- `set_launch_options` from `app = apps.child(APP_ID)` on. -/
def setInApps (text : Str) (transform : Str → Str) (apps : List Node) (appsClose : ℕ) :
    Except VdfError (Str × Str × Str) :=
  match child appId apps with
  | some (.block _ app appClose) =>
    match child launchOptionsKey app with
    | some (.string _ start stop old) =>
      let new := transform old
      if new = old then .ok (text, old, new)
      else .ok (text.take start ++ 34 :: escape new ++ 34 :: text.drop stop, old, new)
    | some (.block ..) => .error .typeError
    | none =>
      let new := transform []
      if new = [] then .ok (text, [], new)
      else .ok (spliceLine text appClose optionLine new, [], new)
  | _ =>
    let new := transform []
    if new = [] then .ok (text, [], new)
    else .ok (spliceLine text appsClose appBlock new, [], new)

/-- `set_launch_options`: the new text, the old value and the new one. -/
def setLaunchOptions (text : Str) (transform : Str → Str) : Except VdfError (Str × Str × Str) := do
  let root ← parseVdf text
  match blockAt steamPath root with
  | none => .error (.valueError (py "no UserLocalConfigStore/Software/Valve/Steam block"))
  | some (steam, _) =>
    match blockAt [py "apps"] steam with
    | none => .error (.valueError (py "no apps block"))
    | some (apps, appsClose) => setInApps text transform apps appsClose

end Install
end Bg3le
