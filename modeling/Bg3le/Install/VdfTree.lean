import Bg3le.Install.Vdf
import Bg3le.Library.Transducer

/-!
# What a KeyValues text denotes

The tree of keys, string values and blocks, without offsets; the character by character reading
of a text; and what it is to set one value of a tree.
-/

namespace Bg3le
namespace Install

/-! ## Trees -/

/-- A node without its offsets. -/
inductive Tree where
  | string (key text : Str)
  | block (key : Str) (children : List Tree)

def Tree.key : Tree → Str
  | .string key _ | .block key _ => key

mutual

/-- The tree of a node. -/
def Node.tree : Node → Tree
  | .string key _ _ text => .string key text
  | .block key children _ => .block key (Node.trees children)

def Node.trees : List Node → List Tree
  | [] => []
  | node :: nodes => node.tree :: Node.trees nodes

end

/-- What a text denotes: the trees of the root's children. -/
def denotation (text : Str) : Option (List Tree) :=
  match parseVdf text with
  | .ok nodes => some (Node.trees nodes)
  | .error _ => none

/-- Two keys are the same to `Node.child`. -/
def sameKey (key key' : Str) : Prop := lower key = lower key'

instance (key key' : Str) : Decidable (sameKey key key') := inferInstanceAs (Decidable (_ = _))

/-- `SetAt new path before after`: the value that `path` leads to, through the first child of each
key, is `new` in `after`, and everything else is as in `before`. What is missing of the path is
created, in any place. -/
inductive SetAt (new : Str) : List Str → List Tree → List Tree → Prop
  | replace {key key' old trees} (hkey : sameKey key' key) :
    SetAt new [key] (.string key' old :: trees) (.string key' new :: trees)
  | descend {key path key' children children' trees} (hkey : sameKey key' key)
    (hset : SetAt new path children children') :
    SetAt new (key :: path) (.block key' children :: trees) (.block key' children' :: trees)
  | pass {key path tree trees trees'} (hkey : ¬ sameKey tree.key key)
    (hset : SetAt new (key :: path) trees trees') :
    SetAt new (key :: path) (tree :: trees) (tree :: trees')
  | create {key trees} (hkey : ∀ tree ∈ trees, ¬ sameKey tree.key key) :
    SetAt new [key] trees (.string key new :: trees)
  | createBlock {key path children trees} (hkey : ∀ tree ∈ trees, ¬ sameKey tree.key key)
    (hset : SetAt new path [] children) :
    SetAt new (key :: path) trees (.block key children :: trees)

/-! ## Lexemes -/

/-- A token without its offsets. -/
inductive Lexeme where
  | string (text : Str)
  | openBrace
  | closeBrace
deriving DecidableEq

def Token.lexeme : Token → Lexeme
  | .string _ _ text => .string text
  | .openBrace _ => .openBrace
  | .closeBrace _ => .closeBrace

/-- The lexemes that trees are written with. -/
def flatten : List Tree → List Lexeme
  | [] => []
  | .string key text :: trees => .string key :: .string text :: flatten trees
  | .block key children :: trees =>
    .string key :: .openBrace :: (flatten children ++ .closeBrace :: flatten trees)

/-- Where a reader is in a text. -/
inductive Mode where
  | plain
  | slash
  | comment
  | string (raw : Str)
  | escape (raw : Str)
deriving DecidableEq

/-- One character of the reading. -/
def Mode.next : Mode → ℕ → Option (List Lexeme × Mode)
  | .plain, c =>
    if isSpace c then some ([], .plain)
    else if c = 47 then some ([], .slash)
    else if c = 34 then some ([], .string [])
    else if c = 123 then some ([.openBrace], .plain)
    else if c = 125 then some ([.closeBrace], .plain)
    else none
  | .slash, c => if c = 47 then some ([], .comment) else none
  | .comment, c => some ([], if c = 10 then .plain else .comment)
  | .string raw, c =>
    if c = 34 then some ([.string (unescape raw)], .plain)
    else if c = 92 then some ([], .escape raw)
    else some ([], .string (raw ++ [c]))
  | .escape raw, c => some ([], .string (raw ++ [92, c]))

/-- A text may end outside strings only. -/
def reader : Transducer Mode ℕ Lexeme where
  step := Mode.next
  accepting mode := mode = .plain || mode = .comment

/-- How `parseTokens` makes nodes of tokens. -/
inductive Reads : List Node → List Token → Prop
  | nil : Reads [] []
  | string {key start stop start' stop' text nodes tokens} (h : Reads nodes tokens) :
    Reads (.string key start' stop' text :: nodes)
      (.string start stop key :: .string start' stop' text :: tokens)
  | block {key start stop brace children inner close nodes tokens} (hinner : Reads children inner)
    (h : Reads nodes tokens) :
    Reads (.block key children close :: nodes)
      (.string start stop key :: .openBrace brace :: (inner ++ .closeBrace close :: tokens))

end Install
end Bg3le
