import Mathlib.Data.List.Infix
import Bg3le.Install.Text
import Bg3le.Library.Regex

/-!
# The launch option: `_quote`, `add_wrapper` and `remove_wrapper` of `install.py`
-/

namespace Bg3le
namespace Install

/-- `WRAPPER_NAME`. -/
def wrapperName : Str := py "bg3le-launch"

/-- `%command%`, which Steam replaces by the game's own command. -/
def command : Str := py "%command%"

/-- `_quote`: the characters of the class are whitespace, both quotes, `$`, the backquote and the
backslash. -/
def quote (path : Str) : Str :=
  if path.any fun c => isSpace c || c ∈ [34, 39, 36, 96, 92] then 34 :: path ++ [34] else path

/-- `re.search(r"%command%", options, re.I)`. -/
def commandRegex : Regex ℕ := .litBy lowerChar command

/-- `add_wrapper`. -/
def addWrapper (options wrapper : Str) : Str :=
  if wrapperName <:+: options then options
  else
    let token := quote wrapper
    match commandRegex.search options with
    | none => strip (token ++ py " %command% " ++ options)
    | some (before, found) => before ++ token ++ py " " ++ found

/-- The first branch of `remove_wrapper`'s pattern: `"[^"]*bg3le-launch"`. -/
def quotedWrapper : Regex ℕ :=
  .seq (.char (· == 34)) (.seq (.many (· != 34)) (.seq (.lit wrapperName) (.char (· == 34))))

/-- The second branch: `\S*bg3le-launch`. -/
def plainWrapper : Regex ℕ := .seq (.many fun c => !isSpace c) (.lit wrapperName)

/-- The pattern of `remove_wrapper`. -/
def wrapperRegex : Regex ℕ := .seq (.alt quotedWrapper plainWrapper) (.many isSpace)

/-- What `remove_wrapper` returns of what the pattern leaves. -/
def withoutCommand (out : Str) : Str := if lower (strip out) = command then [] else strip out

/-- `remove_wrapper`. -/
def removeWrapper (options : Str) : Str := withoutCommand (wrapperRegex.remove options)

end Install
end Bg3le
