import Bg3le.Bytes
import Bg3le.Library.NumberText

/-!
# The settings of a plugin

A plugin registers variables of its own as settings; Lua writes them, and each write saves them
all to a file beside the plugin, which the next start reads first. One plugin, whose
`bg3le_plugin_init` registers its settings and returns 0; the file is `none` where there is none,
and saving it does not fail.
-/

namespace Bg3le
namespace Plugins

open NumberText

/-- `bg3le_setting_type`. -/
inductive SettingType
  | bool
  | int
  | float
  deriving DecidableEq

/-- What the variable of a setting holds, by its type. -/
inductive Variable
  | bool (value : Int32)
  | int (value : Int32)
  | float (value : Single)
  deriving DecidableEq

def Variable.type : Variable → SettingType
  | .bool _ => .bool
  | .int _ => .int
  | .float _ => .float

structure Setting where
  id : Bytes
  value : Variable
  min : Number
  max : Number
  deriving DecidableEq

/-- A `std::map` as the list of its assignments, of which the last to a key counts. -/
abbrev Saved := List (Bytes × Number)

def Saved.find (saved : Saved) (id : Bytes) : Option Number := saved.reverse.lookup id

structure Plugin where
  name : Bytes
  settings : List Setting
  saved : Saved

/-! ## Reading the file -/

/-- The text before the first of a character, and the text after it. -/
def cutAt (c : UInt8) (text : Bytes) : Option (Bytes × Bytes) :=
  if text.contains c then some (text.takeWhile (· ≠ c), (text.dropWhile (· ≠ c)).drop 1) else none

def isBlank (c : UInt8) : Bool := c = 0x20 ∨ c = 0x09 ∨ c = 0x0a ∨ c = 0x0d

/-- What `read_settings` takes from the text after a colon, as a C string. -/
def readNumber (text : Bytes) : Option Number :=
  let v := (text.takeWhile (· ≠ 0)).dropWhile isBlank
  if bytes "true" <+: v then some (ofRat 1)
  else if bytes "false" <+: v then some (ofRat 0)
  else strtod v

/-- The loop of `read_settings`, in so many rounds. -/
def readEntries : ℕ → Bytes → Saved
  | 0, _ => []
  | rounds + 1, text =>
    match cutAt 0x22 text with
    | none => []
    | some (_, rest) =>
      match cutAt 0x22 rest with
      | none => []
      | some (key, rest) =>
        match cutAt 0x3a rest with
        | none => []
        | some (_, v) => ((readNumber v).map (Prod.mk key)).toList ++ readEntries rounds v

/-- `read_settings`; each round goes past a character. -/
def readSettings (text : Bytes) : Saved := readEntries text.length text

/-! ## Values -/

/-- `read_value`. -/
def readValue (s : Setting) : Number :=
  match s.value with
  | .bool i => ofRat i.toInt
  | .int i => ofRat i.toInt
  | .float x => x.value

/-- `<` of doubles. -/
def less : Number → Number → Bool
  | some x, some y => x < y
  | _, _ => false

/-- `std::clamp`. -/
def clamp (v low high : Number) : Number :=
  if less v low then low else if less high v then high else v

/-- `std::lround` as an `int`; what a `long` has no room for becomes the least one. -/
def lround (v : Number) : Int32 :=
  match rational v with
  | none => Int32.ofInt (-2 ^ 63)
  | some x =>
    let n := Rounding.nearestAway x
    Int32.ofInt (if -2 ^ 63 ≤ n ∧ n < 2 ^ 63 then n else -2 ^ 63)

/-- A value within the range, if the setting has one. -/
def Setting.clamped (s : Setting) (v : Number) : Number :=
  if less s.min s.max then clamp v s.min s.max else v

/-- `write_value`. -/
def writeValue (s : Setting) (v : Number) : Setting :=
  { s with value :=
      match s.value with
      | .bool _ => .bool (if s.clamped v ≠ ofRat 0 then 1 else 0)
      | .int _ => .int (lround (s.clamped v))
      | .float _ => .float (toSingle (s.clamped v)) }

/-! ## Writing the file -/

def valueText (s : Setting) : Bytes :=
  match s.value with
  | .bool _ => if readValue s ≠ ofRat 0 then bytes "true" else bytes "false"
  | .int i => formatD i.toInt
  | .float x => formatG 9 x.value

def line (s : Setting) : Bytes := bytes "  \"" ++ s.id ++ bytes "\": " ++ valueText s

def lines : List Setting → Bytes
  | [] => []
  | [s] => line s ++ bytes "\n"
  | s :: next :: rest => line s ++ bytes ",\n" ++ lines (next :: rest)

/-- The text that `save_settings` writes. -/
def saveSettings (p : Plugin) : Bytes := [0x7b, 0x0a] ++ lines p.settings ++ [0x7d, 0x0a]

/-! ## The host and Lua -/

/-- `host_add_setting`, of a variable that holds what the setting says. -/
def hostAddSetting (p : Plugin) (s : Setting) : ℤ × Plugin :=
  if s.id = [] ∨ (p.settings.map Setting.id).contains s.id then (-1, p)
  else
    let s := match p.saved.find s.id with
      | some v => writeValue s v
      | none => s
    (0, { p with settings := p.settings ++ [s] })

/-- A plugin and its settings file. -/
structure Session where
  plugin : Plugin
  file : Option Bytes

/-- What `plugins_load` does for a plugin that registers these settings. -/
def load (name : Bytes) (file : Option Bytes) (registered : List Setting) : Session :=
  let saved := (file.map readSettings).getD []
  let plugin := registered.foldl (fun p s => (hostAddSetting p s).2) ⟨name, [], saved⟩
  ⟨plugin, if plugin.settings.isEmpty then file else some (saveSettings plugin)⟩

/-- The settings with the one that `find_setting` finds written. -/
def writeFound (id : Bytes) (v : Number) : List Setting → Option (List Setting)
  | [] => none
  | s :: rest =>
    if s.id = id then some (writeValue s v :: rest)
    else (writeFound id v rest).map (s :: ·)

/-- The value that Lua passes. -/
inductive Argument
  | boolean (b : Bool)
  | number (x : Number)
  | other

/-- The number that is written for it. -/
def Argument.number? : Argument → Option Number
  | .boolean b => some (ofRat (if b then 1 else 0))
  | .number x => some x
  | .other => none

inductive Answer
  | raised (message : Bytes)
  | failed (why : Bytes)
  | done
  deriving DecidableEq

/-- `bg3le_ext_plugin_set`, for the name of this plugin. -/
def pluginSet (session : Session) (id : Bytes) (value : Argument) : Answer × Session :=
  match value.number? with
  | none => (.raised (bytes "expected a number or a boolean"), session)
  | some v =>
    match writeFound id v session.plugin.settings with
    | none =>
      (.failed (bytes "plugin " ++ session.plugin.name ++ bytes " has no setting " ++ id), session)
    | some settings =>
      let plugin := { session.plugin with settings := settings }
      (.done, ⟨plugin, some (saveSettings plugin)⟩)

/-- A sequence of `PluginSet` calls. -/
def afterCalls (session : Session) (calls : List (Bytes × Argument)) : Session :=
  calls.foldl (fun s call => (pluginSet s call.1 call.2).2) session

end Plugins
end Bg3le
