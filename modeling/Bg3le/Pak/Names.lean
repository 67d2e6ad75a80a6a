import Bg3le.Bytes

/-!
# File names of an archive

The helpers of `pak_fix.cpp` on names and texts. Characters are bytes; a slash is 47, a backslash
92 and a dot 46.
-/

namespace Bg3le
namespace Pak

/-- `lower`. -/
def lower (c : UInt8) : UInt8 := if 65 ≤ c ∧ c ≤ 90 then c + 32 else c

/-- A backslash read as a slash. -/
def slashed (c : UInt8) : UInt8 := if c = 92 then 47 else c

/-- `lowered`. -/
def lowered (s : Bytes) : Bytes := s.map fun c => lower (slashed c)

/-- `iequals`. -/
def iequals (a b : Bytes) : Bool := a.map lower = b.map lower

/-- `iends_with`. -/
def iendsWith (s suffix : Bytes) : Bool :=
  suffix.length ≤ s.length && iequals (s.drop (s.length - suffix.length)) suffix

/-- `s.rfind(c)`. -/
def rfind (c : UInt8) (s : Bytes) : Option ℕ := (s.reverse.idxOf? c).map fun k => s.length - 1 - k

/-- `s.find(needle)`. -/
def find (needle : Bytes) : Bytes → Option ℕ
  | [] => if needle = [] then some 0 else none
  | c :: s => if needle <+: c :: s then some 0 else (find needle s).map (· + 1)

/-- `s.substr(pos, len)`. -/
def slice (s : Bytes) (pos len : ℕ) : Bytes := (s.drop pos).take len

/-- The offsets that `s.find('/', begin)` goes through. -/
def slashes (s : Bytes) : List ℕ := (List.range s.length).filter fun k => s[k]? = some 47

/-- `last_component`. -/
def lastComponent (name : Bytes) : Bytes :=
  match rfind 47 name with
  | none => name
  | some slash => name.drop (slash + 1)

/-- `extension`. -/
def extension (name : Bytes) : Bytes :=
  match rfind 46 (lastComponent name) with
  | none | some 0 => []
  | some dot => lowered ((lastComponent name).drop (dot + 1))

/-- `is_text`. -/
def isText (ext : Bytes) : Bool :=
  ["lsx", "lsj", "xml", "xaml", "txt", "khn", "lua", "json", "ini", "cfg", "yaml", "yml"].any
    (bytes · = ext)

/-- `is_lsf`. -/
def isLsf (ext : Bytes) : Bool := ["lsf", "lsfx", "lsbc", "lsbs"].any (bytes · = ext)

/-- `fixed_name`. -/
def fixedName (leaf : Bytes) : Bool :=
  ["meta.lsx", "metadata.lsx", "metadata.lsf", "config.json", "bootstrapserver.lua",
    "bootstrapclient.lua", "story_header.div"].any (bytes · = lowered leaf)

/-- `gui_metadata`. -/
def guiMetadata (name : Bytes) : Bool :=
  iendsWith name (bytes "/GUI/metadata.lsx") || iendsWith name (bytes "/GUI/metadata.lsf")

/-- `icon_directory`. -/
def iconDirectory (lowerName : Bytes) : Bool :=
  (find (bytes "/gui/assets") lowerName).isSome &&
    match rfind 47 lowerName with
    | none => false
    | some slash =>
      ["/tooltips/icons/", "/tooltips/itemicons/", "/controlleruiicons/skills_png/",
        "/controlleruiicons/items_png/"].any fun dir =>
          dir.length ≤ slash + 1 && slice lowerName (slash + 1 - dir.length) dir.length = bytes dir

/-- `kCanonical`. -/
def canonical : List (Bytes × Bytes) :=
  [("gui", "GUI"), ("assets", "Assets"), ("assetslowres", "AssetsLowRes"),
    ("tooltips", "Tooltips"), ("icons", "Icons"), ("itemicons", "ItemIcons"),
    ("controlleruiicons", "ControllerUIIcons"), ("skills_png", "skills_png"),
    ("items_png", "items_png")].map fun (low, name) => (bytes low, bytes name)

/-- `required_from`: in Lua only the path below the mod's own Lua root is a reference. -/
def requiredFrom (source name : Bytes) (len : ℕ) : Bool :=
  if extension source ≠ bytes "lua" then true
  else
    match find (bytes "/scriptextender/lua/") (lowered source) with
    | none => false
    | some at_ =>
      let root := at_ + (bytes "/scriptextender/lua/").length
      name.length = root + len && (lowered name).take root = (lowered source).take root

end Pak
end Bg3le
