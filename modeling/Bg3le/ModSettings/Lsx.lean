import Bg3le.ModSettings.Ordered
import Bg3le.Pak.Listing

/-!
# The load order as a file

`tools/modsettings.cpp` reads the `meta.lsx` of each mod and writes the order to `modsettings.lsx`.
`bg3le_ext_mod_settings_order` reads it back. Both search for the pieces of text that they know.
-/

namespace Bg3le
namespace ModSettings

open Pak (slice cString)

/-! ## Searching -/

/-- `text.find(needle, at)` -/
def find (needle text : Bytes) (at_ : ℕ) : Option ℕ := (Pak.find needle (text.drop at_)).map (at_ + ·)

/-- `text.rfind(c, at)` -/
def rfind (c : UInt8) (text : Bytes) (at_ : ℕ) : Option ℕ := Pak.rfind c (text.take (at_ + 1))

/-! ## Metadata -/

/-- What a round of the loop of `attribute` comes to: the value is found or there is none, or the loop
goes on. -/
def attributeAt (block : Bytes) (at_ : ℕ) : Option Bytes :=
  match rfind 60 block at_ with
  | none => none
  | some lt =>
    if slice block lt 10 ≠ bytes "<attribute" then none
    else
      match find (bytes "value=\"") block at_, find (bytes ">") block at_ with
      | some value, some stop =>
        if stop < value then none
        else
          some (match find (bytes "\"") block (value + 7) with
            | none => []
            | some to_ => slice block (value + 7) (to_ - (value + 7)))
      | _, _ => none

/-- The loop of `attribute`. It goes on behind what it looked at. -/
def attributeFrom (block needle : Bytes) : ℕ → ℕ → Bytes
  | 0, _ => []
  | rounds + 1, at_ =>
    match find needle block at_ with
    | none => []
    | some at_ =>
      (attributeAt block at_).getD (attributeFrom block needle rounds (at_ + needle.length))

/-- `attribute` -/
def attributeValue (block : Bytes) (id : String) : Bytes :=
  attributeFrom block (bytes "id=\"" ++ bytes id ++ bytes "\"") (block.length + 1) 0

/-- `node` -/
def node (text : Bytes) (id : String) : Bytes :=
  match find (bytes "<node id=\"" ++ bytes id ++ bytes "\"") text 0 with
  | none => []
  | some at_ =>
    let rest := text.drop at_
    let closes := find (bytes "</node>") text at_
    match find (bytes "<children>") text at_ with
    | some children =>
      if closes.all (children < ·) then
        match find (bytes "</children>") text children with
        | none => rest
        | some stop => slice text at_ (stop - at_)
      else match closes with
        | none => rest
        | some stop => slice text at_ (stop - at_)
    | none => match closes with
      | none => rest
      | some stop => slice text at_ (stop - at_)

/-- The loop over the dependencies. -/
def needsFrom (deps : Bytes) : ℕ → ℕ → List Bytes
  | 0, _ => []
  | rounds + 1, at_ =>
    match find (bytes "<node id=\"ModuleShortDesc\"") deps at_ with
    | none => []
    | some at_ =>
      let stop := find (bytes "</node>") deps at_
      let uuid := attributeValue (slice deps at_ (stop.getD deps.length - at_)) "UUID"
      (if uuid = [] then [] else [uuid]) ++
        match stop with
        | none => []
        | some stop => needsFrom deps rounds (stop + 1)

/-- A value, or another one where it is empty. -/
def orElse (value other : Bytes) : Bytes := if value = [] then other else value

/-- `parse_meta` -/
def parseMeta (text : Bytes) : Option Mod :=
  let info := node text "ModuleInfo"
  if info = [] then none
  else
    let folder := attributeValue info "Folder"
    let version := orElse (attributeValue info "Version64") (attributeValue info "Version")
    if attributeValue info "UUID" = [] ∨ folder = [] then none
    else
      let deps := node text "Dependencies"
      some {
        uuid := attributeValue info "UUID"
        name := orElse (attributeValue info "Name") folder
        folder := folder
        version := orElse version (bytes "36028797018963968")
        publishHandle := orElse (attributeValue info "PublishHandle") (bytes "0")
        md5 := []
        needs := needsFrom deps (deps.length + 1) 0
        pak := [] }

/-! ## Writing -/

/-- A line of an entry: a value between what stands before and behind it. A `%s` ends at a zero. -/
def line (id type : String) (value : Bytes) : Bytes :=
  bytes "                            <attribute id=\"" ++ bytes id ++ bytes "\" type=\"" ++ bytes type ++
    bytes "\" value=\"" ++ cString value ++ bytes "\"/>\n"

/-- An entry up to where it closes. -/
def openEntry (mod : Mod) : Bytes :=
  bytes "                        <node id=\"ModuleShortDesc\">\n" ++ line "Folder" "LSString" mod.folder ++
    line "MD5" "LSString" mod.md5 ++ line "Name" "LSString" mod.name ++
    line "PublishHandle" "uint64" mod.publishHandle ++ line "UUID" "guid" mod.uuid ++
    line "Version64" "int64" mod.version ++ bytes "                        "

/-- `write_entry` -/
def writeEntry (mod : Mod) : Bytes := openEntry mod ++ bytes "</node>\n"

/-- The campaign module, which the engine writes first. -/
def campaign : Mod where
  folder := bytes "GustavX"
  md5 := []
  name := bytes "GustavX"
  publishHandle := bytes "0"
  uuid := bytes "cb555efe-2d9e-131f-8195-a89329d218ea"
  version := bytes "36028797018963968"

def header : Bytes :=
  bytes "<?xml version=\"1.0\" encoding=\"UTF-8\"?>\n" ++ bytes "<save>\n" ++
    bytes "    <version major=\"4\" minor=\"8\" revision=\"0\" build=\"700\"/>\n" ++
    bytes "    <region id=\"ModuleSettings\">\n" ++ bytes "        <node id=\"root\">\n" ++
    bytes "            <children>\n" ++ bytes "                <node id=\"Mods\">\n" ++
    bytes "                    <children>\n"

def footer : Bytes :=
  bytes "                    </children>\n" ++ bytes "                </node>\n" ++
    bytes "            </children>\n" ++ bytes "        </node>\n" ++ bytes "    </region>\n" ++
    bytes "</save>\n"

/-- What `main` writes to `modsettings.lsx` for the mods in their order. -/
def writeSettings (order : List Mod) : Bytes :=
  header ++ (campaign :: order).flatMap writeEntry ++ footer

/-! ## Reading -/

/-- A round of the loop of `bg3le_ext_mod_settings_order`: the UUID that it adds, and where it goes on
if it does. -/
def readEntry (text : Bytes) (at_ : ℕ) : Option (Option Bytes × ℕ) :=
  match find (bytes "<node id=\"ModuleShortDesc\"") text at_ with
  | none => none
  | some entry =>
    let stop := find (bytes "</node>") text entry
    match find (bytes "id=\"UUID\"") text entry with
    | none => some (none, entry + 1)
    | some uuid =>
      if stop.any (· < uuid) then some (none, entry + 1)
      else
        match find (bytes "value=\"") text uuid with
        | none => none
        | some value =>
          match find (bytes "\"") text (value + 7) with
          | none => none
          | some to_ => some (some (slice text (value + 7) (to_ - (value + 7))), stop.getD to_)

/-- The loop of `bg3le_ext_mod_settings_order`. -/
def readFrom (text : Bytes) : ℕ → ℕ → List Bytes
  | 0, _ => []
  | rounds + 1, at_ =>
    match readEntry text at_ with
    | none => []
    | some (uuid, next) => uuid.toList ++ readFrom text rounds next

/-- `bg3le_ext_mod_settings_order`, of the text of the file. -/
def modSettingsOrder (text : Bytes) : List Bytes := readFrom text (text.length + 1) 0

end ModSettings
end Bg3le
