import Bg3le.Library.UnionFind
import Bg3le.Pak.LsfDocument
import Bg3le.Pak.Names
import Mathlib.Logic.Function.Basic

/-!
# The case fixer: `Fixer` of `pak_fix.cpp`

Every component of an entry's name belongs to a group, and so does every part of a file's text that
refers to it. Each group is then spelled in one way.
-/

namespace Bg3le
namespace Pak

/-! ## Data -/

/-- `Content`: a file's text, or its document. -/
structure Content where
  file : ℕ
  lsf : Bool
  text : Bytes
  doc : LsfDocument
  changed : Bool

/-- The content of a text file. -/
def Content.ofText (file : ℕ) (text : Bytes) : Content := ⟨file, false, text, LsfDocument.new, false⟩

/-- `Content::bytes`. -/
def Content.bytes (content : Content) : Bytes :=
  if content.lsf then content.doc.values else content.text

/-- `memcpy` into `Content::bytes`. -/
def Content.overwrite (content : Content) (pos : ℕ) (t : Bytes) : Content :=
  if content.lsf then { content with doc := content.doc.overwrite pos t }
  else { content with text := Slots.overwrite content.text pos t }

/-- `Occurrence`: without a content, a range of the entry name `index`. -/
structure Occurrence where
  content : Option ℕ
  index : ℕ
  pos : ℕ
  len : ℕ
deriving DecidableEq

/-- `Group`. -/
structure Group where
  occurrences : List Occurrence
  directory : Bool
  pin : Bytes
  pinConflict : Bool

/-- `Group{}`. -/
def Group.new : Group := ⟨[], false, [], false⟩

/-- `Part`: a component of an entry's name and the group that spells it. -/
structure Part where
  begin : ℕ
  stop : ℕ
  group : ℕ

/-- The groups of the fixer. -/
structure Groups where
  groups : List Group
  parent : List ℕ
  ids : Bytes → Option ℕ

/-- What the fixer knows of the entries: their names, with the components of each, and the indexes
that a reference is looked up in. -/
structure Index where
  names : List Bytes
  parts : ℕ → List Part
  stems : ℕ → ℕ
  full : Bytes → List ℕ
  suffixes : Bytes → List ℕ
  icons : Bytes → List ℕ

structure Fixer where
  index : Index
  groups : Groups

def Index.name (index : Index) (i : ℕ) : Bytes := index.names.getD i []

/-- `push_back` on the vector of a key. -/
def push {κ α : Type*} [DecidableEq κ] (m : κ → List α) (key : κ) (a : α) : κ → List α :=
  Function.update m key (m key ++ [a])

/-! ## Groups -/

namespace Groups

/-- A new group for an id. -/
def withNew (G : Groups) (id : Bytes) (directory : Bool) : Groups where
  groups := G.groups ++ [⟨[], directory, [], false⟩]
  parent := G.parent ++ [G.groups.length]
  ids := Function.update G.ids id (some G.groups.length)

/-- `group`. -/
def group (G : Groups) (id : Bytes) (directory : Bool) : Groups × ℕ :=
  match G.ids id with
  | some g => (G, g)
  | none => (G.withNew id directory, G.groups.length)

/-- `find`. -/
def find (G : Groups) (g : ℕ) : Groups × ℕ :=
  ({ G with parent := (UnionFind.find G.parent g).1 }, (UnionFind.find G.parent g).2)

/-- A change to one group. -/
def modify (G : Groups) (g : ℕ) (change : Group → Group) : Groups :=
  { G with groups := G.groups.modify g change }

end Groups

/-- What `pin` does to a group. -/
def Group.pinTo (spelling : Bytes) (group : Group) : Group :=
  if group.pin = [] then { group with pin := spelling }
  else if group.pin ≠ spelling then { group with pinConflict := true }
  else group

/-- What `unite` does to the group that stays. -/
def Group.merge (source group : Group) : Group where
  occurrences := group.occurrences ++ source.occurrences
  directory := group.directory || source.directory
  pin := if group.pin = [] then source.pin else group.pin
  pinConflict := group.pinConflict || source.pinConflict ||
    (group.pin ≠ [] && source.pin ≠ [] && source.pin ≠ group.pin)

/-- What `add` does to a group. -/
def Group.addOccurrence (o : Occurrence) (group : Group) : Group :=
  { group with occurrences := group.occurrences ++ [o] }

namespace Groups

/-- `pin`. -/
def pin (G : Groups) (g : ℕ) (spelling : Bytes) : Groups :=
  (G.find g).1.modify (G.find g).2 (Group.pinTo spelling)

/-- `unite`. -/
def unite (G : Groups) (a b : ℕ) : Groups :=
  let (G, ra) := G.find a
  let (G, rb) := G.find b
  if ra = rb then G
  else
    { G with
      groups := (G.groups.modify ra (Group.merge (G.groups.getD rb Group.new))).set rb Group.new
      parent := G.parent.set rb ra }

/-- `add`. -/
def add (G : Groups) (g : ℕ) (o : Occurrence) : Groups :=
  (G.find g).1.modify (G.find g).2 (Group.addOccurrence o)

end Groups

/-! ## Entries -/

namespace Fixer

/-- A component of the name of entry `i`, with the group that its id leads to. -/
def addPart (f : Fixer) (i : ℕ) (id : Bytes) (directory : Bool) (begin stop : ℕ) : Fixer × ℕ :=
  let (groups, g) := f.groups.group id directory
  ({ index := { f.index with parts := push f.index.parts i ⟨begin, stop, g⟩ }
     groups := groups.add g ⟨none, i, begin, stop - begin⟩ }, g)

/-- One round of the loop over an entry's directories, with `begin`. -/
def addDirectory (i : ℕ) (low : Bytes) : Fixer × ℕ → ℕ → Fixer × ℕ
  | (f, begin), slash =>
    let (f, _) := f.addPart i (bytes "d:" ++ low.take slash) true begin slash
    ({ f with index :=
        { f.index with suffixes := push f.index.suffixes (low.drop (slash + 1)) i } }, slash + 1)

/-- The loop of `pin_icon_directories` from the last "GUI" on. -/
def pinDirectories (name : Bytes) : List Part → Groups → Groups
  | [], G => G
  | p :: parts, G =>
    let (G, r) := G.find p.group
    if (G.groups.getD r Group.new).directory = false then G
    else
      let G := match canonical.lookup (lowered (slice name p.begin (p.stop - p.begin))) with
        | none => G
        | some spelling => G.pin p.group spelling
      pinDirectories name parts G

/-- `pin_icon_directories`. -/
def pinIconDirectories (f : Fixer) (i : ℕ) : Fixer :=
  let name := f.index.name i
  let parts := f.index.parts i
  let isGui := fun p : Part => iequals (slice name p.begin (p.stop - p.begin)) (bytes "GUI")
  let from_ := ((List.range (parts.length - 1)).filter fun k =>
    (parts[k]?).any isGui).getLast?.getD parts.length
  { f with groups := pinDirectories name (parts.drop from_) f.groups }

/-- The pins of a name that the engine looks for: its components as they are. -/
def pinFixed (f : Fixer) (name : Bytes) (parts : List Part) : Fixer :=
  if fixedName (lastComponent name) then
    { f with groups := parts.foldl (fun G p =>
        G.pin p.group (slice name p.begin (p.stop - p.begin))) f.groups }
  else f

/-- The pins of a GUI texture with the extension group `ext`. -/
def pinTexture (f : Fixer) (i : ℕ) (low : Bytes) (stem ext : Part) : Fixer :=
  let f := { f with groups := f.groups.pin ext.group (bytes "DDS") }
  if iconDirectory low then
    pinIconDirectories { f with index := { f.index with
      icons := push f.index.icons (slice low stem.begin (stem.stop - stem.begin)) i } } i
  else f

/-- `add_entry`. -/
def addEntry (f : Fixer) (i : ℕ) : Fixer :=
  let name := f.index.name i
  let low := lowered name
  let f := { f with index := { f.index with full := push f.index.full low i } }
  let (f, begin) := (slashes name).foldl (addDirectory i low) (f, 0)
  let dot := (rfind 46 name).filter (begin < ·)
  let stemEnd := dot.getD name.length
  let (f, stem) := f.addPart i (bytes "s:" ++ low.take stemEnd) false begin stemEnd
  let f := { f with index := { f.index with stems := Function.update f.index.stems i stem } }
  match dot with
  | none => f.pinFixed name [⟨begin, stemEnd, stem⟩]
  | some dot =>
    let (f, ext) := f.addPart i (bytes "x:" ++ low) false (dot + 1) name.length
    let f := f.pinFixed name [⟨begin, stemEnd, stem⟩, ⟨dot + 1, name.length, ext⟩]
    if (Pak.find (bytes "/gui/") low).isSome ∧ extension name = bytes "dds" then
      f.pinTexture i low ⟨begin, stemEnd, stem⟩ ⟨dot + 1, name.length, ext⟩
    else f

/-- `Fixer::Fixer`. -/
def new (names : List Bytes) : Fixer :=
  (List.range names.length).foldl addEntry
    { index := ⟨names, fun _ => [], fun _ => 0, fun _ => [], fun _ => [], fun _ => []⟩
      groups := ⟨[], [], fun _ => none⟩ }

end Fixer

/-! ## References -/

/-- What `token` links a token to: a range of one entry's name, or the stems of icons. -/
inductive Target where
  | entry (i begin stop : ℕ)
  | icons (entries : List ℕ)

/-- `unique`. -/
def unique : List ℕ → Option ℕ
  | [i] => some i
  | _ => none

namespace Index

/-- The entry below a directory whose tail a token is. -/
def tail (index : Index) (source key : Bytes) (len : ℕ) : Option ℕ :=
  if 47 ∈ key then
    (unique (index.suffixes key)).filter fun i => requiredFrom source (index.name i) len
  else none

/-- The directory of a GUI metadata file. -/
def directoryOf (source : Bytes) : Bytes := lowered (source.take ((rfind 47 source).getD source.length))

/-- What `token` finds for the text `raw` in the file `source`. -/
def resolve (index : Index) (source raw : Bytes) (len : ℕ) (attributeName : Bytes) : Option Target :=
  if len < 3 ∨ 255 < len then none
  else if raw.any (· < 32) then none
  else
    let key := lowered raw
    match unique (index.full key) with
    | some i => some (.entry i 0 (index.name i).length)
    | none =>
      match index.tail source key len with
      | some i => some (.entry i ((index.name i).length - len) (index.name i).length)
      | none =>
        if iendsWith key (bytes ".png") ∧ guiMetadata source then
          let dir := directoryOf source
          (unique (index.full (dir ++ bytes "/" ++ key.take (len - 4) ++ bytes ".dds"))).map fun i =>
            .entry i (dir.length + 1) ((index.name i).length - 4)
        else if 47 ∉ key ∧ 46 ∉ key ∧
            (iequals attributeName (bytes "Icon") ∨ iequals attributeName (bytes "MapKey")) then
          if index.icons key = [] then none else some (.icons (index.icons key))
        else none

end Index

namespace Groups

/-- `link`: token bytes from `pos` on name the bytes of the parts from `begin` to `stop`. -/
def link (G : Groups) (parts : List Part) (c pos begin stop : ℕ) : Groups :=
  parts.foldl (fun G p =>
    if p.begin < begin ∨ stop < p.stop then G
    else G.add p.group ⟨some c, 0, pos + (p.begin - begin), p.stop - p.begin⟩) G

/-- What `token` does with the token at `pos`. -/
def follow (G : Groups) (index : Index) (c pos len : ℕ) : Target → Groups
  | .entry i begin stop => G.link (index.parts i) c pos begin stop
  | .icons entries =>
    let first := index.stems (entries.headD 0)
    (entries.foldl (fun G e => G.unite first (index.stems e)) G).add first ⟨some c, 0, pos, len⟩

/-- `token`. -/
def token (G : Groups) (index : Index) (c : ℕ) (content : Content) (t : LsfString) : Groups :=
  match index.resolve (index.name content.file) (slice content.bytes t.offset t.length) t.length
      t.attributeName with
  | none => G
  | some target => G.follow index c t.offset t.length target

end Groups

/-- `context`: the attribute of an lsx line or the field of a stats line. -/
def context (line : Bytes) : Bytes :=
  let field := fun lead : Bytes => do
    let p ← find lead line
    let rest := line.drop (p + lead.length)
    let stop ← rest.idxOf? 34
    return rest.take stop
  ((field (bytes "data \"")).or (field (bytes "id=\""))).getD []

/-- The text between a quote and the same quote again, at most 256 bytes on and on the line. -/
def quoted (q : UInt8) (s : Bytes) : Option Bytes :=
  let body := (s.take 256).takeWhile fun c => c ≠ q ∧ c ≠ 10
  if s[body.length]? = some q then some body else none

/-- `scan_text`: the quoted strings, at offset `at_` of a line that starts with `line` and after
`skip` bytes of a quoted string. -/
def textTokens : ℕ → Bytes → ℕ → Bytes → List LsfString
  | _, _, _, [] => []
  | skip + 1, line, at_, c :: s => textTokens skip (line ++ [c]) (at_ + 1) s
  | 0, line, at_, c :: s =>
    if c = 10 then textTokens 0 [] (at_ + 1) s
    else if c ≠ 34 ∧ c ≠ 39 then textTokens 0 (line ++ [c]) (at_ + 1) s
    else
      match quoted c s with
      | none => textTokens 0 (line ++ [c]) (at_ + 1) s
      | some body =>
        ⟨at_ + 1, body.length, context line⟩ ::
          textTokens (body.length + 1) (line ++ [c]) (at_ + 1) s

/-- The tokens that `scan` goes through. -/
def Content.tokens (content : Content) : List LsfString :=
  if content.lsf then content.doc.stringValues else textTokens 0 [] 0 content.text

/-- `scan`. -/
def Fixer.scan (f : Fixer) (contents : List Content) : Fixer :=
  { f with groups := contents.zipIdx.foldl (fun G (content, c) =>
      content.tokens.foldl (fun G t => G.token f.index c content t) G) f.groups }

/-! ## Spellings -/

/-- `spelling`. -/
def spelling (names : List Bytes) (contents : List Content) (o : Occurrence) : Bytes :=
  match o.content with
  | none => slice (names.getD o.index []) o.pos o.len
  | some c => slice (((contents[c]?).map Content.bytes).getD []) o.pos o.len

/-- The archive's own spelling, if it has only one. -/
def archiveSpelling (archive : Bytes) : List (Occurrence × Bytes) → Option Bytes
  | [] => if archive = [] then none else some archive
  | (o, s) :: rest =>
    if o.content ≠ none then archiveSpelling archive rest
    else if archive = [] then archiveSpelling s rest
    else if archive ≠ s then none
    else archiveSpelling archive rest

/-- The first spelling, in lower case where another one differs. -/
def commonSpelling (spellings : List Bytes) : Bytes :=
  (spellings.headD []).mapIdx fun k c =>
    if spellings.any fun s => s[k]? ≠ some c then lower c else c

/-- `choose`. -/
def choose (group : Group) (spellings : List Bytes) : Option Bytes :=
  if group.pinConflict then none
  else if group.pin ≠ [] then
    if group.pin.length = (spellings.headD []).length then some group.pin else none
  else if spellings.all (· = spellings.headD []) then none
  else if group.directory then archiveSpelling [] (group.occurrences.zip spellings)
  else some (commonSpelling spellings)

/-- What `unify` changes: `newNames`, the contents and `edited`, in the order of its keys. -/
structure Edits where
  names : List Bytes
  contents : List Content
  edited : List (Bytes × ℕ)

/-- `++edited[what]`. -/
def countEdit (what : Bytes) : List (Bytes × ℕ) → List (Bytes × ℕ)
  | [] => [(what, 1)]
  | (key, count) :: rest =>
    if what < key then (what, 1) :: (key, count) :: rest
    else if what = key then (key, count + 1) :: rest
    else (key, count) :: countEdit what rest

namespace Fixer

/-- One occurrence is given its group's spelling. -/
def edit (f : Fixer) (target : Bytes) (E : Edits) : Occurrence × Bytes → Edits
  | (o, s) =>
    if s = target then E
    else
      match o.content with
      | none =>
        { E with names := E.names.modify o.index fun name =>
            name.take o.pos ++ target ++ name.drop (o.pos + o.len) }
      | some c =>
        { E with
          contents := E.contents.modify c fun content =>
            { content.overwrite o.pos target with changed := true }
          edited := countEdit
            (f.index.name (((E.contents[c]?).map Content.file).getD 0) ++ bytes ": \"" ++ s
              ++ bytes "\" -> \"" ++ target ++ bytes "\"") E.edited }

/-- One round of the loop over the groups. -/
def unifyGroup (f : Fixer) (E : Edits) (g : ℕ) : Edits :=
  if (f.groups.find g).2 ≠ g then E
  else
    let group := f.groups.groups.getD g Group.new
    if group.occurrences.length < 2 ∧ group.pin = [] then E
    else
      let spellings := group.occurrences.map (spelling f.index.names E.contents)
      match choose group spellings with
      | none => E
      | some target => (group.occurrences.zip spellings).foldl (f.edit target) E

end Fixer

/-- The first name that comes a second time. -/
def firstRepeat (seen : List Bytes) : List Bytes → Option Bytes
  | [] => none
  | n :: names => if n ∈ seen then some n else firstRepeat (n :: seen) names

/-- What `unify` returns: the new names if it returns true, the fixes and the contents. -/
structure Unified where
  names : Option (List Bytes)
  fixes : List Bytes
  contents : List Content

/-- `unify`. -/
def Fixer.unify (f : Fixer) (contents : List Content) : Unified :=
  let E := (List.range f.groups.groups.length).foldl f.unifyGroup ⟨f.index.names, contents, []⟩
  match firstRepeat [] E.names with
  | some n =>
    { names := none
      fixes := [bytes "left case alone: two files would be named " ++ n]
      contents := E.contents.map fun content => { content with changed := false } }
  | none =>
    { names := some E.names
      fixes := ((f.index.names.zip E.names).filter fun (old, new) => new ≠ old).map
          (fun (old, new) => bytes "renamed " ++ old ++ bytes " -> " ++ new)
        ++ E.edited.map fun (what, count) =>
          if 1 < count then what ++ bytes " (" ++ bytes (toString count) ++ bytes " times)" else what
      contents := E.contents }

end Pak
end Bg3le
