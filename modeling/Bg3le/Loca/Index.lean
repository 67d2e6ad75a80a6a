import Mathlib.Data.List.Infix
import Mathlib.Data.List.Sort
import Bg3le.Bytes
import Bg3le.Library.LittleEndian

/-!
# The index behind `Ext.Loca`: `vendor/loca.cpp`

The index maps handles to texts through string views, which point into the `.loca` files that
were read or into the pairs of `Written`. A string of up to 22 bytes is kept inside its
`std::string`, and so moves when the vector grows: a view of it then reads freed memory, which is
the parameter `freed` here.
-/

namespace Bg3le
namespace Loca
namespace Index

/-- A NUL-terminated string, without its NUL. -/
structure CString where
  bytes : Bytes
  noNul : 0 ∉ bytes
deriving DecidableEq

/-- The C string that starts a byte string; the byte after a `std::string` is NUL. -/
def cString (b : Bytes) : Bytes := b.takeWhile (· ≠ 0)

/-- The longest string kept inside its `std::string`, which is the 24 bytes of libc++'s. -/
def kInPlace : ℕ := 22

/-- The capacity of a vector after `n` calls of `emplace_back`: a full one doubles. -/
def vectorCapacity : ℕ → ℕ
  | 0 => 0
  | n + 1 =>
    if n = vectorCapacity n then vectorCapacity n + max (vectorCapacity n) 1 else vectorCapacity n

/-- What a view of the index points at. -/
inductive View where
  | blob (file offset size : ℕ)
  /-- The handle or the text of `Written[slot]`, seen while the vector had this capacity. -/
  | written (slot : ℕ) (text : Bool) (capacity : ℕ)
deriving DecidableEq

structure Strings where
  built : Bool := false
  blobs : List Bytes := []
  byHandle : List (View × View) := []
  written : List (Bytes × Bytes) := []
deriving DecidableEq

/-- The string of `Written[slot]`. -/
def Strings.owned (s : Strings) (slot : ℕ) (text : Bool) : Bytes :=
  let pair := s.written.getD slot ([], [])
  if text then pair.2 else pair.1

/-- Whether a view points into an element of a storage the vector has left. -/
def Strings.dangles (s : Strings) : View → Bool
  | .blob _ _ _ => false
  | .written slot text capacity =>
    decide ((s.owned slot text).length ≤ kInPlace ∧ capacity ≠ vectorCapacity s.written.length)

/-- The bytes a view covers. -/
def Strings.contents (freed : View → Bytes) (s : Strings) (view : View) : Bytes :=
  if s.dangles view then freed view else
    match view with
    | .blob file offset size => ((s.blobs.getD file []).drop offset).take size
    | .written slot text _ => s.owned slot text

/-- The C string at a view's `data()`. -/
def Strings.cStringAt (freed : View → Bytes) (s : Strings) (view : View) : Bytes :=
  if s.dangles view then freed view else
    match view with
    | .blob file offset _ => cString ((s.blobs.getD file []).drop offset)
    | .written slot text _ => cString (s.owned slot text)

section Map
variable {α β γ : Type*} [DecidableEq β]

/-- The value of a map whose keys read as `read` says. -/
def lookup (read : α → β) (key : β) (entries : List (α × γ)) : Option γ :=
  (entries.find? fun e => read e.1 = key).map Prod.snd

/-- `map[key] = value`: an entry whose key reads the same keeps its key. -/
def assign (read : α → β) (key : α) (value : γ) : List (α × γ) → List (α × γ)
  | [] => [(key, value)]
  | e :: rest =>
    if read e.1 = read key then (e.1, value) :: rest else e :: assign read key value rest

end Map

/-! ### Reading the archives -/

def kMagic : Bytes := bytes "LOCA"
def kHeaderSize : ℕ := 12
def kKeySize : ℕ := 64
def kEntrySize : ℕ := 70

/-- Whether a `.loca` file is the base text, and not one of the gendered variants. -/
def baseText (path : Bytes) : Bool :=
  if bytes "/Gender/" <:+: path then false
  else if [bytes "_to_F.loca", bytes "_to_M.loca", bytes "_to_X.loca"].any
      fun variant => variant <:+ path then false
  else decide (5 < path.length ∧ bytes ".loca" <:+ path)

/-- Four bytes of a file as a `uint32`. -/
def uint32At (blob : Bytes) (offset : ℕ) : ℕ := LittleEndian.decode ((blob.drop offset).take 4)

/-- `strnlen`. -/
def strnlen (b : Bytes) (limit : ℕ) : ℕ := (cString (b.take limit)).length

/-- The loop of `index_loca`, with `count` entries to go. -/
def indexEntries (blobs : List Bytes) (file : ℕ) (blob : Bytes) :
    ℕ → ℕ → ℕ → List (View × View) → List (View × View)
  | 0, _, _, byHandle => byHandle
  | count + 1, entry, text, byHandle =>
    let keyLength := strnlen (blob.drop entry) kKeySize
    let length := uint32At blob (entry + kKeySize + 2)
    if blob.length < text + length then byHandle
    else
      let byHandle := if keyLength = 0 then byHandle
        else assign (Strings.contents (fun _ => []) { blobs }) (.blob file entry keyLength)
          (.blob file text (strnlen (blob.drop text) length)) byHandle
      indexEntries blobs file blob count (entry + kEntrySize) (text + length) byHandle

/-- Indexes one `.loca` file, the one at `file` of the blobs. -/
def indexLoca (blobs : List Bytes) (file : ℕ) (blob : Bytes) (byHandle : List (View × View)) :
    List (View × View) :=
  if blob.length < kHeaderSize ∨ blob.take 4 ≠ kMagic then byHandle
  else
    let count := uint32At blob 4
    let textOffset := uint32At blob 8
    if textOffset ≠ kHeaderSize + count * kEntrySize ∨ blob.length < textOffset then byHandle
    else indexEntries blobs file blob count kHeaderSize textOffset byHandle

/-- What `pak_read` reports of an archive: the paths and the contents, in order. -/
abbrev Archive := List (Bytes × Bytes)

/-- The directories `build` looks through, by the names in them. -/
structure Data where
  localization : List (Bytes × Archive)
  localizationLanguage : List (Bytes × Archive)
  root : List (Bytes × Archive)
  mods : List (Bytes × Archive)

/-- `data_root()`, where there is one, and `game_language()`. -/
structure Game where
  data : Option Data
  language : Bytes

def paksIn (dir : List (Bytes × Archive)) : List Archive :=
  let out := dir.filter fun e => decide (5 ≤ e.1.length ∧ bytes ".pak" <:+ e.1)
  (out.mergeSort fun e e' => decide (e.1 ≤ e'.1)).map Prod.snd

/-- The contents of the base `.loca` files, in archive order. -/
def Game.baseFiles (game : Game) (data : Data) : List Bytes :=
  let pre := bytes "Localization/" ++ game.language ++ bytes "/"
  let archives := paksIn data.localization ++ paksIn data.localizationLanguage ++ paksIn data.root
    ++ paksIn data.mods
  (archives.flatten.filter fun e => decide (pre <:+: e.1) && baseText e.1).map Prod.snd

/-- The index over the blobs from `file` on. -/
def indexFrom (blobs : List Bytes) : ℕ → List Bytes → List (View × View) → List (View × View)
  | _, [], byHandle => byHandle
  | file, blob :: rest, byHandle =>
    indexFrom blobs (file + 1) rest (indexLoca blobs file blob byHandle)

/-- `build`: the index that replaces the state, where the archives have any text. -/
def build (game : Game) : Option Strings :=
  match game.data with
  | none => none
  | some data =>
    let blobs := game.baseFiles data
    let byHandle := indexFrom blobs 0 blobs []
    if byHandle = [] then none else some { built := true, blobs, byHandle }

/-! ### The calls -/

/-- `state()` and the `tried` of `ready`. -/
structure State where
  strings : Strings := {}
  tried : Bool := false
deriving DecidableEq

/-- `ready`, called on a thread that may scan or may not. -/
def ready (game : Game) (scanAllowed : Bool) (s : State) : State × Bool :=
  if s.strings.built then (s, true)
  else if !scanAllowed then (s, false)
  else if s.tried then (s, false)
  else match build game with
    | none => ({ s with tried := true }, false)
    | some found => ({ strings := found, tried := true }, true)

/-- `bg3le_loca_get`, with `translated_string_get` as `repository`. -/
def bg3leLocaGet (game : Game) (repository : Bytes → Option Bytes) (freed : View → Bytes)
    (scanAllowed : Bool) (handle : CString) (s : State) : State × Option Bytes :=
  match repository handle.bytes with
  | some text => (s, some text)
  | none =>
    match ready game scanAllowed s with
    | (s, false) => (s, none)
    | (s, true) =>
      (s, (lookup (s.strings.contents freed) handle.bytes s.strings.byHandle).map
        (s.strings.cStringAt freed))

/-- What `bg3le_loca_set` does to the strings. -/
def Strings.set (freed : View → Bytes) (handle text : Bytes) (s : Strings) : Strings :=
  let slot := s.written.length
  let s := { s with written := s.written ++ [(handle, text)] }
  let capacity := vectorCapacity s.written.length
  let byHandle := assign (s.contents freed) (.written slot false capacity)
    (.written slot true capacity) s.byHandle
  { s with byHandle }

/-- `bg3le_loca_set`, as far as this index goes. -/
def bg3leLocaSet (game : Game) (freed : View → Bytes) (scanAllowed : Bool)
    (handle text : CString) (s : State) : State × Bool :=
  if handle.bytes = [] then (s, false)
  else
    let s := (ready game scanAllowed s).1
    ({ s with strings := s.strings.set freed handle.bytes text.bytes }, true)

/-- A call, with whether its thread may scan. -/
inductive Call where
  | set (scanAllowed : Bool) (handle text : CString)
  | get (scanAllowed : Bool) (handle : CString)
  | ready (scanAllowed : Bool)

/-- The state after one more call, `translated_string_get` failing. -/
def call (game : Game) (freed : View → Bytes) (s : State) : Call → State
  | .set scanAllowed handle text => (bg3leLocaSet game freed scanAllowed handle text s).1
  | .get scanAllowed handle => (bg3leLocaGet game (fun _ => none) freed scanAllowed handle s).1
  | .ready scanAllowed => (ready game scanAllowed s).1

/-- The state after a sequence of calls. -/
def after (game : Game) (freed : View → Bytes) (calls : List Call) : State :=
  calls.foldl (call game freed) {}

/-- The text of the last call that set a handle. -/
def lastSet (handle : Bytes) : List Call → Option Bytes
  | [] => none
  | .set _ h text :: rest =>
    (lastSet handle rest).or (if h.bytes = handle ∧ h.bytes ≠ [] then some text.bytes else none)
  | _ :: rest => lastSet handle rest

end Index
end Loca
end Bg3le
