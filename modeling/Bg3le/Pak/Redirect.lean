import Bg3le.Library.LittleEndian
import Bg3le.Pak.Names
import Mathlib.Data.Nat.Digits.Defs
import Mathlib.Logic.Function.Basic

/-!
# Redirects to corrected copies

`pak_fix_redirect` answers which archive the game is to read in place of the one it asks for. A
corrected copy is built on first ask and kept in a cache; a copy that is split names the original
as its part 1, which the game asks for under a name that is not on disk. Two tables remember the
answers.
-/

namespace Bg3le
namespace Pak

/-- `part_path`. -/
def partPath (pak : Bytes) (n : ℕ) : Bytes :=
  pak.take (pak.length - 4) ++ bytes "_" ++ bytes (toString n) ++ bytes ".pak"

/-- `archive_of_part`. -/
def archiveOfPart (path : Bytes) : Bytes :=
  match rfind 95 path with
  | none => []
  | some under =>
    if path.length - 4 ≤ under + 1 then []
    else if (slice path (under + 1) (path.length - 4 - (under + 1))).all fun c =>
        decide (48 ≤ c ∧ c ≤ 57) then
      path.take under ++ bytes ".pak"
    else []

/-- `mod_archive`. -/
def modArchive (path : Bytes) : Bool :=
  iendsWith path (bytes ".pak") &&
    match rfind 47 path with
    | none => false
    | some leaf => 5 ≤ leaf && iendsWith (path.take leaf) (bytes "/Baldur's Gate 3/Mods")

/-- `std::to_string`. -/
def decimal (z : ℤ) : Bytes :=
  let digits := if z = 0 then [0] else (Nat.digits 10 z.natAbs).reverse
  (if z < 0 then bytes "-" else []) ++ digits.map fun d => 48 + d.toUInt8

/-- What `stat` says of a file. -/
structure Stamp where
  size : ℤ
  sec : ℤ
  nsec : ℤ

structure Archive where
  content : Bytes
  stamp : Stamp

/-- The files of the cache, by path. -/
abbrev Files := Bytes → Option Bytes

/-- What the requests find on disk: the archives of the Mods directory by path, the variables that
say where the cache is, and what `pak_fix_build` counts and leaves for an archive's content. -/
structure Disk where
  mods : Bytes
  archives : Bytes → Option Archive
  inMods : ∀ path, (archives path).isSome → ∃ leaf, 47 ∉ leaf ∧ path = mods ++ 47 :: leaf
  dataHome : Option Bytes
  home : Option Bytes
  pakFixBuild : Bytes → ℤ × Option Bytes

/-- `kFormat`. -/
def format : Bytes := bytes "3"

namespace Disk

/-- `cache_directory`. -/
def cacheDirectory (disk : Disk) : Bytes :=
  match disk.dataHome with
  | some (c :: data) => c :: data ++ bytes "/bg3le/pakfix"
  | _ =>
    match disk.home with
    | some (c :: home) => c :: home ++ bytes "/.local/share" ++ bytes "/bg3le/pakfix"
    | _ => []

/-- The cache's directory for an archive. -/
def copyDirectory (disk : Disk) (path : Bytes) : Bytes :=
  disk.cacheDirectory ++ 47 :: lastComponent path

/-- What the names of an archive's copy begin with. -/
def copyKey (archive : Archive) : Bytes :=
  decimal archive.stamp.size ++ bytes "-" ++ decimal archive.stamp.sec ++ bytes "." ++
    decimal archive.stamp.nsec ++ bytes "-f" ++ format

def copyPath (disk : Disk) (path : Bytes) (archive : Archive) : Bytes :=
  disk.copyDirectory path ++ 47 :: (copyKey archive ++ bytes ".pak")

/-- The path of the mark that an archive needs no copy. -/
def cleanPath (disk : Disk) (path : Bytes) (archive : Archive) : Bytes :=
  disk.copyDirectory path ++ 47 :: (copyKey archive ++ bytes ".clean")

end Disk

/-- `prune`: removes every file of a directory whose name does not start with `keep`. -/
def prune (dir keep : Bytes) (cache : Files) : Files := fun path =>
  if path.take ((rfind 47 path).getD path.length) = dir ∧ ¬ keep <+: lastComponent path then none
  else cache path

/-- The cache once `pak_fix_build` has been asked for an archive's copy. -/
def Disk.built (disk : Disk) (path : Bytes) (archive : Archive) (cache : Files) : Files :=
  match (disk.pakFixBuild archive.content).2 with
  | none => cache
  | some content => Function.update cache (disk.copyPath path archive) (some content)

/-- `prepare`: the path of the corrected copy, which it builds where there is none, or nothing
where the archive can be read as it is. The notes for the log are left out. -/
def Disk.prepare (disk : Disk) (path : Bytes) (cache : Files) : Bytes × Files :=
  match disk.archives path with
  | none => ([], cache)
  | some archive =>
    if disk.cacheDirectory = [] then ([], cache)
    else
      let copy := disk.copyPath path archive
      let clean := disk.cleanPath path archive
      if (cache clean).isSome then ([], cache)
      else if (cache copy).isSome then (copy, cache)
      else
        let pruned := prune (disk.copyDirectory path) (Disk.copyKey archive) cache
        let built := disk.built path archive pruned
        let count := (disk.pakFixBuild archive.content).1
        if count < 0 then ([], built)
        else if (built copy).isNone then ([], Function.update built clean (some []))
        else (copy, built)

/-- `is_split`. -/
def isSplit (cache : Files) (copy : Bytes) : Bool :=
  match cache copy with
  | none => false
  | some content => 40 ≤ content.length && LittleEndian.decode (slice content 38 2) = 2

/-- Whether `sweep` keeps a file of this name: it is of the current format. -/
def currentFormat (file : Bytes) : Bool :=
  match find (bytes "-f" ++ format) file with
  | none => false
  | some at_ =>
    let next := file[at_ + (bytes "-f" ++ format).length]?
    next = some 46 || next = some 95

/-- `sweep`: removes the copies of archives that are gone and those of another format. -/
def Disk.sweep (disk : Disk) (mods : Bytes) (cache : Files) : Files := fun path =>
  if disk.cacheDirectory ≠ [] ∧ disk.cacheDirectory ++ [47] <+: path then
    let rest := path.drop (disk.cacheDirectory.length + 1)
    let leaf := rest.takeWhile (· ≠ 47)
    let file := rest.drop (leaf.length + 1)
    if (disk.archives (mods ++ 47 :: leaf)).isNone ∨ currentFormat file = false then none
    else cache path
  else cache path

/-- What is kept from request to request. -/
structure Redirects where
  parts : Bytes → Option Bytes
  redirects : Bytes → Option Bytes
  swept : Bool
  cache : Files

/-- `std::map::emplace`: a key that is there keeps its value. -/
def emplace (table : Bytes → Option Bytes) (key value : Bytes) : Bytes → Option Bytes :=
  if (table key).isSome then table else Function.update table key (some value)

namespace Redirects

/-- The tables at the start of a run of the game. -/
def start (cache : Files) : Redirects := ⟨fun _ => none, fun _ => none, false, cache⟩

def sweepOnce (s : Redirects) (disk : Disk) (path : Bytes) : Redirects :=
  if s.swept then s
  else { s with
    swept := true
    cache := disk.sweep (path.take ((rfind 47 path).getD path.length)) s.cache }

/-- Prepares the copy of an archive and remembers it, and its part 1 where it is split. -/
def copied (s : Redirects) (disk : Disk) (path : Bytes) : Bytes × Redirects :=
  let (copy, cache) := disk.prepare path s.cache
  let parts := if copy ≠ [] ∧ isSplit cache copy = true then emplace s.parts (partPath path 1) path
    else s.parts
  (copy, { s with parts, cache, redirects := emplace s.redirects path copy })

end Redirects

/-- The archive of a part has the shorter path. -/
theorem length_archiveOfPart_lt {path : Bytes} (h : archiveOfPart path ≠ []) :
    (archiveOfPart path).length < path.length := by
  unfold archiveOfPart at h ⊢
  split at h
  · exact absurd rfl h
  · next under _ =>
    split at h
    · exact absurd rfl h
    · next hlt =>
      rw [if_neg hlt]
      split
      · rw [List.length_append, List.length_take, show (bytes ".pak").length = 4 from rfl]
        omega
      · rw [List.length_nil]
        omega

/-- `redirect_locked`. -/
def redirectLocked (disk : Disk) (path : Bytes) (s : Redirects) : Bytes × Redirects :=
  match s.parts path with
  | some original => (original, s)
  | none =>
    match s.redirects path with
    | some copy => (copy, s)
    | none =>
      let s := s.sweepOnce disk path
      let archive := archiveOfPart path
      -- a part of a split copy, where no such file exists
      if _h : archive ≠ [] ∧ (disk.archives path).isNone = true ∧
          (disk.archives archive).isSome = true then
        let s := (redirectLocked disk archive s).2
        let original := (s.parts path).getD []
        (original, { s with redirects := emplace s.redirects path original })
      else s.copied disk path
termination_by path.length
decreasing_by exact length_archiveOfPart_lt _h.1

/-- `pak_fix_redirect`. -/
def pakFixRedirect (disk : Disk) (enabled : Bool) (path : Bytes) (s : Redirects) :
    Bytes × Redirects :=
  if !modArchive path || !enabled then ([], s) else redirectLocked disk path s

/-- The answers to requests one after another, each with the cache it leaves. -/
def redirectAll (disk : Disk) (enabled : Bool) : Redirects → List Bytes → List (Bytes × Files)
  | _, [] => []
  | s, path :: paths =>
    let (answer, s') := pakFixRedirect disk enabled path s
    (answer, s'.cache) :: redirectAll disk enabled s' paths

end Pak
end Bg3le
