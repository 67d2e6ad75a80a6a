import Bg3le.Bytes

/-!
# The stats by name and by modifier list: `vendor/stats.cpp`, `vendor/stat_create.cpp`

Two indexes are built from the engine's array of stats, and built again when the array's size is
another. A stat that bg3le creates itself extends both by its entry instead.
-/

namespace Bg3le
namespace StatNames

/-! ## Maps -/

/-- `emplace` of an unordered map: a key that is there stays as it is. -/
def emplace {V : Type} (map : List (Bytes × V)) (key : Bytes) (value : V) : List (Bytes × V) :=
  if (map.lookup key).isSome then map else map ++ [(key, value)]

/-- `push_back` to the vector of a key, which is empty if there is none. -/
def pushBack (map : List (Bytes × List Bytes)) (key name : Bytes) : List (Bytes × List Bytes) :=
  if (map.lookup key).isSome then
    map.map fun e => if e.1 = key then (key, e.2 ++ [name]) else e
  else map ++ [(key, [name])]

/-! ## Indexes -/

structure NameIndex where
  byName : List (Bytes × ℕ) := []
  builtFor : ℕ := 0
  gen : UInt32 := 0xffffffff

structure ListIndex where
  byList : List (Bytes × List Bytes) := []
  builtFor : ℕ := 0
  gen : UInt32 := 0xffffffff

/-- The engine's stats and what bg3le holds of them. Objects are known by their addresses, and 0 is
null. -/
structure Stats where
  /-- `RPGStats::Objects.Values` -/
  array : List ℕ
  nextHandle : ℕ
  /-- The size of the array that bg3le holds, once the stats were found. -/
  held : Option ℕ := none
  generation : UInt32 := 0
  names : NameIndex := {}
  lists : ListIndex := {}

/-- What a call of `ready` comes upon: whether a search finds the stats, and whether it is time for
the array to be read again. -/
structure Moment where
  found : Bool
  refresh : Bool

/-- `ready`, where the engine neither rebuilds its stats nor reloads its modules. -/
def Stats.ready (s : Stats) (now : Moment) : Bool × Stats :=
  match s.held with
  | some _ => (true, if now.refresh then { s with held := some s.array.length } else s)
  | none => if now.found then (true, { s with held := some s.array.length }) else (false, s)

/-- `state().Objects.Size` -/
def Stats.size (s : Stats) : ℕ := s.held.getD 0

/-- What is read from the buffer that is held: the array if that is the one, and anything if the
engine's array is another by now. -/
def Stats.readObjects (s : Stats) (stale : List ℕ) : List ℕ :=
  if s.held = some s.array.length then s.array else stale

section

-- `bg3le_stats_name` and `bg3le_stats_type`, of an object that is not null
variable (nameOf typeOf : ℕ → Option Bytes)

/-- The name that an object is indexed by. -/
def named (object : ℕ) : Option Bytes :=
  if object = 0 then none else (nameOf object).filter (· ≠ [])

def NameIndex.clearOnRebuild (n : NameIndex) (generation : UInt32) : NameIndex :=
  if n.gen ≠ generation then { byName := [], builtFor := 0, gen := generation } else n

def ListIndex.clearOnRebuild (l : ListIndex) (generation : UInt32) : ListIndex :=
  if l.gen ≠ generation then { byList := [], builtFor := 0, gen := generation } else l

/-- The loop of `stats_by_name`. -/
def indexByName (objects : List ℕ) : List (Bytes × ℕ) :=
  objects.foldl (fun byName object =>
    match named nameOf object with
    | none => byName
    | some name => emplace byName name object) []

/-- `stats_by_name`, which leaves the index that it gives. -/
def statsByName (s : Stats) (stale : List ℕ) : Stats :=
  let n := s.names.clearOnRebuild s.generation
  if ¬ n.byName.isEmpty ∧ n.builtFor = s.size then { s with names := n }
  else
    { s with names := { n with
        byName := indexByName nameOf (s.readObjects stale)
        builtFor := s.size } }

/-- The entries of a name that resolves to its object. -/
def fileName (byList : List (Bytes × List Bytes)) (object : ℕ) (name : Bytes) :
    List (Bytes × List Bytes) :=
  let byList := pushBack byList [] name
  match typeOf object with
  | none => byList
  | some list => if list ≠ [] then pushBack byList list name else byList

/-- The loop of `stats_names_by_list`, over an index by name. -/
def indexByList (byName : List (Bytes × ℕ)) (objects : List ℕ) : List (Bytes × List Bytes) :=
  objects.foldl (fun byList object =>
    match named nameOf object with
    | none => byList
    | some name => if byName.lookup name ≠ some object then byList else fileName typeOf byList object name)
    [([], [])]

/-- `stats_names_by_list`, which leaves the index that it gives. -/
def statsNamesByList (s : Stats) (stale : List ℕ) : Stats :=
  let l := s.lists.clearOnRebuild s.generation
  if ¬ l.byList.isEmpty ∧ l.builtFor = s.size then { s with lists := l }
  else
    let s := statsByName nameOf s stale
    { s with lists := { l with
        byList := indexByList nameOf typeOf s.names.byName (s.readObjects stale)
        builtFor := s.size } }

/-- `bg3le_stats_find` -/
def find (s : Stats) (now : Moment) (stale : List ℕ) (wanted : Bytes) : Option ℕ × Stats :=
  let (ready, s) := s.ready now
  if !ready then (none, s)
  else
    let s := statsByName nameOf s stale
    (s.names.byName.lookup wanted, s)

/-- `bg3le_stats_names_each`, of a list that is not null: the names that are handed out. -/
def namesEach (s : Stats) (now : Moment) (stale : List ℕ) (list : Bytes) : List Bytes × Stats :=
  let (ready, s) := s.ready now
  if !ready then ([], s)
  else
    let s := statsNamesByList nameOf typeOf s stale
    ((s.lists.byList.lookup list).getD [], s)

/-! ## Creating a stat -/

/-- `bg3le_stats_objects_changed` -/
def Stats.objectsChanged (s : Stats) : Stats := { s with held := s.held.map fun _ => s.array.length }

/-- The index by name, with the object that was appended if the index is for all those before. -/
def extendNames (s : Stats) (object : ℕ) (name : Bytes) : NameIndex :=
  if s.names.gen = s.generation ∧ ¬ s.names.byName.isEmpty ∧ s.names.builtFor + 1 = s.size then
    { s.names with byName := emplace s.names.byName name object, builtFor := s.size }
  else s.names

/-- The index by list, which is extended only with the index by name. -/
def extendLists (s : Stats) (n : NameIndex) (object : ℕ) (name : Bytes) : ListIndex :=
  if s.lists.gen = s.generation ∧ ¬ s.lists.byList.isEmpty ∧ s.lists.builtFor + 1 = s.size ∧
      n.builtFor = s.size then
    { s.lists with byList := fileName typeOf s.lists.byList object name, builtFor := s.size }
  else s.lists

/-- `bg3le_stats_appended` -/
def appended (s : Stats) (now : Moment) (object : ℕ) : Stats :=
  let (ready, s) := s.ready now
  if !ready then s
  else
    match named nameOf object with
    | none => s
    | some name =>
      let n := extendNames s object name
      { s with names := n, lists := extendLists typeOf s n object name }

/-- A call of `bg3le_stats_create`, and what it comes upon. -/
structure Create where
  name : Bytes
  /-- The list has a handle. -/
  listKnown : Bool
  /-- The engine's manager and its first object can be read. -/
  readable : Bool
  /-- The name is in the string table, or is put there. -/
  interned : Bool
  /-- What the allocator gives for the object. -/
  object : Option ℕ
  arrayGrows : Bool
  mapTakes : Bool
  atHandle : Moment
  atFind : Moment
  atAttributes : Moment
  atAppended : Moment
  stale : List ℕ

/-- Why no stat is created. -/
inductive Refusal where
  /-- "Unknown modifier list type: " -/
  | unknownList
  /-- "A stats object already exists with this name: " -/
  | exists
  /-- "No stats object found to copy VMT from!" -/
  | noVmt
  /-- "the stat's name could not be interned" -/
  | notInterned
  /-- "out of memory" -/
  | outOfMemory
  /-- "could not grow RPGStats::Objects" -/
  | notGrown
  /-- "RPGStats::Objects' name map does not hash the way bg3le reads it" -/
  | notHashed
deriving DecidableEq

/-- What `bg3le_stats_create` does from the allocation on. -/
def insertObject (s : Stats) (c : Create) : Except Refusal ℕ × Stats :=
  match c.object with
  | none => (.error .outOfMemory, s)
  | some object =>
    if !c.arrayGrows then (.error .notGrown, s)
    -- the array is put back as it was
    else if !c.mapTakes then (.error .notHashed, s)
    else
      let s := { s with array := s.array ++ [object], nextHandle := s.nextHandle + 1 }
      (.ok object, appended nameOf typeOf s.objectsChanged c.atAppended object)

/-- `bg3le_stats_create`, where the engine has its stats manager. -/
def create (s : Stats) (c : Create) : Except Refusal ℕ × Stats :=
  let (ready, s) := s.ready c.atHandle
  if !ready || !c.listKnown then (.error .unknownList, s)
  else
    let (known, s) := find nameOf s c.atFind c.stale c.name
    if known.isSome then (.error .exists, s)
    else if !c.readable ∨ s.array = [] ∨ s.array.length ≠ s.nextHandle ∨ s.array.head? = some 0 then
      (.error .noVmt, s)
    else if !c.interned then (.error .notInterned, s)
    else insertObject nameOf typeOf (s.ready c.atAttributes).2 c

/-! ## Runs -/

inductive Action where
  /-- The engine appends a stat. -/
  | append (object : ℕ)
  | create (c : Create)
  | find (now : Moment) (stale : List ℕ) (wanted : Bytes)
  | names (now : Moment) (stale : List ℕ) (list : Bytes)

def Stats.step (s : Stats) : Action → Stats
  | .append object => { s with array := s.array ++ [object], nextHandle := s.nextHandle + 1 }
  | .create c => (create nameOf typeOf s c).2
  | .find now stale wanted => (find nameOf s now stale wanted).2
  | .names now stale list => (namesEach nameOf typeOf s now stale list).2

end

end StatNames
end Bg3le
