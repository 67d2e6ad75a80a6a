import Bg3le.Bytes
import Bg3le.Stats.Manager

/-!
# Treasure tables: `vendor/stats_sets.cpp`

A table value names the tables and categories that it draws from; the engine's object holds
their indices in the two managers. `updateTable` builds the object's sub-tables from the value
and `readTable` makes a value of the object again.
-/

namespace Bg3le
namespace StatsSets

open Engine

/-! ## Values -/

structure CategoryRef where
  frequency : Int32 := 1
  isTable : Bool := false
  name : Bytes
  frequencies : Vector UInt16 7
deriving DecidableEq

structure DropCount where
  chance : Int32
  amount : Int32
deriving DecidableEq

structure SubTable where
  totalCount : Int32
  startLevel : Int32
  endLevel : Int32
  categories : List CategoryRef
  dropCounts : List DropCount
deriving DecidableEq

structure Table where
  name : Bytes
  minLevel : Int32
  maxLevel : Int32
  ignoreLevelDiff : Bool
  useTreasureGroupContainers : Bool
  canMerge : Bool
  subTables : List SubTable
deriving DecidableEq

structure CategoryItem where
  name : Bytes
  priority : Int32 := 1
  minAmount : Int32 := 1
  maxAmount : Int32 := 1
  actPart : Int32 := 0
  unique : Int32 := 0
  minLevel : Int32 := 0
  maxLevel : Int32 := 0
deriving DecidableEq

structure Category where
  name : Bytes
  items : List CategoryItem
deriving DecidableEq

/-! ## The engine's objects -/

structure TreasureSubTableCategory where
  index : Int32
  frequency : Int32
  frequencies : Vector UInt16 7
  isTreasureTable : Bool
  isTreasureTable2 : Bool

/-- Its arrays hold pointers, none for a null one. -/
structure TreasureSubTable where
  categories : List (Option TreasureSubTableCategory)
  categoryFrequencies : List Int32
  totalFrequency : Int32
  dropCounts : List DropCount
  amounts : List Int32
  totalCount : Int32
  startLevel : Int32
  endLevel : Int32

structure TreasureTable where
  name : UInt32
  minLevel : Int32
  maxLevel : Int32
  ignoreLevelDiff : Bool
  useTreasureGroupContainers : Bool
  canMerge : Bool
  subTables : List (Option TreasureSubTable)

structure TreasureCategoryItem where
  name : UInt32
  priority : Int32
  minAmount : Int32
  maxAmount : Int32
  actPart : Int32
  unique : Int32
  minLevel : Int32
  maxLevel : Int32

structure TreasureCategory where
  name : UInt32
  items : List (Option TreasureCategoryItem)

/-- The two managers of `RPGStats`, and the objects that their elements point at. The tables
below `tableCount` have been given out. -/
structure Stats where
  tables : Manager (Option ℕ)
  tableAt : ℕ → TreasureTable
  tableCount : ℕ
  categories : Manager (Option ℕ)
  categoryAt : ℕ → TreasureCategory

def kNull : UInt32 := 0xffffffff

/-- `name_of` for a table. -/
def Stats.tableName (stats : Stats) : Option ℕ → UInt32
  | none => kNull
  | some address => (stats.tableAt address).name

def Stats.categoryName (stats : Stats) : Option ℕ → UInt32
  | none => kNull
  | some address => (stats.categoryAt address).name

/-- The names of the elements that are read. -/
def Stats.tableNames (stats : Stats) : List UInt32 :=
  (managerValues stats.tables).map stats.tableName

def Stats.categoryNames (stats : Stats) : List UInt32 :=
  (managerValues stats.categories).map stats.categoryName

/-! ## Names -/

/-- The string table: the id of a text, interned where it is new, and the text of an id. -/
structure StringTable where
  intern : Bytes → Option UInt32
  text : UInt32 → Bytes

variable (strings : StringTable)

/-- `c_str`. -/
def cStr (text : Bytes) : Bytes := text.takeWhile (· ≠ 0)

/-- `id_of`. -/
def idOf (name : Bytes) : Option UInt32 :=
  if cStr name = [] then some kNull else strings.intern (cStr name)

/-- The id of a name that is not empty. -/
def nameId (name : Bytes) : Option UInt32 := (idOf strings name).filter (· ≠ kNull)

/-- `text`. -/
def textOf (id : UInt32) : Bytes := if id = kNull then [] else strings.text id

/-- `handle_of` in a pool of the names. -/
def handleOf (pool : List UInt32) (name : Bytes) : Option ℕ :=
  (nameId strings name).bind fun id => pool.findIdx? (· = id)

/-- `get` for a manager's kind. -/
def get (mgr : Manager (Option ℕ)) (nameOf : Option ℕ → UInt32) (name : Bytes) : Option ℕ :=
  (nameId strings name).bind fun id => ((managerValues mgr).find? (nameOf · = id)).join

def getTable (stats : Stats) (name : Bytes) : Option ℕ :=
  get strings stats.tables stats.tableName name

def getCategory (stats : Stats) (name : Bytes) : Option ℕ :=
  get strings stats.categories stats.categoryName name

/-! ## Reading -/

def readRef (stats : Stats) (category : TreasureSubTableCategory) : CategoryRef :=
  let pool := if category.isTreasureTable then stats.tableNames else stats.categoryNames
  let index := category.index.toInt
  { frequency := category.frequency
    isTable := category.isTreasureTable
    name := if 0 ≤ index then (pool[index.toNat]?.map (textOf strings)).getD [] else []
    frequencies := category.frequencies }

/-- The first elements that are not null. -/
def pointed {α : Type} (pointers : List (Option α)) : List α := (pointers.take 4096).filterMap id

def readSub (stats : Stats) (sub : TreasureSubTable) : SubTable where
  totalCount := sub.totalCount
  startLevel := sub.startLevel
  endLevel := sub.endLevel
  categories := (pointed sub.categories).map (readRef strings stats)
  dropCounts := sub.dropCounts.take 4096

def readTable (stats : Stats) (name : Bytes) : Option Table :=
  (getTable strings stats name).map fun address =>
    let table := stats.tableAt address
    { name := textOf strings table.name
      minLevel := table.minLevel
      maxLevel := table.maxLevel
      ignoreLevelDiff := table.ignoreLevelDiff
      useTreasureGroupContainers := table.useTreasureGroupContainers
      canMerge := table.canMerge
      subTables := (pointed table.subTables).map (readSub strings stats) }

def readItem (item : TreasureCategoryItem) : CategoryItem where
  name := textOf strings item.name
  priority := item.priority
  minAmount := item.minAmount
  maxAmount := item.maxAmount
  actPart := item.actPart
  unique := item.unique
  minLevel := item.minLevel
  maxLevel := item.maxLevel

def readCategory (stats : Stats) (name : Bytes) : Option Category :=
  (getCategory strings stats name).map fun address =>
    let category := stats.categoryAt address
    { name := textOf strings category.name
      items := ((category.items.take (2 ^ 20)).filterMap id).map (readItem strings) }

/-! ## Writing -/

inductive Failure where
  /-- "the table's Name could not be interned" -/
  | noName
  /-- "Treasure table '..' does not exist!", or a category -/
  | missing (isTable : Bool) (name : Bytes)
  /-- "out of memory" -/
  | outOfMemory
  /-- What `manager_insert` says. -/
  | notInserted
deriving DecidableEq

/-- A name cannot be resolved. -/
def Failure.unresolved : Failure → Bool
  | .noName | .missing _ _ => true
  | .outOfMemory | .notInserted => false

/-- What the allocator gives while a sub-table is built. -/
structure SubAllocs where
  sub : Bool
  category : ℕ → Bool
  categories : Bool
  categoryFrequencies : Bool
  dropCounts : Bool
  amounts : Bool

/-- And during the whole update. -/
structure Allocs where
  subTable : ℕ → SubAllocs
  table : Bool
  subTables : Bool
  ready : Bool
  given : Bool
  heap : Heap

/-- `fill_array`: an empty array takes no memory. -/
def fillArray {α : Type} (given : Bool) (items : List α) : Except Failure (List α) :=
  if items.isEmpty || given then .ok items else .error .outOfMemory

/-- Builds one object for each value in order, up to the first failure. -/
def buildAll {α β : Type} (build : ℕ → α → Except Failure β) : ℕ → List α → Except Failure (List β)
  | _, [] => .ok []
  | i, a :: as => do
    let b ← build i a
    let bs ← buildAll build (i + 1) as
    return b :: bs

def buildCategory (stats : Stats) (given : Bool) (c : CategoryRef) :
    Except Failure TreasureSubTableCategory :=
  match handleOf strings (if c.isTable then stats.tableNames else stats.categoryNames) c.name with
  | none => .error (.missing c.isTable c.name)
  | some index =>
    if !given then .error .outOfMemory
    else .ok {
      index := Int32.ofNat index
      frequency := c.frequency
      frequencies := c.frequencies
      isTreasureTable := c.isTable
      isTreasureTable2 := c.isTable }

/-- The sum, in 32 bits. -/
def total (numbers : List Int32) : Int32 := numbers.foldl (· + ·) 0

/-- A negative count with no drops is a guaranteed drop. -/
def SubTable.count (s : SubTable) : Int32 :=
  if s.dropCounts ≠ [] ∨ 0 < s.totalCount then total (s.dropCounts.map (·.amount))
  else s.totalCount

def buildSub (stats : Stats) (allocs : SubAllocs) (s : SubTable) :
    Except Failure TreasureSubTable :=
  if !allocs.sub then .error .outOfMemory
  else do
    let cats ← buildAll (fun j c => buildCategory strings stats (allocs.category j) c) 0 s.categories
    let categories ← fillArray allocs.categories (cats.map some)
    let categoryFrequencies ←
      fillArray allocs.categoryFrequencies (s.categories.map (·.frequency))
    let dropCounts ← fillArray allocs.dropCounts s.dropCounts
    let amounts ← fillArray allocs.amounts (s.dropCounts.map (·.amount))
    return {
      categories, categoryFrequencies, dropCounts, amounts
      totalFrequency := total (s.categories.map (·.frequency))
      totalCount := s.count
      startLevel := s.startLevel
      endLevel := s.endLevel }

/-- A new object with the name. -/
def Stats.makeNamed (stats : Stats) (id : UInt32) : Stats :=
  { stats with
    tableAt := Function.update stats.tableAt stats.tableCount ⟨id, 0, 0, false, false, false, []⟩
    tableCount := stats.tableCount + 1 }

/-- Puts what a table value has besides its name and its sub-tables. -/
def Stats.putTable (stats : Stats) (address : ℕ) (input : Table) : Stats :=
  { stats with
    tableAt := Function.update stats.tableAt address
      { stats.tableAt address with
        minLevel := input.minLevel
        maxLevel := input.maxLevel
        ignoreLevelDiff := input.ignoreLevelDiff
        useTreasureGroupContainers := input.useTreasureGroupContainers
        canMerge := input.canMerge } }

def Stats.putSubTables (stats : Stats) (address : ℕ) (subs : List (Option TreasureSubTable)) :
    Stats :=
  { stats with
    tableAt := Function.update stats.tableAt address
      { stats.tableAt address with subTables := subs } }

/-- `update_table`, from where the sub-tables are built. -/
def swapIn (hash : UInt32 → Option ℕ) (allocs : Allocs) (stats : Stats) (input : Table)
    (id : UInt32) (subs : List TreasureSubTable) : Option (Except Failure Unit × Stats) :=
  let found := getTable strings stats input.name
  if found.isNone && !allocs.table then some (.error .outOfMemory, stats)
  else
    let address := found.getD stats.tableCount
    let stats := if found.isNone then stats.makeNamed id else stats
    let stats := stats.putTable address input
    match fillArray allocs.subTables (subs.map some) with
    | .error failure => some (.error failure, stats)
    | .ok subs =>
      let stats := stats.putSubTables address subs
      if found.isNone then do
        let (inserted, tables) ← managerInsert stats.tableName hash allocs.ready allocs.given
          allocs.heap stats.tables (some address)
        let stats := { stats with tables }
        if inserted then return (.ok (), stats) else return (.error .notInserted, stats)
      else some (.ok (), stats)

/-- `update_table`. It has no defined outcome where the insertion has none. -/
def updateTable (hash : UInt32 → Option ℕ) (allocs : Allocs) (stats : Stats) (input : Table) :
    Option (Except Failure Unit × Stats) :=
  match nameId strings input.name with
  | none => some (.error .noName, stats)
  | some id =>
    match buildAll (fun i s => buildSub strings stats (allocs.subTable i) s) 0 input.subTables with
    | .error failure => some (.error failure, stats)
    | .ok subs => swapIn strings hash allocs stats input id subs

end StatsSets
end Bg3le
