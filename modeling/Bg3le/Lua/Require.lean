import Bg3le.Bytes
import Bg3le.Library.Run
import Bg3le.Library.Throughout
import Mathlib.Data.Finset.Card
import Mathlib.Logic.Function.Basic

/-!
# A mod's own files (`load_mod_from` of `lua_host.cpp`)

The bootstrap of a mod and the files it requires, run on the stack of Lua: a file that requires
another one waits until that returns.
-/

namespace Bg3le
namespace Require

variable {σ V F : Type}

/-- The code of a chunk, by what it does next: the requires it makes of files of its own mod, each
with the globals it leaves, and how it goes on after the results (`none` where the require raised).
A chunk that goes on for ever between two requires is none of these. -/
inductive Code (σ V : Type) where
  | returns (globals : σ) (results : List V)
  /-- An error, and whether `tostring` of it works. -/
  | raises (globals : σ) (printed : Bool)
  /-- `Ext.Require(uuid, path)` where `named`, `Ext.Require(path)` where not. -/
  | require (globals : σ) (named : Bool) (path : Bytes) (next : σ → Option (List V) → Code σ V)

/-- A mod as it lies on the disk or in its archive. -/
structure Mod (σ V F : Type) where
  /-- Whether the mod has a uuid. -/
  identified : Bool
  /-- `boot`, the path of the bootstrap. -/
  boot : Bytes
  /-- The file that a path under `Lua` opens: `A.lua` and `./A.lua` are one on the disk. -/
  file : Bytes → Option F
  /-- What `read` gives of a file. -/
  text : F → Bytes
  /-- `RawLoad`: the chunk of a text that parses. -/
  load : Bytes → Option (σ → Code σ V)
  files : Finset F
  mem_files : ∀ path f, file path = some f → f ∈ files

/-- The chunk of a file that opens and parses. -/
def Mod.chunk (mod : Mod σ V F) (path : Bytes) : Option (σ → Code σ V) :=
  (mod.file path).bind fun f => mod.load (mod.text f)

/-- Both paths open one file. -/
def Mod.Same (mod : Mod σ V F) (path path' : Bytes) : Prop :=
  (mod.file path).isSome ∧ mod.file path' = mod.file path

instance [DecidableEq F] (mod : Mod σ V F) (path path' : Bytes) : Decidable (mod.Same path path') :=
  inferInstanceAs (Decidable (_ ∧ _))

inductive Event (V : Type) where
  | executed (path : Bytes)
  | finished (path : Bytes) (results : List V)
  /-- A require returned. -/
  | answered (path : Bytes) (results : List V)
deriving DecidableEq

/-- What a chunk was started by: `load_mod_from`, a require, or a call from outside. -/
inductive Origin where
  | boot
  | required (path : Bytes)
  | outside
deriving DecidableEq

/-- A chunk that waits for a require. -/
structure Frame (σ V : Type) where
  origin : Origin
  next : σ → Option (List V) → Code σ V

structure State (σ V : Type) where
  globals : σ
  /-- `ModuleUUID` is not nil. -/
  moduleUuid : Bool
  required : Bytes → Option (List V) := fun _ => none
  /-- The chunk that runs, and what is left of it. -/
  current : Option (Origin × Code σ V) := none
  stack : List (Frame σ V) := []
  history : List (Event V) := []

def State.record (s : State σ V) (e : Event V) : State σ V := { s with history := s.history ++ [e] }

/-- The chunk that runs goes on. -/
def State.resume (s : State σ V) (origin : Origin) (code : Code σ V) : State σ V :=
  { s with current := some (origin, code) }

/-- The chunk that runs is over, and the one that waits for it goes on. -/
def State.pop (s : State σ V) (answer : Option (List V)) : State σ V :=
  match s.stack with
  | [] => { s with current := none }
  | frame :: rest =>
    { s with current := some (frame.origin, frame.next s.globals answer), stack := rest }

/-- `required[path] = results`. -/
def State.keep (s : State σ V) (path : Bytes) (results : List V) : State σ V :=
  { s with required := Function.update s.required path (some results) }

/-- `mod_require` for a file of the mod, up to the first step of its chunk. -/
def modRequire (mod : Mod σ V F) (s : State σ V) (origin : Origin) (named : Bool) (path : Bytes)
    (next : σ → Option (List V) → Code σ V) : State σ V :=
  -- `RequireWithoutMod`
  if !named && !s.moduleUuid then s.resume origin (next s.globals none)
  else
    match s.required path with
    | some results => (s.record (.answered path results)).resume origin (next s.globals (some results))
    | none =>
      match mod.chunk path with
      | none =>
        ((s.keep path []).record (.answered path [])).resume origin (next s.globals (some []))
      | some chunk =>
        { (s.record (.executed path)) with
          current := some (.required path, chunk s.globals)
          stack := ⟨origin, next⟩ :: s.stack }

/-- The end of a chunk: with its results, with an error that was printed, or (`none`) with one that
could not be, which leaves `mod_require` before the results are kept. -/
def finish (s : State σ V) (origin : Origin) (results : Option (List V)) : State σ V :=
  match origin, results with
  | .required path, some results =>
    (((s.record (.finished path results)).keep path results).record (.answered path results)).pop
      (some results)
  | _, _ => s.pop none

inductive Action (σ V : Type) where
  | step
  /-- The mod is called after its chunks, as for an event; another mod may be loading. -/
  | call (moduleUuid : Bool) (code : Code σ V)

def step (mod : Mod σ V F) (s : State σ V) : Action σ V → Option (State σ V)
  | .step =>
    match s.current with
    | none => none
    | some (origin, .returns globals results) =>
      some (finish { s with globals } origin (some results))
    | some (origin, .raises globals printed) =>
      some (finish { s with globals } origin (if printed then some [] else none))
    | some (origin, .require globals named path next) =>
      some (modRequire mod { s with globals } origin named path next)
  | .call moduleUuid code =>
    if s.current.isNone then some { s with moduleUuid, current := some (.outside, code) } else none

/-- `load_mod_from`, up to the first step of the bootstrap, where the mod has one. -/
def start (mod : Mod σ V F) (globals : σ) : State σ V :=
  match mod.chunk mod.boot with
  | none => { globals, moduleUuid := mod.identified }
  | some chunk =>
    { globals, moduleUuid := mod.identified, current := some (.boot, chunk globals),
      history := [.executed mod.boot] }

/-! ## What the loader is to do -/

/-- No file's chunk is executed again, under whatever path, and a require returns the results of
the one execution of its file, or none where the file does not open or parse. -/
def Right (mod : Mod σ V F) (past : List (Event V)) : Event V → Prop
  | .executed path => ∀ path', .executed path' ∈ past → ¬mod.Same path path'
  | .finished path _ => .executed path ∈ past
  | .answered path results =>
    if (mod.chunk path).isSome then ∃ path', mod.Same path path' ∧ .finished path' results ∈ past
    else results = []

/-! ## Requires that the loader is made for -/

/-- The files that are being run for a require. -/
def State.running (s : State σ V) : List Origin :=
  (s.current.map Prod.fst).toList ++ s.stack.map Frame.origin

/-- The paths of the chunks that were executed. -/
def executedPaths (history : List (Event V)) : List Bytes :=
  history.filterMap fun e => match e with
    | .executed path => some path
    | _ => none

/-- The next step of a chunk does not require a file that is still running, the bootstrap, or a
file that was executed under another spelling of its path; and an error of a file can be printed. -/
def CleanChunk (mod : Mod σ V F) (s : State σ V) : Origin → Code σ V → Prop
  | _, .require _ named path _ =>
    (named || s.moduleUuid) = true → .required path ∉ s.running ∧
      ∀ path' ∈ executedPaths s.history, mod.Same path path' → path' = path ∧ path ≠ mod.boot
  | .required _, .raises _ printed => printed = true
  | _, _ => True

def Clean (mod : Mod σ V F) (s : State σ V) : Action σ V → Prop
  | .step => ∀ chunk ∈ s.current, CleanChunk mod s chunk.1 chunk.2
  | .call _ _ => True

/-- A clean require of a file that has finished is answered from its results. -/
def Answers (mod : Mod σ V F) (s : State σ V) : Prop :=
  ∀ origin globals named path path' next results,
    s.current = some (origin, .require globals named path next) → Clean mod s .step →
    mod.Same path path' → .finished path' results ∈ s.history → (named || s.moduleUuid) = true →
    ∃ s', step mod s .step = some s' ∧ s'.current = some (origin, next globals (some results))

instance [DecidableEq F] (mod : Mod σ V F) (s : State σ V) :
    (origin : Origin) → (code : Code σ V) → Decidable (CleanChunk mod s origin code)
  | _, .require _ named path _ => inferInstanceAs (Decidable
      ((named || s.moduleUuid) = true → .required path ∉ s.running ∧
        ∀ path' ∈ executedPaths s.history, mod.Same path path' → path' = path ∧ path ≠ mod.boot))
  | .required _, .raises _ printed => inferInstanceAs (Decidable (printed = true))
  | .boot, .raises _ _ | .outside, .raises _ _ | _, .returns _ _ => inferInstanceAs (Decidable True)

instance [DecidableEq F] (mod : Mod σ V F) (s : State σ V) : (a : Action σ V) → Decidable (Clean mod s a)
  | .step => inferInstanceAs (Decidable (∀ chunk ∈ s.current, CleanChunk mod s chunk.1 chunk.2))
  | .call _ _ => inferInstanceAs (Decidable True)

end Require
end Bg3le
