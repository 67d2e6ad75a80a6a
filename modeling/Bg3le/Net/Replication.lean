import Bg3le.Library.Run
import Bg3le.Net.Vars

/-!
# Replicated variables: the server, the host's own client and the clients on other machines

The host's process has two contexts with a queue each way between them; the server also has a
channel each way with every client on another machine. Channels keep their order. A packet of
variables is received variable by variable.
-/

namespace Bg3le
namespace Vars

open Lua

/-- The contexts of a game with `n` clients on other machines. -/
inductive Party (n : ℕ) where
  | server
  | host
  | remote (i : Fin n)
deriving DecidableEq

/-- How a table crosses the network: its binary form, and `Ext.Json.Parse`; and which userdata
are enum or bitfield values. -/
structure Codec where
  binary : Value → Bool
  blob : Value → Bytes
  parse : Bytes → Bool → Option Value
  labelled : ℕ → Bool := fun _ => false

/-- What `NetSyncVars` sends for a value. -/
def Codec.carry (codec : Codec) : Value → Carried
  | .table entries => .binary (codec.blob (.table entries))
  | .nil | .other _ => .null
  | value => .plain value

/-- A value that survives serialisation: in a payload, where an enum or bitfield value would become
its labels, and in the binary form where it takes that. -/
def Codec.Survives (codec : Codec) (value : Value) : Prop :=
  value.stringifies (fun _ => false) 4 = true ∧ (value.isTable = true →
    codec.binary value = true ∧ codec.parse (codec.blob value) true = some value)

structure System (n : ℕ) where
  server : Context
  host : Context
  remotes : Fin n → Context
  /-- `g_to_client` and `g_to_server` of the host, as far as payloads of `PostToOtherContext`. -/
  toHost : List Payload := []
  toServer : List Payload := []
  /-- The variables on their way from and to a client on another machine. -/
  up : Fin n → List (Var × Carried) := fun _ => []
  down : Fin n → List (Var × Carried) := fun _ => []

variable {n : ℕ}

def System.context (s : System n) : Party n → Context
  | .server => s.server
  | .host => s.host
  | .remote i => s.remotes i

def System.setContext (s : System n) (p : Party n) (c : Context) : System n :=
  match p with
  | .server => { s with server := c }
  | .host => { s with host := c }
  | .remote i => { s with remotes := Function.update s.remotes i c }

/-- `NetInfo().Hosting`, which only the host's own client asks for. -/
def Party.remote? (codec : Codec) (p : Party n) : Remote :=
  { hosting := p = .host, binary := codec.binary, labelled := codec.labelled }

/-- Sends what a flush of a context posted and synced. In the process of a client on another
machine no server context takes part in the game. -/
def System.send (codec : Codec) (p : Party n) (f : Flushed) (s : System n) : System n :=
  let s := s.setContext p f.context
  let posted := f.posted.toList
  let synced := (f.synced.getD []).map fun e => (e.1, codec.carry e.2)
  match p with
  | .server => { s with
      toHost := s.toHost ++ posted
      down := fun i => s.down i ++ synced }
  | .host => { s with toServer := s.toServer ++ posted }
  | .remote i => { s with up := Function.update s.up i (s.up i ++ synced) }

inductive Move (n : ℕ) where
  /-- A mod, or the tick, of one of the contexts. -/
  | act (p : Party n) (a : Action)
  /-- `ApplyVarSync` of the oldest payload, on the host's client or on the server. -/
  | hostReceives
  | serverReceives
  /-- `ApplyNetVars` of the next variable from or on a client on another machine. -/
  | serverNet (i : Fin n)
  | remoteNet (i : Fin n)

/-- One step of the game; `none` where there is nothing to receive. -/
def move (codec : Codec) (s : System n) : Move n → Option (System n)
  | .act p a => some (s.send codec p (act (p.remote? codec) (s.context p) a))
  | .hostReceives =>
    match s.toHost with
    | [] => none
    | payload :: rest => some { s with host := applyVarSync payload s.host, toHost := rest }
  | .serverReceives =>
    match s.toServer with
    | [] => none
    | payload :: rest => some { s with server := applyVarSync payload s.server, toServer := rest }
  | .serverNet i =>
    match s.up i with
    | [] => none
    | e :: rest => some { s with
        server := applyNetVar codec.parse s.server e
        up := Function.update s.up i rest }
  | .remoteNet i =>
    match s.down i with
    | [] => none
    | e :: rest => some { s with
        remotes := Function.update s.remotes i (applyNetVar codec.parse (s.remotes i) e)
        down := Function.update s.down i rest }

/-! ### One variable -/

/-- No message in flight is about the variable. -/
def System.Idle (s : System n) (x : Var) : Prop :=
  (∀ p ∈ s.toHost, ∀ e ∈ p, e.1 ≠ x) ∧ (∀ p ∈ s.toServer, ∀ e ∈ p, e.1 ≠ x) ∧
    ∀ i, (∀ e ∈ s.up i, e.1 ≠ x) ∧ ∀ e ∈ s.down i, e.1 ≠ x

/-- No context has it marked, and no message in flight is about it. -/
def System.Quiescent (s : System n) (x : Var) : Prop :=
  x ∉ s.server.dirty ∧ x ∉ s.host.dirty ∧ (∀ i, x ∉ (s.remotes i).dirty) ∧ s.Idle x

/-- A game and what was written to the variable: the last value, and the last one that another
than the host's own client wrote. -/
structure Tracked (n : ℕ) where
  system : System n
  last : Value := .nil
  lastOther : Value := .nil

/-- Takes note of a value that is written. -/
def Tracked.note (x : Var) (t : Tracked n) : Move n → Tracked n
  | .act p (.write v value) =>
    if v = x then
      { t with last := value, lastOther := if p = .host then t.lastOther else value }
    else t
  | _ => t

def trackedStep (codec : Codec) (x : Var) (t : Tracked n) (m : Move n) : Option (Tracked n) :=
  (move codec t.system m).map fun system => { t.note x m with system }

/-- A mark that sends the variable: its own, or that of its key for every entity. -/
def About (x d : Var) : Prop :=
  d.mod = x.mod ∧ d.key = x.key ∧ (d.owner = x.owner ∨ d.owner = kEverywhere)

/-- Registered as writeable on both sides, to be synced both ways. -/
def Registered (c : Context) (x : Var) : Prop :=
  ∃ o, c.defs x = some o ∧ option (some o) .writeableOnServer = true ∧
    option (some o) .writeableOnClient = true ∧ option (some o) .syncToClient = true ∧
    option (some o) .syncToServer = true

/-- What is written survives serialisation; the variable stays registered, and is marked by
writes only, while no earlier write of it is marked or in flight. -/
def Disciplined (codec : Codec) (x : Var) (t : Tracked n) : Move n → Prop
  | .act p a =>
    (∀ v value, a = .write v value → codec.Survives value) ∧
    Registered (prepared (t.system.context p) a) x ∧
    ∀ d ∈ marks (t.system.context p) a, About x d →
      (∃ value, a = .write x value) ∧ t.system.Quiescent x
  | _ => True

/-- Every context holds the last value written. -/
def Tracked.Agrees (t : Tracked n) (x : Var) : Prop :=
  ∀ p, (t.system.context p).value x = t.last

/-- A game in which nothing has been written, with the variable registered everywhere. -/
structure Starts (s : System n) (x : Var) : Prop where
  sides : s.server.server = true ∧ s.host.server = false ∧ ∀ i, (s.remotes i).server = false
  registered : ∀ p, Registered (s.context p) x
  unset : ∀ p, (s.context p).values = [] ∧ (s.context p).dirty = []
  empty : s.toHost = [] ∧ s.toServer = [] ∧ ∀ i, s.up i = [] ∧ s.down i = []

end Vars
end Bg3le
