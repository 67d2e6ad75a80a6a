import Bg3le.Net.Vars

/-!
# The messages of a tick: `DrainNetMessages` of `lua_host.cpp`

What the mods' handlers do is a parameter: a call changes the state of the context in any way, and
returns a value or raises. The subscribers of an event are those it has when it is thrown.
-/

namespace Bg3le
namespace Drain

open Lua

inductive Kind
  | vars | reset | post
deriving DecidableEq

/-- `NetInbound`, as `TakeNetMessages` hands it over. -/
structure Message where
  kind : Kind := .post
  channel : Bytes
  payload : Option Bytes
  module : Option Bytes
  user : ℤ := 0
  requestId : ℕ := 0
  replyId : ℕ := 0
  binary : Bool := false
  vars : List (Vars.Var × Vars.Carried) := []

/-- A `NetChannel` with its handlers. -/
structure NetChannel (H : Type) where
  messageHandler : Option H
  requestHandler : Option H

structure Subscriber (H : Type) where
  index : ℕ
  handler : H
  once : Bool := false

inductive EventName
  | netMessage | netModMessage
deriving DecidableEq

/-- A Lua context; `mods` is all that the mods keep themselves. -/
structure State (σ H : Type) where
  mods : σ
  inbox : List Message := []
  /-- The replies that left the context. -/
  sent : List Message := []
  /-- `net_channels`, by `module .. "/" .. channel`. -/
  channels : List (Bytes × NetChannel H) := []
  listeners : List (Bytes × List H) := []
  requests : List (ℕ × H) := []
  subscribers : EventName → List (Subscriber H) := fun _ => []
  vars : Vars.Context
  resetRequested : Bool := false

/-- What a handler is called with. -/
inductive Args where
  | message (request : Value) (user : ℤ)
  | reply (payload : Option Bytes) (binary : Bool)
  | listener (channel : Bytes) (payload : Option Bytes) (user : ℤ)
  | event (m : Message)

/-- What comes of a call; `stopped` is for an event's handler. -/
structure Call (σ H E : Type) where
  state : State σ H
  result : Except E Value
  stopped : Bool := false

/-- The handlers of the mods, `Ext.Json`, and whether `tostring` of a raised error returns. -/
structure Mods (σ H E : Type) where
  run : H → Args → State σ H → Call σ H E
  parse : Option Bytes → Bool → Option Value
  stringify : Value → Bool → Option Bytes
  /-- `IsBinary()`. -/
  isBinary : Bool
  /-- A post of this state has someone to go to, and is not refused on the way. -/
  takes : Message → State σ H → Bool
  printable : E → Bool

/-- A function of the context returns, raises, or is not through after the calls it was given. -/
inductive Done (α : Type) where
  | returns (a : α)
  | raises
  | runs

def Done.bind {α β : Type} (d : Done α) (f : α → Done β) : Done β :=
  match d with
  | .returns a => f a
  | .raises => .raises
  | .runs => .runs

def Done.ofOption {α : Type} : Option α → Done α
  | some a => .returns a
  | none => .raises

variable {σ H E : Type}

/-- `PrintError` of what was raised, after a protected call. -/
def report (mods : Mods σ H E) (call : Call σ H E) : Done (State σ H) :=
  match call.result with
  | .ok _ => .returns call.state
  | .error e => if mods.printable e then .returns call.state else .raises

/-! ### Channels -/

def State.channel (s : State σ H) (module name : Bytes) : Option (NetChannel H) :=
  Vars.find (module ++ bytes "/" ++ name) s.channels

/-- The reply to a request, posted to whoever sent it. -/
def reply (m : Message) (payload : Bytes) (binary : Bool) : Message :=
  { channel := m.channel, payload := some payload, module := m.module, user := m.user
    replyId := m.requestId, binary }

/-- `NET_MAX_PAYLOAD`. -/
def kMaxPayload : ℕ := 0xff000

/-- `net_fits`. -/
def netFits (payload : Option Bytes) : Bool :=
  match payload with
  | some payload => payload.length < kMaxPayload
  | none => true

/-- `PostMessageToUser` or `PostMessageToServer`: what does not fit, has no one to go to or is
refused is dropped. -/
def State.post (mods : Mods σ H E) (m : Message) (s : State σ H) : State σ H :=
  if netFits m.payload && mods.takes m s then { s with sent := s.sent ++ [m] } else s

/-- `NetChannel:OnMessage`. -/
def onMessage (mods : Mods σ H E) (c : NetChannel H) (m : Message) (s : State σ H) :
    Done (State σ H) :=
  match mods.parse m.payload m.binary with
  | none => .raises
  | some request =>
    if m.requestId ≠ 0 then
      match c.requestHandler with
      | none => .returns s
      | some handler =>
        let call := mods.run handler (.message request m.user) s
        match call.result with
        | .ok value =>
          match mods.stringify value mods.isBinary with
          | none => .raises
          | some text =>
            .returns (call.state.post mods (reply m text mods.isBinary))
        | .error _ => report mods call
    else
      match c.messageHandler with
      | none => .returns s
      | some handler => report mods (mods.run handler (.message request m.user) s)

/-- `net_channel_message`. -/
def netChannelMessage (mods : Mods σ H E) (module : Bytes) (m : Message) (s : State σ H) :
    Done (State σ H) :=
  match s.channel module m.channel with
  | none => .returns s
  | some c => onMessage mods c m s

/-! ### Listeners and events -/

/-- `net_listeners[channel][i]`, from zero. -/
def State.listener (s : State σ H) (channel : Bytes) (i : ℕ) : Option H :=
  ((Vars.find channel s.listeners).getD [])[i]?

/-- `FireNetMessage` from a listener on; those added meanwhile have their turn too. -/
def fireNetMessage (mods : Mods σ H E) (m : Message) :
    ℕ → ℕ → State σ H → Done (State σ H)
  | fuel, i, s =>
    match s.listener m.channel i with
    | none => .returns s
    | some handler =>
      match fuel with
      | 0 => .runs
      | fuel + 1 =>
        (report mods (mods.run handler (.listener m.channel m.payload m.user) s)).bind
          (fireNetMessage mods m fuel (i + 1))

def State.unsubscribe (s : State σ H) (event : EventName) (index : ℕ) : State σ H :=
  let rest := (s.subscribers event).filter fun sub => sub.index ≠ index
  { s with subscribers := Function.update s.subscribers event rest }

/-- The loop of `Throw`. -/
def throw (mods : Mods σ H E) (event : EventName) (m : Message) :
    List (Subscriber H) → State σ H → Done (State σ H)
  | [], s => .returns s
  | sub :: rest, s =>
    let call := mods.run sub.handler (.event m) s
    (report mods call).bind fun s =>
      let s := if sub.once then s.unsubscribe event sub.index else s
      if call.stopped then .returns s else throw mods event m rest s

/-- `FireEvent`. -/
def fireEvent (mods : Mods σ H E) (event : EventName) (m : Message) (s : State σ H) :
    Done (State σ H) := throw mods event m (s.subscribers event) s

/-! ### One message -/

/-- `net_receive`. -/
def netReceive (mods : Mods σ H E) (fuel : ℕ) (m : Message) (s : State σ H) : Done (State σ H) :=
  if m.replyId ≠ 0 then
    match Vars.find m.replyId s.requests with
    | none => .returns s
    | some callback =>
      let s := { s with requests := s.requests.filter fun e => e.1 ≠ m.replyId }
      report mods (mods.run callback (.reply m.payload m.binary) s)
  else
    match m.module with
    | none =>
      if m.requestId = 0 then
        (fireNetMessage mods m fuel 0 s).bind (fireEvent mods .netMessage m)
      else fireEvent mods .netModMessage m s
    | some module =>
      (netChannelMessage mods module m s).bind (fireEvent mods .netModMessage m)

/-- `CHANNEL`. -/
def kVarChannel : Bytes := bytes "__bg3le_vars__"

/-- The boxes of one owner; an index that is no string names no variable. -/
def applyBoxes (mod : Bool) (owner : Key) (boxes : Entries) (c : Vars.Context) :
    Option Vars.Context :=
  boxes.toList.foldlM (fun c e => (e.2.index (bytes "V")).map fun value =>
    match owner, e.1 with
    | .string owner, .string key => c.setValue { mod, owner, key } value
    | _, _ => c) c

/-- `pairs(data.Mod or {})` and its like; `none` where it raises. -/
def applyOwners (mod : Bool) (owners : Value) (c : Vars.Context) : Option Vars.Context :=
  if owners.truthy = false then some c
  else
    match owners with
    | .table entries => entries.toList.foldlM (fun c e =>
        match e.2 with
        | .table boxes => applyBoxes mod e.1 boxes c
        | _ => none) c
    | _ => none

/-- `ApplyVarSync`, of any payload. -/
def applyVarSync (mods : Mods σ H E) (payload : Option Bytes) (s : State σ H) : Done (State σ H) :=
  match mods.parse payload false with
  | some (.table data) =>
    .ofOption <| ((applyOwners true (data.get (.string (bytes "Mod"))) s.vars).bind
      (applyOwners false (data.get (.string (bytes "User"))))).map fun vars => { s with vars }
  | _ => .returns s

/-- The body of the loop of `DrainNetMessages`. -/
def handle (mods : Mods σ H E) (fuel : ℕ) (m : Message) (s : State σ H) : Done (State σ H) :=
  match m.kind with
  | .vars => .returns { s with
      vars := Vars.applyNetVars (fun text binary => mods.parse (some text) binary) m.vars s.vars }
  | .reset => .returns { s with resetRequested := true }
  | .post =>
    if m.channel = kVarChannel then applyVarSync mods m.payload s else netReceive mods fuel m s

/-- Handles the messages of a batch in order; returns those it handled. -/
def handleAll (mods : Mods σ H E) (fuel : ℕ) :
    List Message → State σ H → Done (State σ H × List Message)
  | [], s => .returns (s, [])
  | m :: rest, s =>
    (handle mods fuel m s).bind fun s =>
      (handleAll mods fuel rest s).bind fun (s, handled) => .returns (s, m :: handled)

/-- `DrainNetMessages`; the batch is taken whole first. -/
def drainNetMessages (mods : Mods σ H E) (fuel : ℕ) (s : State σ H) :
    Done (State σ H × List Message) := handleAll mods fuel s.inbox { s with inbox := [] }

/-- `RunTimers`, with what it does after the messages. -/
def runTimers (mods : Mods σ H E) (rest : State σ H → Done (State σ H)) (fuel : ℕ)
    (s : State σ H) : Done (State σ H) :=
  (drainNetMessages mods fuel s).bind fun (s, _) => rest s

end Drain
end Bg3le
