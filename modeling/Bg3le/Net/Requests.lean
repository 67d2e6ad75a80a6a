import Mathlib.Algebra.Group.Nat.Defs
import Bg3le.Library.Run

/-!
# Requests and their replies: `Ext.Net` of `lua_host.cpp`

The two Lua contexts of a process, each with the requests it sent that have no reply yet, and the
queues between them, which outlive the contexts. A handler is named by the request it was passed
with, and a reply by the request it was made for.
-/

namespace Bg3le
namespace Requests

inductive Side
  | server | client
deriving DecidableEq

def Side.other : Side → Side
  | .server => .client
  | .client => .server

/-- A request, by the Lua state that sent it and its number there. -/
structure Request where
  side : Side
  state : ℕ
  id : ℕ
deriving DecidableEq

/-- A `NetInbound`, as far as its `requestId` and `replyId`. -/
inductive Message where
  | plain
  | request (id : ℕ) (origin : Request)
  | reply (id : ℕ) (origin : Request)

structure Context where
  /-- How many times the context was rebuilt. -/
  state : ℕ := 0
  /-- `net_next_request` and `net_requests`. -/
  nextRequest : ℕ := 1
  requests : List (ℕ × Request) := []
  /-- What a drain has taken and not handled yet. -/
  batch : List Message := []
  /-- The requests it received, under the numbers they came with. -/
  received : List (ℕ × Request) := []

/-- A handler that was called, and what the reply was made for. -/
structure Call where
  handler : Request
  reply : Request

structure System where
  server : Context := {}
  client : Context := {}
  /-- `g_to_server` and `g_to_client`. -/
  toServer : List Message := []
  toClient : List Message := []
  calls : List Call := []

def System.context (s : System) : Side → Context
  | .server => s.server
  | .client => s.client

def System.setContext (s : System) (side : Side) (c : Context) : System :=
  match side with
  | .server => { s with server := c }
  | .client => { s with client := c }

/-- What waits for a context. -/
def System.queue (s : System) : Side → List Message
  | .server => s.toServer
  | .client => s.toClient

def System.setQueue (s : System) (side : Side) (queue : List Message) : System :=
  match side with
  | .server => { s with toServer := queue }
  | .client => { s with toClient := queue }

/-- `PostToOtherContext`; without the other context, nothing is posted. -/
def System.post (s : System) (side : Side) (there : Bool) (m : Message) : System :=
  if there then s.setQueue side.other (s.queue side.other ++ [m]) else s

/-- The cast to `std::uint32_t`. -/
def word (id : ℕ) : ℕ := id % 2 ^ 32

/-- `net_requests[id]`. -/
def lookup (id : ℕ) (requests : List (ℕ × Request)) : Option Request :=
  (requests.find? fun e => e.1 = id).map Prod.snd

inductive Action where
  | post (side : Side) (there : Bool)
  /-- Sends a request with a handler. -/
  | request (side : Side) (there : Bool)
  /-- Replies to a request that was received, by its place. -/
  | reply (side : Side) (i : ℕ) (there : Bool)
  /-- A drain begins, handles the next message, or is left by an error. -/
  | take (side : Side)
  | handle (side : Side)
  | abandon (side : Side)
  /-- `lua_reset` and `lua_reset_client`. -/
  | reset
  | resetClient

/-- A rebuilt context. -/
def Context.rebuilt (c : Context) : Context := { state := c.state + 1 }

/-- `net_request` and the message that is sent. -/
def sendRequest (side : Side) (there : Bool) (s : System) : System :=
  let c := s.context side
  let made : Request := { side, state := c.state, id := c.nextRequest }
  let c' := { c with
    nextRequest := c.nextRequest + 1
    requests := (c.nextRequest, made) :: c.requests }
  (s.setContext side c').post side there (.request (word c.nextRequest) made)

/-- `net_receive`, of the first message of a batch. -/
def receive (side : Side) (m : Message) (rest : List Message) (s : System) : System :=
  let c := { s.context side with batch := rest }
  match m with
  | .plain => s.setContext side c
  | .request id origin =>
    s.setContext side { c with received := c.received ++ [(id, origin)] }
  | .reply id origin =>
    if id = 0 then s.setContext side c
    else
      match lookup id c.requests with
      | none => s.setContext side c
      | some handler =>
        { s.setContext side { c with requests := c.requests.filter fun e => e.1 ≠ id } with
          calls := s.calls ++ [{ handler, reply := origin }] }

/-- One step of the process; `none` where there is nothing to reply to or to handle, or a drain is
under way already. -/
def step (s : System) : Action → Option System
  | .post side there => some (s.post side there .plain)
  | .request side there => some (sendRequest side there s)
  | .reply side i there =>
    ((s.context side).received[i]?).map fun e => s.post side there (.reply (word e.1) e.2)
  | .take side =>
    if (s.context side).batch.isEmpty then
      some ((s.setContext side { s.context side with batch := s.queue side }).setQueue side [])
    else none
  | .handle side =>
    match (s.context side).batch with
    | [] => none
    | m :: rest => some (receive side m rest s)
  | .abandon side => some (s.setContext side { s.context side with batch := [] })
  | .reset => some { s with server := s.server.rebuilt, client := s.client.rebuilt }
  | .resetClient => some { s with client := s.client.rebuilt }

/-- Every handler was called at most once, with the reply to its own request. -/
def System.Right (s : System) : Prop :=
  (s.calls.map Call.handler).Nodup ∧ ∀ c ∈ s.calls, c.reply = c.handler

/-- Fewer than `2^32` requests of one Lua state. -/
def Few (s : System) : Action → Prop
  | .request side _ => (s.context side).nextRequest < 2 ^ 32
  | _ => True

/-- A reply that meets an open request of its number was made for a request of the same Lua state,
not of one before it. -/
def Fresh (s : System) : Action → Prop
  | .handle side => ∀ id origin rest, (s.context side).batch = .reply id origin :: rest → id ≠ 0 →
      (lookup id (s.context side).requests).isSome → origin.state = (s.context side).state
  | _ => True

end Requests
end Bg3le
