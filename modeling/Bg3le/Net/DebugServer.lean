import Bg3le.Library.Run
import Bg3le.Net.Reader

/-!
# The debugger's server: `debug_server.cpp`

Every connection has a thread in `handle_client`, which queues what its client wants evaluated
and waits for a pump to do it. A step below is one critical section, one operation on a counter,
one send or one receive of one thread, with what the thread does on its own after it.
-/

namespace Bg3le
namespace Net
namespace DebugServer

open Pb

/-! ## Messages -/

/-- Where `read_varint` leaves the reader, also where it says false. -/
def afterVarint : ℕ → Bytes → Bytes
  | _, [] => []
  | shift, b :: rest =>
    if b &&& 0x80 = 0 then rest
    else if 63 < shift + 7 then rest
    else afterVarint (shift + 7) rest

/-- `read_varint` into a variable, whose result is not looked at. -/
def intoVarint (v : UInt64) (data : Bytes) : UInt64 × Bytes :=
  (((readVarint data).map Prod.fst).getD v, afterVarint 0 data)

/-- `read_bytes` into a variable, whose result is not looked at. -/
def intoBytes (b : Bytes) (data : Bytes) : Bytes × Bytes :=
  (readBytes data).getD (b, afterVarint 0 data)

/-- A loop over the fields of a message, which the end or a field that cannot be skipped ends. -/
def eachField {σ : Type} (handle : σ → UInt32 → UInt32 → Bytes → Option (σ × Bytes)) :
    ℕ → σ → Bytes → σ
  | 0, s, _ => s
  | n + 1, s, data =>
    match next data with
    | none => s
    | some (field, wire, rest) =>
      match handle s field wire rest with
      | none => s
      | some (s', rest') => eachField handle n s' rest'

/-- What is read of a packet. -/
structure Message where
  seq : UInt64 := 0
  connectBody : Bytes := []
  evaluateBody : Bytes := []

def messageField (m : Message) (field wire : UInt32) (data : Bytes) : Option (Message × Bytes) :=
  if field = 1 ∧ wire = 0 then
    let (seq, rest) := intoVarint m.seq data
    some ({ m with seq }, rest)
  else if field = 3 ∧ wire = 2 then
    let (connectBody, rest) := intoBytes m.connectBody data
    some ({ m with connectBody }, rest)
  else if field = 7 ∧ wire = 2 then
    let (evaluateBody, rest) := intoBytes m.evaluateBody data
    some ({ m with evaluateBody }, rest)
  else (skip wire data).map fun rest => (m, rest)

/-- What is read of a `DbgEvaluate`. -/
structure Evaluate where
  context : UInt64 := 0
  expression : Bytes := []

def evaluateField (e : Evaluate) (field wire : UInt32) (data : Bytes) :
    Option (Evaluate × Bytes) :=
  if field = 1 ∧ wire = 0 then
    let (context, rest) := intoVarint e.context data
    some ({ e with context }, rest)
  else if field = 2 ∧ wire = 2 then
    let (expression, rest) := intoBytes e.expression data
    some ({ e with expression }, rest)
  else (skip wire data).map fun rest => (e, rest)

/-- `make_connect_response` -/
def makeConnectResponse (replySeq : UInt64) : Bytes :=
  uintField 2 replySeq ++ bytesField 3 (uintField 1 4)

/-- `make_evaluate_response` -/
def makeEvaluateResponse (replySeq : UInt64) (result error : Bytes) : Bytes :=
  let body := if error ≠ [] then bytesField 2 error
    else bytesField 1 (uintField 1 4 ++ bytesField 5 result)
  uintField 2 replySeq ++ bytesField 5 body

def notLoaded : Bytes :=
  bytes ("the server context runs once a save is loaded; at the main " ++
    "menu, use the client context (:client, or bg3lua --client)")

def timedOut : Bytes :=
  bytes "timed out waiting for the story thread; is the game paused or still loading?"

/-! ## The threads -/

/-- `Job` -/
structure Job where
  code : Bytes := []
  result : Bytes := []
  error : Bytes := []
  client : Bool := false
  done : Bool := false

/-- Where a connection is in `handle_client`. Jobs go by the order in which they are queued. -/
inductive Place where
  | outside
  /-- The thread is there, and has not done anything yet. -/
  | starting
  /-- Before the replay takes `g_status_mutex`. -/
  | attached
  /-- In the replay, with the lines that are left. -/
  | replaying (lines : List Bytes)
  /-- At the top of the loop. -/
  | receiving
  /-- Before a response is sent; it answers the job. -/
  | sending (payload : Bytes) (job : Option ℕ)
  /-- Before the job is queued. -/
  | submitting (seq : UInt64) (code : Bytes) (client : Bool)
  /-- Between `push_back` and `fetch_add`. -/
  | counting (seq : UInt64) (job : ℕ)
  /-- In `wait_for`. -/
  | waiting (seq : UInt64) (job : ℕ)
  /-- Timed out, before it looks for the job in the queue. -/
  | forgetting (seq : UInt64) (job : ℕ) (result : Bytes)
  /-- Between `erase` and `fetch_sub`, with the lock held. -/
  | uncounting (seq : UInt64) (job : ℕ) (result : Bytes)
  /-- After the loop. -/
  | leaving

/-- Where a call of a pump is: in `pump_where`, apart from `entering`, which is between the two
operations of `debug_server_pump_client`. -/
inductive Pump where
  | idle
  | entering
  | looping (clientJobs : Bool)
  /-- Between `erase` and `fetch_sub`. -/
  | discounting (clientJobs : Bool) (job : ℕ)
  | evaluating (clientJobs : Bool) (job : ℕ)
  /-- Before the job is marked as done. -/
  | finishing (clientJobs : Bool) (job : ℕ) (result error : Bytes)

/-- `n` connections at once and `m` calls of a pump. -/
structure State (n m : ℕ) where
  /-- `g_clients` -/
  clients : List ℕ
  /-- `g_status` -/
  status : List Bytes
  /-- `g_status_mutex` is held between two steps. -/
  statusLock : Bool
  /-- `g_queue` -/
  queue : List ℕ
  /-- `g_queue_mutex` is held between two steps. -/
  queueLock : Bool
  /-- `g_pending` -/
  pending : ℤ
  /-- `g_story_tid` -/
  storyTid : ℕ
  /-- `g_client_pumps` -/
  clientPumps : Bool
  jobs : ℕ → Job
  /-- How many jobs there have been. -/
  made : ℕ
  /-- The jobs that `lua_eval_in` was called for. -/
  evaluated : List ℕ
  /-- The jobs whose response was sent, or could not be. -/
  answered : List ℕ
  /-- The descriptors that are open. -/
  opened : List ℕ
  fd : Fin n → ℕ
  client : Fin n → Place
  pump : Fin m → Pump

variable {n m : ℕ}

/-- The server as it starts, with so much of a history. -/
def State.start (status : List Bytes) (opened : List ℕ) : State n m where
  clients := []
  status := status
  statusLock := false
  queue := []
  queueLock := false
  pending := 0
  storyTid := 0
  clientPumps := false
  jobs := fun _ => {}
  made := 0
  evaluated := []
  answered := []
  opened := opened
  fd := fun _ => 0
  client := fun _ => .outside
  pump := fun _ => .idle

def State.put (s : State n m) (i : Fin n) (place : Place) : State n m :=
  { s with client := Function.update s.client i place }

def State.putPump (s : State n m) (p : Fin m) (place : Pump) : State n m :=
  { s with pump := Function.update s.pump p place }

/-! ## `handle_client` -/

/-- What a packet leads to, from its payload. -/
def handle (payload : Bytes) (storyReady : Bool) : Place :=
  let m := eachField messageField payload.length {} payload
  if m.connectBody ≠ [] then .sending (makeConnectResponse m.seq) none
  else if m.evaluateBody = [] then .receiving
  else
    let e := eachField evaluateField m.evaluateBody.length {} m.evaluateBody
    if e.context ≠ 1 ∧ !storyReady then .sending (makeEvaluateResponse m.seq [] notLoaded) none
    else .submitting m.seq e.expression (e.context = 1)

/-- What a receive leads to: the header and the payload, each none where it fails. A payload has
the length that the header says. -/
def receive (header : Option UInt32) (payload : Option Bytes) (storyReady : Bool) : Option Place :=
  match header with
  | none => some .leaving
  | some total =>
    if total < 4 ∨ 0x1000000 < total then some .leaving
    else if total = 4 then some (handle [] storyReady)
    else
      match payload with
      | none => some .leaving
      | some payload =>
        if payload.length + 4 = total.toNat then some (handle payload storyReady) else none

/-- What comes from outside into a step of `handle_client`. -/
inductive Input where
  | go
  /-- Whether a line of the history was sent. -/
  | line (sent : Bool)
  /-- Whether a response was sent. -/
  | response (sent : Bool)
  | packet (header : Option UInt32) (payload : Option Bytes) (storyReady : Bool)
  /-- The ten seconds are over. -/
  | timeOut

/-- The next step of a connection's thread. -/
def clientStep (s : State n m) (i : Fin n) : Place → Input → Option (State n m)
  | .starting, .go => some ({ s with clients := s.clients ++ [s.fd i] }.put i .attached)
  | .attached, .go =>
    if s.statusLock then none
    else some ({ s with statusLock := true }.put i (.replaying s.status))
  | .replaying (_ :: lines), .line sent =>
    -- a line that is not sent returns, and only the lock's guard runs
    if sent then some (s.put i (.replaying lines))
    else some ({ s with statusLock := false }.put i .outside)
  | .replaying [], .go => some ({ s with statusLock := false }.put i .receiving)
  | .receiving, .packet header payload storyReady =>
    (receive header payload storyReady).map (s.put i)
  | .sending _ job, .response sent =>
    some ({ s with answered := s.answered ++ job.toList }.put i
      (if sent then .receiving else .leaving))
  | .submitting seq code client, .go =>
    if s.queueLock then none
    else some ({ s with
      jobs := Function.update s.jobs s.made { code, client }
      made := s.made + 1
      queue := s.queue ++ [s.made] }.put i (.counting seq s.made))
  | .counting seq job, .go => some ({ s with pending := s.pending + 1 }.put i (.waiting seq job))
  | .waiting seq job, .go =>
    if s.queueLock || !(s.jobs job).done then none
    else some (s.put i
      (.sending (makeEvaluateResponse seq (s.jobs job).result (s.jobs job).error) (some job)))
  | .waiting seq job, .timeOut =>
    if s.queueLock then none
    else if (s.jobs job).done then
      some (s.put i
        (.sending (makeEvaluateResponse seq (s.jobs job).result (s.jobs job).error) (some job)))
    else some (s.put i (.forgetting seq job (s.jobs job).result))
  | .forgetting seq job result, .go =>
    if s.queueLock then none
    else if s.queue.contains job then
      some ({ s with queueLock := true, queue := s.queue.erase job }.put i
        (.uncounting seq job result))
    else some (s.put i (.sending (makeEvaluateResponse seq result timedOut) (some job)))
  | .uncounting seq job result, .go =>
    some ({ s with queueLock := false, pending := s.pending - 1 }.put i
      (.sending (makeEvaluateResponse seq result timedOut) (some job)))
  | .leaving, .go =>
    some ({ s with
      clients := s.clients.filter fun fd => fd != s.fd i
      opened := s.opened.erase (s.fd i) }.put i .outside)
  | _, _ => none

/-! ## The pumps -/

/-- The next step of a call of a pump, where the evaluation gives so much. -/
def pumpStep (s : State n m) (p : Fin m) (result error : Bytes) : Pump → Option (State n m)
  | .idle => none
  | .entering => some (s.putPump p (if s.pending = 0 then .idle else .looping true))
  | .looping clientJobs =>
    if s.queueLock then none
    else
      match s.queue.find? fun job =>
          (s.jobs job).client == clientJobs || (!clientJobs && !s.clientPumps) with
      | none => some (s.putPump p .idle)
      | some job =>
        some ({ s with queue := s.queue.erase job }.putPump p (.discounting clientJobs job))
  | .discounting clientJobs job =>
    some ({ s with pending := s.pending - 1 }.putPump p (.evaluating clientJobs job))
  | .evaluating clientJobs job =>
    some ({ s with evaluated := s.evaluated ++ [job] }.putPump p
      (.finishing clientJobs job result error))
  | .finishing clientJobs job result error =>
    if s.queueLock then none
    else some ({ s with
      jobs := Function.update s.jobs job { s.jobs job with result, error, done := true } }.putPump p
        (.looping clientJobs))

inductive Action (n m : ℕ) where
  /-- The listener accepts a connection and starts its thread. -/
  | accept (i : Fin n) (fd : ℕ)
  | client (i : Fin n) (input : Input)
  /-- `debug_server_note_story_thread`, by a thread. -/
  | noteStoryThread (tid : ℕ)
  /-- The call of `debug_server_tick`, by a thread. -/
  | tick (p : Fin m) (tid : ℕ)
  /-- The call of `debug_server_pump`. -/
  | debugServerPump (p : Fin m)
  /-- The call of `debug_server_pump_client`, and its store. -/
  | debugServerPumpClient (p : Fin m)
  /-- The next step of a call. -/
  | pump (p : Fin m) (result error : Bytes)
  /-- `statusf` -/
  | status (line : Bytes)

/-- `kStatusHistory` -/
def statusHistory : ℕ := 128

/-- What an action does, where the thread can take it. -/
def step (s : State n m) : Action n m → Option (State n m)
  | .accept i fd =>
    match s.client i with
    | .outside =>
      if s.opened.contains fd then none
      else some ({ s with
        opened := fd :: s.opened
        fd := Function.update s.fd i fd }.put i .starting)
    | _ => none
  | .client i input => clientStep s i (s.client i) input
  | .noteStoryThread tid => some (if s.storyTid = 0 then { s with storyTid := tid } else s)
  | .tick p tid =>
    match s.pump p with
    | .idle =>
      if s.pending = 0 ∨ s.storyTid = 0 ∨ tid ≠ s.storyTid then some s
      else some (s.putPump p (.looping false))
    | _ => none
  | .debugServerPump p =>
    match s.pump p with
    | .idle => some (s.putPump p (.looping false))
    | _ => none
  | .debugServerPumpClient p =>
    match s.pump p with
    | .idle => some ({ s with clientPumps := true }.putPump p .entering)
    | _ => none
  | .pump p result error => pumpStep s p result error (s.pump p)
  | .status line =>
    if s.statusLock then none
    else
      let status := s.status ++ [line]
      some { s with status := if statusHistory < status.length then status.tail else status }

end DebugServer
end Net
end Bg3le
