import Bg3le.Bytes
import Bg3le.Library.Mailbox
import Bg3le.Library.Run

/-!
# Widget callbacks

A widget fires on the render thread, which copies its delegate with the arguments and passes them to
the shared queue at the end of the frame; each Lua state takes its own events from its tick. A
function stays in the tables of the context that set it, under the id that the delegate holds.
-/

namespace Bg3le
namespace Imgui

abbrev LuaState := ℕ

abbrev Context := ℕ

abbrev Handle := ℕ

/-- The userdata that stands for a widget in a context. One that is collected is gone with what was
registered through it, and the widget is given another. -/
abbrev Proxy := ℕ

abbrev Fn := ℕ

/-- What a callback's second argument can be; floats as their words. -/
inductive Arg where
  | none
  | bool (b : Bool)
  | int (i : ℤ)
  | widget (handle : Handle)
  | vec4 (v : Vector UInt32 4)
  | ivec4 (v : Vector ℤ 4)
  | string (s : Bytes)
deriving DecidableEq

/-- An event in the queue. `source`, the delegate that fired it, is kept for the proofs. -/
structure Event where
  id : ℕ
  state : LuaState
  widget : Handle
  arg : Arg
  source : Handle × Bytes
deriving DecidableEq

/-- A function, or nil, that is assigned to a member of a widget, by the state that assigns it. -/
structure Job where
  state : LuaState
  proxy : Proxy
  key : Bytes
  fn : Option Fn
deriving DecidableEq

/-- How far a context is with an assignment; `again` says that a function is to be set once the one
before it is cleared. -/
inductive Work where
  | idle
  | clearing (job : Job) (again : Bool)
  | zeroing (job : Job) (was : ℕ) (again : Bool)
  | erasing (job : Job) (was : ℕ) (again : Bool)
  | setting (job : Job)
  | storing (job : Job) (id : ℕ)
deriving DecidableEq

/-- A copy of a delegate with the widget and the argument it is to be called with. -/
structure Fired where
  id : ℕ
  widget : Handle
  arg : Arg
  source : Handle × Bytes
deriving DecidableEq

/-- An event that has left the queue: a state took it in a context, or it made room. -/
structure Gone where
  event : Event
  taker : Option (Context × LuaState)
deriving DecidableEq

/-- A function that was called with the widget and the argument of an event. -/
structure Call where
  context : Context
  fn : Fn
  event : Event
  arg : Arg
deriving DecidableEq

/-- What the threads share, the tables of the contexts, and what there has been: the jobs that ids
were given to, what was queued, what left the queue and the calls. -/
structure State where
  next : ℕ
  owners : ℕ → Option LuaState
  queue : List Event
  -- the members of a widget that are as wide as an id, by name
  slots : Handle → Bytes → Option ℕ
  -- `imgui_callbacks`, and the `Callbacks` of a widget
  callbacks : Context → ℕ → Option Fn
  registered : Proxy → List (Bytes × ℕ)
  work : Context → Work
  -- the queue of deferred calls
  fired : List Fired
  given : ℕ
  jobs : ℕ → Option Job
  sent : List Event
  gone : List Gone
  called : List Call

/-- Each proxy belongs to a context and stands for a widget. -/
structure Proxies where
  context : Proxy → Context
  handle : Proxy → Handle

/-- What the threads do. The environment makes and destroys widgets, and starts a context anew. -/
inductive Action where
  | assign (job : Job)
  | go (c : Context)
  | destroy (p : Proxy)
  | fire (h : Handle) (key : Bytes) (widget : Handle) (arg : Arg)
  | flush
  | take (c : Context) (l : LuaState)
  | appear (h : Handle) (names : List Bytes)
  | vanish (h : Handle)
  | restart (c : Context)

/-- `kMaxQueued`. -/
def maxQueued : ℕ := 4096

/-- `if (++next == 0) ++next`. -/
def nextId (n : ℕ) : ℕ := if (n + 1) % 2 ^ 32 = 0 then 1 else (n + 1) % 2 ^ 32

/-- What Lua is given of an argument: a text ends at its first zero byte. -/
def luaArg : Arg → Arg
  | .string s => .string (s.takeWhile (· ≠ 0))
  | arg => arg

section

variable (px : Proxies)

/-- The handler branch of `__newindex`, up to the first call of the extender. -/
def assign (s : State) (job : Job) : State :=
  let c := px.context job.proxy
  match (s.registered job.proxy).lookup job.key with
  | some was =>
    -- the function goes first, so that an event that is still queued finds nothing
    { s with
      callbacks := Function.update s.callbacks c (Function.update (s.callbacks c) was none)
      registered := Function.update s.registered job.proxy
        ((s.registered job.proxy).filter fun e => e.1 ≠ job.key)
      work := Function.update s.work c (.clearing job job.fn.isSome) }
  | none => { s with work := Function.update s.work c (.setting job) }

/-- What follows `ImguiClearCallback`. -/
def afterClear (job : Job) (again : Bool) : Work := if again then .setting job else .idle

/-- What follows `ImguiSetCallback`. -/
def filed (s : State) (job : Job) (id : ℕ) : State :=
  let c := px.context job.proxy
  match job.fn with
  | some f => { s with
      callbacks := Function.update s.callbacks c (Function.update (s.callbacks c) id (some f))
      registered := Function.update s.registered job.proxy ((job.key, id) :: s.registered job.proxy)
      work := Function.update s.work c .idle }
  | none =>
    -- nil took an id too, only to learn whether the name is an event
    { s with work := Function.update s.work c (.clearing job false) }

/-- The delegate of a member, as long as the widget has one. -/
def writeSlot (slots : Handle → Bytes → Option ℕ) (h : Handle) (key : Bytes) (id : ℕ) :
    Handle → Bytes → Option ℕ :=
  Function.update slots h (Function.update (slots h) key ((slots h key).map fun _ => id))

/-- `delegate_slot`. -/
def slotOf (s : State) (job : Job) : Option ℕ := s.slots (px.handle job.proxy) job.key

/-- `bg3le_imgui_clear_callback`, up to the read of the delegate. -/
def readSlot (s : State) (c : Context) (job : Job) (again : Bool) : State :=
  match slotOf px s job with
  | some was => { s with work := Function.update s.work c (.zeroing job was again) }
  | none => { s with work := Function.update s.work c (afterClear job again) }

/-- The delegate is cleared. -/
def zeroSlot (s : State) (c : Context) (job : Job) (was : ℕ) (again : Bool) : State :=
  { s with
    slots := writeSlot s.slots (px.handle job.proxy) job.key 0
    work := Function.update s.work c (.erasing job was again) }

/-- The id that was read is forgotten. -/
def eraseOwner (s : State) (c : Context) (job : Job) (was : ℕ) (again : Bool) : State :=
  { s with
    owners := Function.update s.owners was none
    work := Function.update s.work c (afterClear job again) }

/-- `bg3le_imgui_set_callback`, up to the write of the delegate. -/
def giveId (s : State) (c : Context) (job : Job) : State :=
  match slotOf px s job with
  | some _ =>
    -- the owner is entered before the delegate is written: it cannot fire without one
    { s with
      next := nextId s.next
      owners := Function.update s.owners (nextId s.next) (some job.state)
      work := Function.update s.work c (.storing job (nextId s.next))
      given := s.given + 1
      jobs := Function.update s.jobs (nextId s.next) (some job) }
  | none => { s with work := Function.update s.work c .idle }

/-- The next access of a context that is in the midst of an assignment. -/
def go (s : State) (c : Context) : State :=
  match s.work c with
  | .idle => s
  | .clearing job again => readSlot px s c job again
  | .zeroing job was again => zeroSlot px s c job was again
  | .erasing job was again => eraseOwner s c job was again
  | .setting job => giveId px s c job
  | .storing job id =>
    filed px { s with slots := writeSlot s.slots (px.handle job.proxy) job.key id } job id

/-- `Destroy`, up to the call that destroys the widget. -/
def destroy (s : State) (p : Proxy) : State :=
  let c := px.context p
  { s with callbacks := Function.update s.callbacks c fun id =>
      if id ∈ (s.registered p).map Prod.snd then none else s.callbacks c id }

/-- `DeferredLuaDelegateQueue::Call`: a delegate that is not set is not called. -/
def fire (s : State) (f : Fired) : State :=
  if f.id = 0 then s else { s with fired := s.fired ++ [f] }

/-- `delegate_post`: `start_event` and `finish_event`. -/
def post (s : State) (f : Fired) : State :=
  if f.id = 0 then s
  else match s.owners f.id with
    | none => s -- cleared since the widget fired
    | some l =>
      let e : Event := ⟨f.id, l, f.widget, f.arg, f.source⟩
      { s with
        queue := Mailbox.push maxQueued s.queue e
        sent := s.sent ++ [e]
        gone := s.gone ++ (Mailbox.evicted maxQueued s.queue).map fun old => ⟨old, none⟩ }

/-- `bg3le_imgui_take_event`, and what `imgui_pump` does with the event. -/
def take (s : State) (c : Context) (l : LuaState) (e : Event) : State :=
  { s with
    queue := Mailbox.rest Event.state l s.queue
    gone := s.gone ++ [⟨e, some (c, l)⟩]
    called := s.called ++ ((s.callbacks c e.id).map fun f => ⟨c, f, e, luaArg e.arg⟩).toList }

/-- A new widget: its delegates are not set. -/
def appear (s : State) (h : Handle) (names : List Bytes) : State :=
  { s with slots := Function.update s.slots h fun key => if names.contains key then some 0 else none }

def vanish (s : State) (h : Handle) : State :=
  { s with slots := Function.update s.slots h fun _ => none }

/-- The tables of a new Lua state are empty; the queue and the delegates stay as they are. -/
def restart (s : State) (c : Context) : State :=
  { s with
    callbacks := Function.update s.callbacks c fun _ => none
    work := Function.update s.work c .idle }

/-- One access of a thread. A context takes events and assigns functions one at a time; what a handler
does comes after the `take` that called it. -/
def step (s : State) : Action → Option State
  | .assign job => if s.work (px.context job.proxy) = .idle then some (assign px s job) else none
  | .go c => some (go px s c)
  | .destroy p => if s.work (px.context p) = .idle then some (destroy px s p) else none
  | .fire h key widget arg => (s.slots h key).map fun id => fire s ⟨id, widget, arg, (h, key)⟩
  | .flush =>
    match s.fired with
    | [] => none
    | f :: fs => some (post { s with fired := fs } f)
  | .take c l =>
    if s.work c = .idle then (Mailbox.first Event.state l s.queue).map (take s c l) else none
  | .appear h names => some (appear s h names)
  | .vanish h => some (vanish s h)
  | .restart c => some (restart s c)

end

def start : State where
  next := 0
  owners _ := none
  queue := []
  slots _ _ := none
  callbacks _ _ := none
  registered _ := []
  work _ := .idle
  fired := []
  given := 0
  jobs _ := none
  sent := []
  gone := []
  called := []

end Imgui
end Bg3le
