import Mathlib.Data.List.Nodup
import Bg3le.Net.Requests

/-!
# Which reply a handler gets
-/

namespace Bg3le
namespace Requests

variable {s s' : System} {side : Side} {c : Context} {m : Message} {id : ℕ}

/-! ### Sides -/

@[simp]
theorem Side.other_other (side : Side) : side.other.other = side := by cases side <;> rfl

/-- There are two sides. -/
theorem Side.eq_or_eq_other (a b : Side) : a = b ∨ a = b.other := by
  cases a <;> cases b <;> simp [Side.other]

@[simp]
theorem context_setContext_self (s : System) (side : Side) (c : Context) :
    (s.setContext side c).context side = c := by cases side <;> rfl

@[simp]
theorem context_setContext_other (s : System) (side : Side) (c : Context) :
    (s.setContext side c).context side.other = s.context side.other := by cases side <;> rfl

@[simp]
theorem queue_setContext (s : System) (side other : Side) (c : Context) :
    (s.setContext side c).queue other = s.queue other := by cases side <;> cases other <;> rfl

@[simp]
theorem calls_setContext (s : System) (side : Side) (c : Context) :
    (s.setContext side c).calls = s.calls := by cases side <;> rfl

@[simp]
theorem context_setQueue (s : System) (side other : Side) (queue : List Message) :
    (s.setQueue side queue).context other = s.context other := by
  cases side <;> cases other <;> rfl

@[simp]
theorem queue_setQueue_self (s : System) (side : Side) (queue : List Message) :
    (s.setQueue side queue).queue side = queue := by cases side <;> rfl

@[simp]
theorem queue_setQueue_other (s : System) (side : Side) (queue : List Message) :
    (s.setQueue side queue).queue side.other = s.queue side.other := by cases side <;> rfl

@[simp]
theorem calls_setQueue (s : System) (side : Side) (queue : List Message) :
    (s.setQueue side queue).calls = s.calls := by cases side <;> rfl

/-! ### Open requests -/

theorem lookup_cons (e : ℕ × Request) (requests : List (ℕ × Request)) :
    lookup id (e :: requests) = if e.1 = id then some e.2 else lookup id requests := by
  unfold lookup
  rw [List.find?_cons]
  by_cases h : e.1 = id <;> simp [h]

/-- A request that is found is there. -/
theorem mem_of_lookup {requests : List (ℕ × Request)} {r : Request}
    (h : lookup id requests = some r) : (id, r) ∈ requests := by
  unfold lookup at h
  obtain ⟨e, hfind, rfl⟩ := Option.map_eq_some_iff.mp h
  have hid : e.1 = id := by simpa using List.find?_some hfind
  rw [← hid]
  exact List.mem_of_find?_eq_some hfind

/-- One that was taken out is not found. -/
theorem lookup_filter_self (requests : List (ℕ × Request)) :
    lookup id (requests.filter fun e => e.1 ≠ id) = none := by
  unfold lookup
  rw [Option.map_eq_none_iff, List.find?_eq_none]
  intro e he
  simpa using (List.mem_filter.mp he).2

theorem lookup_filter_of_none {k : ℕ} {requests : List (ℕ × Request)} (p : ℕ × Request → Bool)
    (h : lookup k requests = none) : lookup k (requests.filter p) = none := by
  unfold lookup at h ⊢
  rw [Option.map_eq_none_iff, List.find?_eq_none] at h ⊢
  exact fun e he => h e (List.mem_of_mem_filter he)

/-! ### The numbers of a Lua state -/

/-- A message for a context, by whose request it is or replies to. -/
def Labelled (side : Side) : Message → Prop
  | .plain => True
  | .request id origin => origin.side = side.other ∧ id = origin.id ∧ id < 2 ^ 32
  | .reply id origin => origin.side = side ∧ id = origin.id ∧ id < 2 ^ 32

structure Held (side : Side) (c : Context) : Prop where
  entries : ∀ e ∈ c.requests, e.2 = { side, state := c.state, id := e.1 } ∧ e.1 < c.nextRequest
  bounded : c.nextRequest ≤ 2 ^ 32
  batch : ∀ m ∈ c.batch, Labelled side m
  received : ∀ e ∈ c.received, e.2.side = side.other ∧ e.1 = e.2.id ∧ e.1 < 2 ^ 32

/-- A handler that a context has called. -/
def Called (c : Context) (r : Request) : Prop :=
  r.state ≤ c.state ∧ (r.state = c.state → r.id < c.nextRequest ∧ lookup r.id c.requests = none)

structure Sound (s : System) : Prop where
  held : ∀ side, Held side (s.context side)
  queue : ∀ side, ∀ m ∈ s.queue side, Labelled side m
  called : ∀ c ∈ s.calls, Called (s.context c.handler.side) c.handler
  nodup : (s.calls.map Call.handler).Nodup

/-- A side may change that holds its own requests and forgets no call. -/
theorem Sound.setContext (h : Sound s) (hheld : Held side c)
    (hcalled : ∀ r, Called (s.context side) r → Called c r) : Sound (s.setContext side c) := by
  constructor
  · intro a
    obtain rfl | rfl := Side.eq_or_eq_other a side
    · rw [context_setContext_self]
      exact hheld
    · rw [context_setContext_other]
      exact h.held side.other
  · intro a
    rw [queue_setContext]
    exact h.queue a
  · rw [calls_setContext]
    intro call hcall
    have hbefore := h.called call hcall
    obtain hside | hside := Side.eq_or_eq_other call.handler.side side
    · rw [hside] at hbefore ⊢
      rw [context_setContext_self]
      exact hcalled _ hbefore
    · rw [hside] at hbefore ⊢
      rw [context_setContext_other]
      exact hbefore
  · rw [calls_setContext]
    exact h.nodup

/-- A queue may hold messages that are labelled for its side. -/
theorem Sound.setQueue (h : Sound s) {queue : List Message} (hqueue : ∀ m ∈ queue, Labelled side m) :
    Sound (s.setQueue side queue) := by
  constructor
  · intro a
    rw [context_setQueue]
    exact h.held a
  · intro a
    obtain rfl | rfl := Side.eq_or_eq_other a side
    · rw [queue_setQueue_self]
      exact hqueue
    · rw [queue_setQueue_other]
      exact h.queue side.other
  · rw [calls_setQueue]
    intro call hcall
    rw [context_setQueue]
    exact h.called call hcall
  · rw [calls_setQueue]
    exact h.nodup

/-- A message may be posted that is labelled for the other side. -/
theorem Sound.post (h : Sound s) {there : Bool} (hm : Labelled side.other m) :
    Sound (s.post side there m) := by
  unfold System.post
  split
  · apply h.setQueue
    intro m' hm'
    obtain hold | hnew := List.mem_append.mp hm'
    · exact h.queue _ m' hold
    · rw [List.mem_singleton.mp hnew]
      exact hm
  · exact h

theorem word_eq (h : id < 2 ^ 32) : word id = id := Nat.mod_eq_of_lt h

/-- A new request has an id that no other has. -/
theorem Sound.sendRequest {there : Bool} (h : Sound s)
    (hfew : (s.context side).nextRequest < 2 ^ 32) : Sound (sendRequest side there s) := by
  have hheld := h.held side
  unfold Requests.sendRequest
  simp only
  apply Sound.post
  · apply h.setContext
    · constructor
      · intro e he
        obtain rfl | hold := List.mem_cons.mp he
        · exact ⟨rfl, Nat.lt_succ_self _⟩
        · obtain ⟨hmade, hlt⟩ := hheld.entries e hold
          exact ⟨hmade, Nat.lt_succ_of_lt hlt⟩
      · exact hfew
      · exact hheld.batch
      · exact hheld.received
    · rintro r ⟨hstate, hid⟩
      refine ⟨hstate, fun heq => ?_⟩
      obtain ⟨hlt, hnone⟩ := hid heq
      refine ⟨Nat.lt_succ_of_lt hlt, ?_⟩
      rw [lookup_cons, if_neg (by simp only; omega)]
      exact hnone
  · rw [word_eq hfew]
    exact ⟨(Side.other_other side).symm, rfl, hfew⟩

/-- The reply that meets an open request calls its handler, which has not been called before. -/
theorem Sound.call {handler : Request} (h : Sound s)
    (hopen : lookup id (s.context side).requests = some handler) :
    handler = { side, state := (s.context side).state, id } ∧
      handler ∉ s.calls.map Call.handler := by
  obtain ⟨hmade, _⟩ := (h.held side).entries _ (mem_of_lookup hopen)
  simp only at hmade
  refine ⟨hmade, fun hmem => ?_⟩
  obtain ⟨call, hcall, heq⟩ := List.mem_map.mp hmem
  have hcalled := h.called call hcall
  rw [heq, hmade] at hcalled
  have hnone := (hcalled.2 rfl).2
  rw [hopen] at hnone
  exact absurd hnone (by simp)

/-- A message that is received answers its own request. -/
theorem Sound.receive {rest : List Message} (h : Sound s)
    (hbatch : (s.context side).batch = m :: rest) : Sound (receive side m rest s) := by
  have hheld := h.held side
  have hlabelled : Labelled side m := hheld.batch m (by rw [hbatch]; exact List.mem_cons_self)
  have hrest : ∀ m' ∈ rest, Labelled side m' :=
    fun m' hm' => hheld.batch m' (by rw [hbatch]; exact List.mem_cons_of_mem _ hm')
  have hleft : Held side { s.context side with batch := rest } :=
    ⟨hheld.entries, hheld.bounded, hrest, hheld.received⟩
  unfold Requests.receive
  cases m with
  | plain => exact h.setContext hleft fun _ hr => hr
  | request id origin =>
    refine h.setContext ⟨hheld.entries, hheld.bounded, hrest, ?_⟩ fun _ hr => hr
    intro e he
    obtain hold | hnew := List.mem_append.mp he
    · exact hheld.received e hold
    · rw [List.mem_singleton.mp hnew]
      exact hlabelled
  | reply id origin =>
    simp only
    by_cases hzero : id = 0
    · rw [if_pos hzero]
      exact h.setContext hleft fun _ hr => hr
    · rw [if_neg hzero]
      cases hopen : lookup id (s.context side).requests with
      | none => exact h.setContext hleft fun _ hr => hr
      | some handler =>
        -- an open request was made by this context, and its handler has not been called
        obtain ⟨hmade, hfresh⟩ := h.call hopen
        obtain ⟨_, hlt⟩ := hheld.entries _ (mem_of_lookup hopen)
        have hset := h.setContext
          (c := { s.context side with
            batch := rest, requests := (s.context side).requests.filter fun e => e.1 ≠ id })
          ⟨fun e he => hheld.entries e (List.mem_of_mem_filter he), hheld.bounded, hrest,
            hheld.received⟩
          fun r hr => ⟨hr.1, fun heq =>
            ⟨(hr.2 heq).1, lookup_filter_of_none _ (hr.2 heq).2⟩⟩
        constructor
        · exact hset.held
        · exact hset.queue
        · intro call hcall
          obtain hold | hnew := List.mem_append.mp hcall
          · exact hset.called call (by rw [calls_setContext]; exact hold)
          · rw [List.mem_singleton.mp hnew]
            simp only [hmade]
            show Called ((s.setContext side _).context side) _
            rw [context_setContext_self]
            exact ⟨Nat.le_refl _, fun _ => ⟨hlt, lookup_filter_self _⟩⟩
        · show ((s.calls ++ [_]).map Call.handler).Nodup
          rw [List.map_append, List.nodup_append]
          refine ⟨h.nodup, List.nodup_singleton _, ?_⟩
          intro a ha b hb
          obtain rfl := List.mem_singleton.mp hb
          rintro rfl
          exact hfresh ha

/-- A side that begins again holds no requests. -/
theorem Held.rebuilt : Held side c.rebuilt := by
  constructor
  · exact fun e he => absurd he List.not_mem_nil
  · show 1 ≤ 2 ^ 32
    omega
  · exact fun m hm => absurd hm List.not_mem_nil
  · exact fun e he => absurd he List.not_mem_nil

/-- What was called stays so. -/
theorem Called.rebuilt {r : Request} (h : Called c r) : Called c.rebuilt r := by
  obtain ⟨hle, _⟩ := h
  refine ⟨Nat.le_succ_of_le hle, fun heq => ?_⟩
  have heq' : r.state = c.state + 1 := heq
  omega

/-- Every step keeps requests and replies together. -/
theorem Sound.step {a : Action} (h : Sound s) (hfew : Few s a) (hstep : step s a = some s') :
    Sound s' := by
  cases a with
  | post side there =>
    obtain rfl := Option.some.inj hstep
    exact h.post trivial
  | request side there =>
    obtain rfl := Option.some.inj hstep
    exact h.sendRequest hfew
  -- a reply carries the id of a request that was received, below `2 ^ 32`
  | reply side i there =>
    obtain ⟨e, he, rfl⟩ := Option.map_eq_some_iff.mp hstep
    obtain ⟨hside, hid, hlt⟩ := (h.held side).received e (List.mem_of_getElem? he)
    apply h.post
    rw [word_eq hlt]
    exact ⟨hside, hid, hlt⟩
  | take side =>
    simp only [Requests.step, Option.ite_none_right_eq_some, Option.some.injEq] at hstep
    obtain ⟨_, rfl⟩ := hstep
    have hheld := h.held side
    apply Sound.setQueue
    · exact h.setContext ⟨hheld.entries, hheld.bounded, h.queue side, hheld.received⟩ fun _ hr => hr
    · exact fun m hm => absurd hm List.not_mem_nil
  | handle side =>
    cases hbatch : (s.context side).batch with
    | nil => simp [Requests.step, hbatch] at hstep
    | cons m rest =>
      simp only [Requests.step, hbatch, Option.some.injEq] at hstep
      rw [← hstep]
      exact h.receive hbatch
  | abandon side =>
    obtain rfl := Option.some.inj hstep
    have hheld := h.held side
    exact h.setContext ⟨hheld.entries, hheld.bounded, fun m hm => absurd hm List.not_mem_nil,
      hheld.received⟩ fun _ hr => hr
  -- both contexts start anew, and what is still under way stays as it was
  | reset =>
    obtain rfl := Option.some.inj hstep
    have hserver : Sound (s.setContext .server s.server.rebuilt) :=
      h.setContext Held.rebuilt fun _ hr => hr.rebuilt
    have hclient : Held .client s.client.rebuilt := Held.rebuilt
    exact hserver.setContext hclient fun _ hr => hr.rebuilt
  | resetClient =>
    obtain rfl := Option.some.inj hstep
    have hclient : Held .client s.client.rebuilt := Held.rebuilt
    exact h.setContext hclient fun _ hr => hr.rebuilt

/-! ### Runs -/

/-- If all calls were right, the earlier ones were. -/
theorem System.Right.of_append {t : System} {calls : List Call} (h : t.Right)
    (hcalls : t.calls = s.calls ++ calls) : s.Right := by
  obtain ⟨hnodup, hright⟩ := h
  rw [hcalls] at hnodup hright
  rw [List.map_append] at hnodup
  exact ⟨hnodup.of_append_left, fun c hc => hright c (List.mem_append_left _ hc)⟩

theorem calls_post {there : Bool} : (s.post side there m).calls = s.calls := by
  unfold System.post
  split
  · exact calls_setQueue _ _ _
  · rfl

/-- What a step adds to the calls: that of the handler whose number a reply has. -/
theorem calls_step {a : Action} (hstep : step s a = some s') :
    (s'.calls = s.calls ∧ ∀ side id origin rest, a = .handle side →
        (s.context side).batch = .reply id origin :: rest → id ≠ 0 →
          lookup id (s.context side).requests = none) ∨
      ∃ side id origin rest handler, a = .handle side ∧
        (s.context side).batch = .reply id origin :: rest ∧ id ≠ 0 ∧
        lookup id (s.context side).requests = some handler ∧
        s'.calls = s.calls ++ [{ handler, reply := origin }] := by
  cases a with
  | post side there =>
    obtain rfl := Option.some.inj hstep
    exact .inl ⟨calls_post, fun _ _ _ _ h => absurd h (by simp)⟩
  | request side there =>
    obtain rfl := Option.some.inj hstep
    refine .inl ⟨?_, fun _ _ _ _ h => absurd h (by simp)⟩
    unfold sendRequest
    simp only [calls_post, calls_setContext]
  | reply side i there =>
    obtain ⟨e, _, rfl⟩ := Option.map_eq_some_iff.mp hstep
    exact .inl ⟨calls_post, fun _ _ _ _ h => absurd h (by simp)⟩
  | take side =>
    simp only [step, Option.ite_none_right_eq_some, Option.some.injEq] at hstep
    obtain ⟨_, rfl⟩ := hstep
    exact .inl ⟨by simp, fun _ _ _ _ h => absurd h (by simp)⟩
  | handle side =>
    cases hbatch : (s.context side).batch with
    | nil => simp [step, hbatch] at hstep
    | cons m rest =>
      simp only [step, hbatch, Option.some.injEq] at hstep
      subst hstep
      unfold receive
      cases m with
      | plain =>
        refine .inl ⟨calls_setContext _ _ _, fun side' id origin rest' h hb => ?_⟩
        obtain rfl := Action.handle.inj h
        rw [hbatch] at hb
        exact absurd hb (by simp)
      | request id origin =>
        refine .inl ⟨calls_setContext _ _ _, fun side' id origin rest' h hb => ?_⟩
        obtain rfl := Action.handle.inj h
        rw [hbatch] at hb
        exact absurd hb (by simp)
      | reply id origin =>
        simp only
        by_cases hzero : id = 0
        · rw [if_pos hzero]
          -- a reply to no request is dropped
          refine .inl ⟨calls_setContext _ _ _, fun side' id' origin' rest' h hb hne => ?_⟩
          obtain rfl := Action.handle.inj h
          rw [hbatch] at hb
          simp only [List.cons.injEq, Message.reply.injEq] at hb
          exact absurd (hb.1.1.symm.trans hzero) hne
        · rw [if_neg hzero]
          cases hopen : lookup id (s.context side).requests with
          | none =>
            refine .inl ⟨calls_setContext _ _ _, fun side' id' origin' rest' h hb _ => ?_⟩
            obtain rfl := Action.handle.inj h
            rw [hbatch] at hb
            simp only [List.cons.injEq, Message.reply.injEq] at hb
            rw [← hb.1.1]
            exact hopen
          -- the one case in which a handler is called
          | some handler => exact .inr ⟨side, id, origin, rest, handler, rfl, hbatch, hzero, hopen, rfl⟩
  | abandon side =>
    obtain rfl := Option.some.inj hstep
    exact .inl ⟨calls_setContext _ _ _, fun _ _ _ _ h => absurd h (by simp)⟩
  | reset =>
    obtain rfl := Option.some.inj hstep
    exact .inl ⟨rfl, fun _ _ _ _ h => absurd h (by simp)⟩
  | resetClient =>
    obtain rfl := Option.some.inj hstep
    exact .inl ⟨rfl, fun _ _ _ _ h => absurd h (by simp)⟩

/-- The calls are right after a step exactly when they were before it and the step is fresh. -/
theorem right_step {a : Action} (h : Sound s) (hstep : step s a = some s') (hs' : Sound s') :
    s'.Right ↔ s.Right ∧ Fresh s a := by
  obtain ⟨hcalls, hnone⟩ | ⟨side, id, origin, rest, handler, rfl, hbatch, hzero, hopen,
    hcalls⟩ := calls_step hstep
  · have hfresh : Fresh s a := by
      cases a with
      | handle side =>
        intro id origin rest hbatch hid hsome
        rw [hnone side id origin rest rfl hbatch hid] at hsome
        exact absurd hsome (by simp)
      | _ => trivial
    unfold System.Right
    rw [hcalls]
    exact (and_iff_left hfresh).symm
  · obtain ⟨hmade, _⟩ := h.call hopen
    have hlabelled : Labelled side (.reply id origin) :=
      (h.held side).batch _ (by rw [hbatch]; exact List.mem_cons_self)
    constructor
    · intro hright
      refine ⟨hright.of_append hcalls, fun id' origin' rest' hbatch' _ _ => ?_⟩
      have horigin : origin = handler :=
        hright.2 { handler, reply := origin }
          (by rw [hcalls]; exact List.mem_append_right _ List.mem_cons_self)
      rw [hbatch] at hbatch'
      simp only [List.cons.injEq, Message.reply.injEq] at hbatch'
      rw [← hbatch'.1.2, horigin, hmade]
    · rintro ⟨hright, hfresh⟩
      refine ⟨hs'.nodup, fun c hc => ?_⟩
      rw [hcalls] at hc
      obtain hold | hnew := List.mem_append.mp hc
      · exact hright.2 c hold
      · obtain ⟨hside, hid, _⟩ := hlabelled
        have hstate := hfresh id origin rest hbatch hzero (by rw [hopen]; rfl)
        rw [List.mem_singleton.mp hnew, hmade]
        cases origin with
        | mk a b k =>
          simp only at hside hid hstate ⊢
          rw [hside, hid, hstate]

/-- A process in which nothing has been sent. -/
theorem sound_start : Sound {} := by
  have hheld : ∀ side, Held side {} := by
    intro side
    constructor
    · exact fun e he => absurd he List.not_mem_nil
    · show 1 ≤ 2 ^ 32
      omega
    · exact fun m hm => absurd hm List.not_mem_nil
    · exact fun e he => absurd he List.not_mem_nil
  constructor
  · intro side
    cases side <;> exact hheld _
  · intro side
    cases side <;> exact fun m hm => absurd hm List.not_mem_nil
  · exact fun c hc => absurd hc List.not_mem_nil
  · exact List.nodup_nil

/-- Requests and replies are together along every run of few requests. -/
theorem numbered_of_run {as : List Action} (h : Run step Few {} as s) : Sound s :=
  h.invariant sound_start fun _ _ _ hsound hfew hstep => hsound.step hfew hstep

/-- In any run, every handler was called at most once and with the reply to its own request,
exactly when no step handled a reply of an earlier Lua state under the number of an open
request. -/
theorem right_iff_of_run {as : List Action} (h : Run step Few {} as s) :
    s.Right ↔ Run step (fun s a => Few s a ∧ Fresh s a) {} as s := by
  constructor
  · induction h with
    | refl => exact fun _ => .refl _
    | step hrun hfew hstep ih =>
      have hsound := numbered_of_run hrun
      intro hright
      obtain ⟨hbefore, hfresh⟩ := (right_step hsound hstep (hsound.step hfew hstep)).mp hright
      exact .step (ih hbefore) ⟨hfew, hfresh⟩ hstep
  · intro hfresh
    have hboth : Sound s ∧ s.Right := by
      apply hfresh.invariant (I := fun s => Sound s ∧ s.Right)
      · exact ⟨sound_start, List.nodup_nil, fun c hc => absurd hc List.not_mem_nil⟩
      · rintro t a u ⟨hsound, hright⟩ ⟨hfew, hfresh⟩ hstep
        have hsound' := hsound.step hfew hstep
        exact ⟨hsound', (right_step hsound hstep hsound').mpr ⟨hright, hfresh⟩⟩
    exact hboth.2

/-! ### Two runs -/

/-- A request of the client, and the reply of the server to it. -/
def demoAnswered : List Action :=
  [.request .client true, .take .server, .handle .server, .reply .server 0 true]

/-- The client drains its queue. -/
def demoDrained : List Action := [.take .client, .handle .client]

instance (s : System) (a : Action) : Decidable (Few s a) := by
  cases a <;> unfold Few <;> infer_instance

/-- A request that is answered, with its reply received. -/
theorem right_iff_of_run_demo : ∃ s, Run step Few {} (demoAnswered ++ demoDrained) s ∧
    s.calls.length = 1 ∧ (s.Right ↔ Run step (fun s a => Few s a ∧ Fresh s a) {}
      (demoAnswered ++ demoDrained) s) := by
  obtain ⟨s, hrun, hcalls⟩ : ∃ s, Run step Few {} (demoAnswered ++ demoDrained) s ∧
      (s.calls.length == 1) = true := Run.exists_of_follow _ _ _ _ _ (by decide +kernel)
  exact ⟨s, hrun, by simpa using hcalls, right_iff_of_run hrun⟩

/-- The client is rebuilt before it drains the reply, and sends a request of its own. -/
theorem reset_misleads_reply : ¬ ∀ (as : List Action) (s : System), Run step Few {} as s →
    s.Right := by
  intro h
  obtain ⟨s, hrun, hcalls⟩ : ∃ s, Run step Few {}
      (demoAnswered ++ [.resetClient, .request .client true] ++ demoDrained) s ∧
      s.calls.any (fun c => c.reply ≠ c.handler) = true :=
    Run.exists_of_follow _ _ _ _ _ (by decide +kernel)
  obtain ⟨c, hc, hne⟩ := List.any_eq_true.mp hcalls
  exact of_decide_eq_true hne ((h _ s hrun).2 c hc)

end Requests
end Bg3le
