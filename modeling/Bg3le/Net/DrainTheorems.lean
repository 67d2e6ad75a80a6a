import Bg3le.Net.Drain

/-!
# When a tick's messages are all handled
-/

namespace Bg3le
namespace Drain

open Lua

variable {σ H E : Type} {mods : Mods σ H E} {m : Message} {s s' : State σ H}

/-! ### Ends of a function -/

theorem Done.bind_eq_returns {α β : Type} {d : Done α} {f : α → Done β} {b : β} :
    d.bind f = .returns b ↔ ∃ a, d = .returns a ∧ f a = .returns b := by
  cases d <;> simp [Done.bind]

theorem Done.ofOption_eq_returns {α : Type} {o : Option α} {a : α} :
    Done.ofOption o = .returns a ↔ o = some a := by
  cases o <;> simp [Done.ofOption]

/-! ### One call -/

/-- What a handler raises, if it does, can be printed. -/
def Tells (mods : Mods σ H E) (handler : H) (args : Args) (s : State σ H) : Prop :=
  ∀ e, (mods.run handler args s).result = .error e → mods.printable e = true

/-- A report returns exactly when the handler's failure can be told. -/
theorem report_eq_returns {handler : H} {args : Args} :
    report mods (mods.run handler args s) = .returns s' ↔
      Tells mods handler args s ∧ s' = (mods.run handler args s).state := by
  unfold report Tells
  cases hresult : (mods.run handler args s).result with
  | ok value =>
    simp only [Done.returns.injEq, reduceCtorEq, false_implies, implies_true, true_and]
    exact eq_comm
  | error e =>
    simp only [Except.error.injEq, forall_eq']
    by_cases h : mods.printable e = true
    · rw [if_pos h, Done.returns.injEq]
      simp only [h, true_and]
      exact eq_comm
    · simp [h]

/-- A message for a channel: its payload can be parsed, and the reply serialised. -/
def ChannelSafe (mods : Mods σ H E) (c : NetChannel H) (m : Message) (s : State σ H) : Prop :=
  ∃ request, mods.parse m.payload m.binary = some request ∧
    if m.requestId ≠ 0 then
      ∀ handler, c.requestHandler = some handler →
        Tells mods handler (.message request m.user) s ∧
          ∀ value, (mods.run handler (.message request m.user) s).result = .ok value →
            (mods.stringify value mods.isBinary).isSome = true
    else
      ∀ handler, c.messageHandler = some handler → Tells mods handler (.message request m.user) s

/-- A channel's handler returns exactly when it and its reply are safe. -/
theorem onMessage_returns_iff {c : NetChannel H} :
    (∃ s', onMessage mods c m s = .returns s') ↔ ChannelSafe mods c m s := by
  unfold onMessage ChannelSafe
  cases hparse : mods.parse m.payload m.binary with
  | none => simp
  | some request =>
    simp only [Option.some.injEq, exists_eq_left']
    by_cases hrequest : m.requestId ≠ 0
    · rw [if_pos hrequest, if_pos hrequest]
      cases hhandler : c.requestHandler with
      | none => simp
      | some handler =>
        simp only [Option.some.injEq, forall_eq']
        cases hresult : (mods.run handler (.message request m.user) s).result with
        | ok value =>
          have htells : Tells mods handler (.message request m.user) s := by
            intro e he
            rw [hresult] at he
            exact absurd he (by simp)
          simp only [htells, true_and, Except.ok.injEq, forall_eq']
          cases mods.stringify value mods.isBinary <;> simp
        | error e =>
          simp only [report_eq_returns, exists_and_left, exists_eq, and_true, reduceCtorEq,
            false_implies, implies_true]
    · rw [if_neg hrequest, if_neg hrequest]
      cases hhandler : c.messageHandler with
      | none => simp
      | some handler =>
        simp only [report_eq_returns, exists_and_left, exists_eq, and_true, Option.some.injEq,
          forall_eq']

/-- A request is answered at most once: after its handler, under its own id, and if it fits. -/
theorem sent_of_onMessage {c : NetChannel H} {handler : H} (hrequest : m.requestId ≠ 0)
    (hhandler : c.requestHandler = some handler) (h : onMessage mods c m s = .returns s') :
    ∃ request, mods.parse m.payload m.binary = some request ∧
      let called := (mods.run handler (.message request m.user) s).state
      s'.sent = called.sent ∨ ∃ text, text.length < kMaxPayload ∧
        s'.sent = called.sent ++ [reply m text mods.isBinary] := by
  unfold onMessage at h
  cases hparse : mods.parse m.payload m.binary with
  | none => simp [hparse] at h
  | some request =>
    refine ⟨request, rfl, ?_⟩
    simp only [hparse, if_pos hrequest, hhandler] at h
    cases hresult : (mods.run handler (.message request m.user) s).result with
    | error e =>
      simp only [hresult] at h
      obtain ⟨_, rfl⟩ := report_eq_returns.mp h
      exact Or.inl rfl
    | ok value =>
      simp only [hresult] at h
      cases htext : mods.stringify value mods.isBinary with
      | none => simp [htext] at h
      | some text =>
        simp only [htext, Done.returns.injEq] at h
        subst h
        unfold State.post
        split
        · next hposts =>
          rw [Bool.and_eq_true] at hposts
          exact Or.inr ⟨text, of_decide_eq_true hposts.1, rfl⟩
        · exact Or.inl rfl

/-- A message to a channel returns exactly when the channel it finds is safe. -/
theorem netChannelMessage_returns_iff {module : Bytes} :
    (∃ s', netChannelMessage mods module m s = .returns s') ↔
      ∀ c, s.channel module m.channel = some c → ChannelSafe mods c m s := by
  unfold netChannelMessage
  cases s.channel module m.channel with
  | none => simp
  | some c => simp [onMessage_returns_iff]

/-! ### The calls of a loop -/

/-- The state before the call of a listener, from the one at `i` on. -/
def turns (mods : Mods σ H E) (m : Message) : ℕ → ℕ → State σ H → State σ H
  | _, 0, s => s
  | i, k + 1, s =>
    match s.listener m.channel i with
    | none => s
    | some handler =>
      turns mods m (i + 1) k (mods.run handler (.listener m.channel m.payload m.user) s).state

/-- The listeners of a channel come to an end, and what they raise can be printed. -/
def ListenersSafe (mods : Mods σ H E) (m : Message) (i : ℕ) (s : State σ H) : Prop :=
  (∃ k, (turns mods m i k s).listener m.channel (i + k) = none) ∧
    ∀ k handler, (turns mods m i k s).listener m.channel (i + k) = some handler →
      Tells mods handler (.listener m.channel m.payload m.user) (turns mods m i k s)

/-- Past the last listener there is none. -/
theorem listener_of_le {i j : ℕ} {channel : Bytes} (h : s.listener channel i = none) (hij : i ≤ j) :
    s.listener channel j = none := by
  unfold State.listener at h ⊢
  rw [List.getElem?_eq_none_iff] at h ⊢
  omega

/-- Past the last listener no turn changes the state. -/
theorem turns_of_none {i : ℕ} (h : s.listener m.channel i = none) (k : ℕ) :
    turns mods m i k s = s := by
  cases k with
  | zero => rfl
  | succ k => simp [turns, h]

/-- One turn runs the listener and leaves the rest to the turns after it. -/
theorem turns_succ {i : ℕ} {handler : H} (h : s.listener m.channel i = some handler) (k : ℕ) :
    turns mods m i (k + 1) s = turns mods m (i + 1) k
      (mods.run handler (.listener m.channel m.payload m.user) s).state := by
  simp [turns, h]

/-- One more listener. -/
theorem listenersSafe_succ {i : ℕ} {handler : H} (h : s.listener m.channel i = some handler) :
    ListenersSafe mods m i s ↔ Tells mods handler (.listener m.channel m.payload m.user) s ∧
      ListenersSafe mods m (i + 1)
        (mods.run handler (.listener m.channel m.payload m.user) s).state := by
  unfold ListenersSafe
  have hshift : ∀ k, i + (k + 1) = i + 1 + k := fun k => by omega
  constructor
  · rintro ⟨⟨k, hk⟩, htells⟩
    refine ⟨htells 0 handler h, ⟨?_, fun k handler' hk => ?_⟩⟩
    · cases k with
      | zero => exact absurd (h.symm.trans hk) (by simp)
      | succ k =>
        rw [turns_succ h, hshift k] at hk
        exact ⟨k, hk⟩
    · have hsucc := htells (k + 1) handler'
      rw [turns_succ h, hshift k] at hsucc
      exact hsucc hk
  · rintro ⟨hfirst, ⟨k, hk⟩, htells⟩
    refine ⟨⟨k + 1, ?_⟩, fun k handler' hk => ?_⟩
    · rw [turns_succ h, hshift k]
      exact hk
    · cases k with
      | zero =>
        obtain rfl := Option.some.inj (h.symm.trans hk)
        exact hfirst
      | succ k =>
        rw [turns_succ h, hshift k] at hk
        rw [turns_succ h]
        exact htells k handler' hk

/-- A listener runs, is reported, and the next one follows. -/
theorem fireNetMessage_some {fuel i : ℕ} {handler : H}
    (h : s.listener m.channel i = some handler) : fireNetMessage mods m (fuel + 1) i s =
      (report mods (mods.run handler (.listener m.channel m.payload m.user) s)).bind
        (fireNetMessage mods m fuel (i + 1)) := by
  rw [fireNetMessage]
  simp only [h]

/-- Past the last listener the fire returns. -/
theorem fireNetMessage_none {fuel i : ℕ} (h : s.listener m.channel i = none) :
    fireNetMessage mods m fuel i s = .returns s := by
  rw [fireNetMessage]
  simp only [h]

/-- A fire that returns ran safe listeners only; the induction is on the fuel. -/
theorem listenersSafe_of_returns {fuel i : ℕ} (h : fireNetMessage mods m fuel i s = .returns s') :
    ListenersSafe mods m i s := by
  induction fuel generalizing i s with
  | zero =>
    cases hlistener : s.listener m.channel i with
    | none =>
      refine ⟨⟨0, hlistener⟩, fun k handler hk => ?_⟩
      rw [turns_of_none hlistener, listener_of_le hlistener (by omega)] at hk
      exact absurd hk (by simp)
    | some handler =>
      rw [fireNetMessage] at h
      simp [hlistener] at h
  | succ fuel ih =>
    cases hlistener : s.listener m.channel i with
    | none =>
      refine ⟨⟨0, hlistener⟩, fun k handler hk => ?_⟩
      rw [turns_of_none hlistener, listener_of_le hlistener (by omega)] at hk
      exact absurd hk (by simp)
    | some handler =>
      rw [fireNetMessage_some hlistener] at h
      obtain ⟨s₁, hreport, hrest⟩ := Done.bind_eq_returns.mp h
      obtain ⟨htells, rfl⟩ := report_eq_returns.mp hreport
      exact (listenersSafe_succ hlistener).mpr ⟨htells, ih hrest⟩

/-- Safe listeners return with enough fuel; the induction is on the turns. -/
theorem returns_of_listenersSafe {i : ℕ} (h : ListenersSafe mods m i s) :
    ∃ fuel s', fireNetMessage mods m fuel i s = .returns s' := by
  obtain ⟨⟨k, hk⟩, htells⟩ := h
  induction k generalizing i s with
  | zero => exact ⟨0, s, fireNetMessage_none hk⟩
  | succ k ih =>
    cases hlistener : s.listener m.channel i with
    | none => exact ⟨0, s, fireNetMessage_none hlistener⟩
    | some handler =>
      obtain ⟨hfirst, _, hrest⟩ := (listenersSafe_succ hlistener).mp ⟨⟨k + 1, hk⟩, htells⟩
      rw [turns_succ hlistener, show i + (k + 1) = i + 1 + k by omega] at hk
      obtain ⟨fuel, s', hfire⟩ := ih hrest hk
      refine ⟨fuel + 1, s', ?_⟩
      rw [fireNetMessage_some hlistener]
      exact Done.bind_eq_returns.mpr ⟨_, report_eq_returns.mpr ⟨hfirst, rfl⟩, hfire⟩

theorem fireNetMessage_returns_iff {i : ℕ} :
    (∃ fuel s', fireNetMessage mods m fuel i s = .returns s') ↔ ListenersSafe mods m i s :=
  ⟨fun ⟨_, _, h⟩ => listenersSafe_of_returns h, returns_of_listenersSafe⟩

/-- More calls change nothing once it is through. -/
theorem fireNetMessage_mono {fuel fuel' i : ℕ} (h : fireNetMessage mods m fuel i s = .returns s')
    (hle : fuel ≤ fuel') : fireNetMessage mods m fuel' i s = .returns s' := by
  induction fuel generalizing fuel' i s with
  | zero =>
    cases hlistener : s.listener m.channel i with
    | none =>
      rw [fireNetMessage_none hlistener] at h ⊢
      exact h
    | some handler =>
      rw [fireNetMessage] at h
      simp [hlistener] at h
  | succ fuel ih =>
    obtain ⟨fuel', rfl⟩ : ∃ k, fuel' = k + 1 := ⟨fuel' - 1, by omega⟩
    cases hlistener : s.listener m.channel i with
    | none =>
      rw [fireNetMessage_none hlistener] at h ⊢
      exact h
    | some handler =>
      rw [fireNetMessage_some hlistener] at h ⊢
      obtain ⟨s₁, hreport, hrest⟩ := Done.bind_eq_returns.mp h
      exact Done.bind_eq_returns.mpr ⟨s₁, hreport, ih hrest (by omega)⟩

/-- What the subscribers of an event raise until one stops it can be printed. -/
def EventSafe (mods : Mods σ H E) (event : EventName) (m : Message) :
    List (Subscriber H) → State σ H → Prop
  | [], _ => True
  | sub :: rest, s =>
    Tells mods sub.handler (.event m) s ∧
      ((mods.run sub.handler (.event m) s).stopped = false →
        let s := (mods.run sub.handler (.event m) s).state
        EventSafe mods event m rest (if sub.once then s.unsubscribe event sub.index else s))

/-- A throw returns exactly when each subscriber's failure can be told. -/
theorem throw_returns_iff {event : EventName} {subs : List (Subscriber H)} :
    (∃ s', throw mods event m subs s = .returns s') ↔ EventSafe mods event m subs s := by
  induction subs generalizing s with
  | nil => simp [throw, EventSafe]
  | cons sub rest ih =>
    unfold throw EventSafe
    simp only [Done.bind_eq_returns, report_eq_returns]
    cases hstopped : (mods.run sub.handler (.event m) s).stopped with
    | true => simp
    | false =>
      simp only [Bool.false_eq_true, if_false, true_implies]
      rw [← ih]
      constructor
      · rintro ⟨s', _, ⟨htells, rfl⟩, hthrow⟩
        exact ⟨htells, s', hthrow⟩
      · rintro ⟨htells, s', hthrow⟩
        exact ⟨s', _, ⟨htells, rfl⟩, hthrow⟩

/-! ### Payloads of variables -/

/-- Boxes by key, as `flush` sends them. -/
def boxed : Value → Bool
  | .table boxes => boxes.toList.all fun e => (e.2.index (bytes "V")).isSome
  | _ => false

/-- Boxes by owner and key, if anything. -/
def owned (owners : Value) : Bool :=
  !owners.truthy || match owners with
    | .table entries => entries.toList.all fun e => boxed e.2
    | _ => false

/-- What can be parsed is no table, or has the shape of a payload. -/
def Shaped : Option Value → Bool
  | some (.table data) =>
    owned (data.get (.string (bytes "Mod"))) && owned (data.get (.string (bytes "User")))
  | _ => true

theorem isSome_foldlM {α β : Type} {f : β → α → Option β} {p : α → Bool}
    (h : ∀ b a, (f b a).isSome = p a) (l : List α) (b : β) : (l.foldlM f b).isSome = l.all p := by
  induction l generalizing b with
  | nil => rfl
  | cons a rest ih =>
    rw [List.foldlM_cons, List.all_cons, ← h b a]
    cases f b a with
    | none => rfl
    | some b' => exact ih b'

/-- Owners apply exactly when each is a table of the owner's own kind. -/
theorem isSome_applyOwners (mod : Bool) (owners : Value) (c : Vars.Context) :
    (applyOwners mod owners c).isSome = owned owners := by
  unfold applyOwners owned
  cases htruthy : owners.truthy with
  | false => rfl
  | true =>
    simp only [Bool.true_eq_false, if_false, Bool.not_true, Bool.false_or]
    cases owners with
    | table entries =>
      apply isSome_foldlM
      intro c e
      unfold boxed
      cases e.2 with
      | table boxes =>
        apply isSome_foldlM
        intro c e
        exact Option.isSome_map
      | _ => rfl
    | _ => rfl

/-- A sync of variables returns exactly when its payload has the shape expected. -/
theorem applyVarSync_returns_iff {payload : Option Bytes} :
    (∃ s', applyVarSync mods payload s = .returns s') ↔ Shaped (mods.parse payload false) = true := by
  unfold applyVarSync Shaped
  cases mods.parse payload false with
  | none => simp
  | some value =>
    cases value with
    | table data =>
      simp only [Done.ofOption_eq_returns]
      rw [← Option.isSome_iff_exists, Option.isSome_map, Bool.and_eq_true,
        ← isSome_applyOwners true _ s.vars]
      cases applyOwners true (data.get (.string (bytes "Mod"))) s.vars with
      | none => simp
      | some c => simp [isSome_applyOwners]
    | _ => simp

/-! ### One message -/

/-- A message that keeps to itself, in the state it finds. -/
def Harmless (mods : Mods σ H E) (m : Message) (s : State σ H) : Prop :=
  match m.kind with
  | .vars | .reset => True
  | .post =>
    if m.channel = kVarChannel then Shaped (mods.parse m.payload false) = true
    else if m.replyId ≠ 0 then
      ∀ callback, Vars.find m.replyId s.requests = some callback →
        Tells mods callback (.reply m.payload m.binary)
          { s with requests := s.requests.filter fun e => e.1 ≠ m.replyId }
    else
      match m.module with
      | none =>
        if m.requestId = 0 then
          ListenersSafe mods m 0 s ∧ ∀ fuel s', fireNetMessage mods m fuel 0 s = .returns s' →
            EventSafe mods .netMessage m (s'.subscribers .netMessage) s'
        else EventSafe mods .netModMessage m (s.subscribers .netModMessage) s
      | some module =>
        (∀ c, s.channel module m.channel = some c → ChannelSafe mods c m s) ∧
          ∀ s', netChannelMessage mods module m s = .returns s' →
            EventSafe mods .netModMessage m (s'.subscribers .netModMessage) s'

/-- Handling a message returns, with enough fuel, exactly when it is harmless. -/
theorem handle_returns_iff :
    (∃ fuel s', handle mods fuel m s = .returns s') ↔ Harmless mods m s := by
  unfold handle Harmless
  cases m.kind with
  | vars => simp
  | reset => simp
  | post =>
    simp only
    by_cases hvars : m.channel = kVarChannel
    · simp only [if_pos hvars, exists_const]
      exact applyVarSync_returns_iff
    · simp only [if_neg hvars]
      unfold netReceive
      by_cases hreply : m.replyId ≠ 0
      · simp only [if_pos hreply]
        cases Vars.find m.replyId s.requests with
        | none => simp
        | some callback => simp [report_eq_returns]
      · simp only [if_neg hreply]
        cases m.module with
        | none =>
          simp only
          by_cases hlegacy : m.requestId = 0
          · simp only [if_pos hlegacy, Done.bind_eq_returns]
            constructor
            · rintro ⟨fuel, s', s₁, hfire, hevent⟩
              refine ⟨fireNetMessage_returns_iff.mp ⟨fuel, s₁, hfire⟩, fun fuel' s₂ hfire' => ?_⟩
              -- the loop leaves one state, however many calls it was given
              have hmax := fireNetMessage_mono hfire (le_max_left fuel fuel')
              rw [fireNetMessage_mono hfire' (le_max_right fuel fuel')] at hmax
              obtain rfl := Done.returns.inj hmax
              exact throw_returns_iff.mp ⟨s', hevent⟩
            · rintro ⟨hlisteners, hevent⟩
              obtain ⟨fuel, s₁, hfire⟩ := fireNetMessage_returns_iff.mpr hlisteners
              obtain ⟨s', hthrow⟩ := throw_returns_iff.mpr (hevent fuel s₁ hfire)
              exact ⟨fuel, s', s₁, hfire, hthrow⟩
          · simp only [if_neg hlegacy, exists_const]
            exact throw_returns_iff
        | some module =>
          simp only [Done.bind_eq_returns, exists_const]
          constructor
          · rintro ⟨s', s₁, hchannel, hevent⟩
            refine ⟨netChannelMessage_returns_iff.mp ⟨s₁, hchannel⟩, fun s₂ hchannel' => ?_⟩
            obtain rfl := Done.returns.inj (hchannel.symm.trans hchannel')
            exact throw_returns_iff.mp ⟨s', hevent⟩
          · rintro ⟨hsafe, hevent⟩
            obtain ⟨s₁, hchannel⟩ := netChannelMessage_returns_iff.mpr hsafe
            obtain ⟨s', hthrow⟩ := throw_returns_iff.mpr (hevent s₁ hchannel)
            exact ⟨s', s₁, hchannel, hthrow⟩

/-- More fuel changes nothing once a receipt returned. -/
theorem netReceive_mono {fuel fuel' : ℕ} (h : netReceive mods fuel m s = .returns s')
    (hle : fuel ≤ fuel') : netReceive mods fuel' m s = .returns s' := by
  unfold netReceive at h ⊢
  by_cases hreply : m.replyId ≠ 0
  · rw [if_pos hreply] at h ⊢
    exact h
  · rw [if_neg hreply] at h ⊢
    cases hmodule : m.module with
    | none =>
      simp only [hmodule] at h ⊢
      by_cases hlegacy : m.requestId = 0
      · rw [if_pos hlegacy] at h ⊢
        obtain ⟨s₁, hfire, hevent⟩ := Done.bind_eq_returns.mp h
        exact Done.bind_eq_returns.mpr ⟨s₁, fireNetMessage_mono hfire hle, hevent⟩
      · rw [if_neg hlegacy] at h ⊢
        exact h
    | some module => simpa only [hmodule] using h

/-- More fuel changes nothing once a message was handled. -/
theorem handle_mono {fuel fuel' : ℕ} (h : handle mods fuel m s = .returns s') (hle : fuel ≤ fuel') :
    handle mods fuel' m s = .returns s' := by
  unfold handle at h ⊢
  cases hkind : m.kind with
  | vars => simpa only [hkind] using h
  | reset => simpa only [hkind] using h
  | post =>
    simp only [hkind] at h ⊢
    by_cases hvars : m.channel = kVarChannel
    · rw [if_pos hvars] at h ⊢
      exact h
    · rw [if_neg hvars] at h ⊢
      exact netReceive_mono h hle

/-! ### A batch -/

/-- Every message of a batch keeps to itself, in the state that those before it leave. -/
def AllHarmless (mods : Mods σ H E) : List Message → State σ H → Prop
  | [], _ => True
  | m :: rest, s => Harmless mods m s ∧
      ∀ fuel s', handle mods fuel m s = .returns s' → AllHarmless mods rest s'

/-- More fuel changes nothing once a batch was handled. -/
theorem handleAll_mono {fuel fuel' : ℕ} {batch : List Message} {out : State σ H × List Message}
    (h : handleAll mods fuel batch s = .returns out) (hle : fuel ≤ fuel') :
    handleAll mods fuel' batch s = .returns out := by
  induction batch generalizing s out with
  | nil => exact h
  | cons m rest ih =>
    unfold handleAll at h ⊢
    obtain ⟨s₁, hhandle, htail⟩ := Done.bind_eq_returns.mp h
    obtain ⟨out', hrest, hout⟩ := Done.bind_eq_returns.mp htail
    exact Done.bind_eq_returns.mpr ⟨s₁, handle_mono hhandle hle,
      Done.bind_eq_returns.mpr ⟨out', ih hrest, hout⟩⟩

/-- A loop that returns went through the whole batch, in order. -/
theorem handled_eq {fuel : ℕ} {batch handled : List Message}
    (h : handleAll mods fuel batch s = .returns (s', handled)) : handled = batch := by
  induction batch generalizing s handled with
  | nil => exact (Prod.mk.inj (Done.returns.inj h)).2.symm
  | cons m rest ih =>
    unfold handleAll at h
    obtain ⟨s₁, _, htail⟩ := Done.bind_eq_returns.mp h
    obtain ⟨⟨s₂, handled'⟩, hrest, hout⟩ := Done.bind_eq_returns.mp htail
    obtain ⟨rfl, rfl⟩ := Prod.mk.inj (Done.returns.inj hout)
    rw [ih hrest]

/-- A batch is handled, with enough fuel, exactly when each message is harmless in its turn. -/
theorem handleAll_returns_iff {batch : List Message} :
    (∃ fuel out, handleAll mods fuel batch s = .returns out) ↔ AllHarmless mods batch s := by
  induction batch generalizing s with
  | nil => simp [handleAll, AllHarmless]
  | cons m rest ih =>
    unfold handleAll AllHarmless
    simp only [Done.bind_eq_returns]
    constructor
    · rintro ⟨fuel, out, s₁, hhandle, out', hrest, _⟩
      refine ⟨handle_returns_iff.mp ⟨fuel, s₁, hhandle⟩, fun fuel' s₂ hhandle' => ?_⟩
      have hmax := handle_mono hhandle (le_max_left fuel fuel')
      rw [handle_mono hhandle' (le_max_right fuel fuel')] at hmax
      obtain rfl := Done.returns.inj hmax
      exact ih.mp ⟨fuel, out', hrest⟩
    · rintro ⟨hfirst, hall⟩
      obtain ⟨fuel, s₁, hhandle⟩ := handle_returns_iff.mpr hfirst
      obtain ⟨fuel', out', hrest⟩ := ih.mpr (hall fuel s₁ hhandle)
      exact ⟨max fuel fuel', _, s₁, handle_mono hhandle (le_max_left _ _), out',
        handleAll_mono hrest (le_max_right _ _), rfl⟩

/-- The drain returns, after it handled every message of the batch once and in order, and the tick
goes on with its timers. -/
def Isolated (mods : Mods σ H E) (s : State σ H) : Prop :=
  ∃ fuel s', drainNetMessages mods fuel s = .returns (s', s.inbox) ∧
    ∀ rest, runTimers mods rest fuel s = rest s'

/-- A tick handles all its messages and goes on exactly when each of them keeps to itself. -/
theorem isolated_iff (mods : Mods σ H E) (s : State σ H) :
    Isolated mods s ↔ AllHarmless mods s.inbox { s with inbox := [] } := by
  rw [← handleAll_returns_iff]
  unfold Isolated runTimers drainNetMessages
  constructor
  · rintro ⟨fuel, s', hreturns, _⟩
    exact ⟨fuel, _, hreturns⟩
  · rintro ⟨fuel, ⟨s', handled⟩, hreturns⟩
    obtain rfl := handled_eq hreturns
    refine ⟨fuel, s', hreturns, fun rest => ?_⟩
    rw [hreturns]
    rfl

/-! ### A malformed payload -/

/-- A channel with a message handler that returns. -/
def demoState : State Unit ℕ :=
  let message (payload : Bytes) : Message :=
    { channel := bytes "c", payload := some payload, module := some (bytes "m") }
  { mods := ()
    inbox := [message (bytes "x"), message (bytes "1")]
    channels := [(bytes "m/c", { messageHandler := some 0, requestHandler := none })]
    vars := { server := true } }

/-- A parser that knows one number. -/
def demoMods : Mods Unit ℕ Unit where
  run _ _ s := { state := s, result := .ok .nil }
  parse payload _ := if payload = some (bytes "1") then some (.integer 1) else none
  stringify _ _ := some []
  isBinary := false
  takes _ _ := true
  printable _ := true

/-- A message that cannot be parsed takes the one after it along, and the tick's timers. -/
theorem malformed_stops_drain :
    ¬ ∀ (σ H E : Type) (mods : Mods σ H E) (s : State σ H), Isolated mods s := by
  intro h
  have hraises : ∀ fuel, drainNetMessages demoMods fuel demoState = .raises := fun _ => rfl
  obtain ⟨fuel, s', hreturns, _⟩ := h _ _ _ demoMods demoState
  rw [hraises] at hreturns
  exact absurd hreturns (by simp)

end Drain
end Bg3le
