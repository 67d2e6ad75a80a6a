import Bg3le.Net.ReplicationTheorems

/-!
# Where a written value gets to

While an earlier write is out, whatever is marked or in flight for the variable carries the last
value written; a context that does not hold it yet has it coming. The other clients are told of
a change by the server and by each other, but not of one by the host's own client.
-/

namespace Bg3le
namespace Vars

open Lua

variable {codec : Codec} {c : Context} {x : Var} {last y : Value}

variable {n : ℕ} {t : Tracked n} {s : System n}

/-- A client on another machine has a write of the variable on its way to the server. -/
def Rising (codec : Codec) (x : Var) (s : System n) : Prop :=
  ∃ i, x ∈ (s.remotes i).dirty ∨ Mentions x (arriving codec (s.up i))

/-- What holds while writes are out. -/
structure Settling (codec : Codec) (x : Var) (t : Tracked n) : Prop where
  sides : t.system.server.server = true ∧ t.system.host.server = false ∧
    ∀ i, (t.system.remotes i).server = false
  contexts : ∀ p, Local codec x t.last (t.system.context p)
  toHost : Bound codec x t.last t.system.toHost.flatten
  toServer : Bound codec x t.last t.system.toServer.flatten
  up : ∀ i, Bound codec x t.last (arriving codec (t.system.up i))
  down : ∀ i, Bound codec x t.last (arriving codec (t.system.down i))
  server : t.system.server.value x = t.last ∨ x ∈ t.system.host.dirty ∨
    Mentions x t.system.toServer.flatten ∨ Rising codec x t.system
  host : t.system.host.value x = t.last ∨ x ∈ t.system.server.dirty ∨
    Mentions x t.system.toHost.flatten ∨ Rising codec x t.system
  /-- A change by the host's own client does not get to the other clients. -/
  remote : ∀ j, (t.system.remotes j).value x = t.lastOther ∨ x ∈ t.system.server.dirty ∨
    Mentions x (arriving codec (t.system.down j)) ∨ Rising codec x t.system
  origin : x ∈ t.system.server.dirty ∨ (∃ j, Mentions x (arriving codec (t.system.down j))) ∨
    Rising codec x t.system → t.last = t.lastOther

theorem flatten_concat (l : List Payload) (o : Option Payload) :
    (l ++ o.toList).flatten = l.flatten ++ o.toList.flatten := List.flatten_append

/-- What the server sends keeps the game settling. -/
theorem Settling.sends_server {f : Flushed} {r : Remote} (h : Settling codec x t)
    (hf : Sends codec r x t.last t.system.server f) :
    Settling codec x { t with system := t.system.send codec .server f } := by
  have hremote : Vars.remote r t.system.server = true := by unfold Vars.remote; rw [h.sides.1]; rfl
  -- every remote context is sent what the server has for them
  have hdown : ∀ i, arriving codec ((t.system.send codec .server f).down i) =
      arriving codec (t.system.down i) ++ f.synced.getD [] := by
    intro i
    show arriving codec (t.system.down i ++ _) = _
    rw [arriving_append, arriving_carry hf.synced]
  constructor
  · exact ⟨hf.side.trans h.sides.1, h.sides.2⟩
  · intro p
    cases p with
    | server => exact hf.after
    | host => exact h.contexts .host
    | remote i => exact h.contexts (.remote i)
  · show Bound codec x t.last (t.system.toHost ++ f.posted.toList).flatten
    rw [flatten_concat, bound_append]
    exact ⟨h.toHost, hf.posted⟩
  · exact h.toServer
  · exact h.up
  · intro i
    show Bound codec x t.last (arriving codec ((t.system.send codec .server f).down i))
    rw [hdown, bound_append]
    exact ⟨h.down i, hf.synced⟩
  · show f.context.value x = _ ∨ _
    rw [hf.value]
    exact h.server
  · show _ ∨ x ∈ f.context.dirty ∨ Mentions x (t.system.toHost ++ f.posted.toList).flatten ∨ _
    rw [flatten_concat, mentions_append]
    obtain hvalue | hdirty | hmentions | hrising := h.host
    · exact .inl hvalue
    -- what is no longer dirty has been posted
    · obtain hkept | ⟨hposted, _⟩ := hf.kept hdirty
      · exact .inr (.inl hkept)
      · exact .inr (.inr (.inl (.inr hposted)))
    · exact .inr (.inr (.inl (.inl hmentions)))
    · exact .inr (.inr (.inr hrising))
  · intro j
    show _ ∨ x ∈ f.context.dirty ∨
      Mentions x (arriving codec ((t.system.send codec .server f).down j)) ∨ _
    rw [hdown, mentions_append]
    obtain hvalue | hdirty | hmentions | hrising := h.remote j
    · exact .inl hvalue
    -- and has been sent over the net, where the variable goes there at all
    · obtain hkept | ⟨_, hsynced⟩ := hf.kept hdirty
      · exact .inr (.inl hkept)
      · exact .inr (.inr (.inl (.inr (hsynced hremote))))
    · exact .inr (.inr (.inl (.inl hmentions)))
    · exact .inr (.inr (.inr hrising))
  · rintro (hdirty | ⟨j, hmentions⟩ | hrising)
    · exact h.origin (.inl (hf.dirty hdirty))
    · simp only [hdown, mentions_append] at hmentions
      obtain hold | hnew := hmentions
      · exact h.origin (.inr (.inl ⟨j, hold⟩))
      · exact h.origin (.inl (hf.origin (.inr hnew)))
    · exact h.origin (.inr (.inr hrising))

/-- What the host sends keeps the game settling. -/
theorem Settling.sends_host {f : Flushed} {r : Remote} (h : Settling codec x t)
    (hf : Sends codec r x t.last t.system.host f) :
    Settling codec x { t with system := t.system.send codec .host f } := by
  constructor
  · exact ⟨h.sides.1, hf.side.trans h.sides.2.1, h.sides.2.2⟩
  · intro p
    cases p with
    | server => exact h.contexts .server
    | host => exact hf.after
    | remote i => exact h.contexts (.remote i)
  · exact h.toHost
  · show Bound codec x t.last (t.system.toServer ++ f.posted.toList).flatten
    rw [flatten_concat, bound_append]
    exact ⟨h.toServer, hf.posted⟩
  · exact h.up
  · exact h.down
  · show _ ∨ x ∈ f.context.dirty ∨ Mentions x (t.system.toServer ++ f.posted.toList).flatten ∨ _
    rw [flatten_concat, mentions_append]
    obtain hvalue | hdirty | hmentions | hrising := h.server
    · exact .inl hvalue
    · obtain hkept | ⟨hposted, _⟩ := hf.kept hdirty
      · exact .inr (.inl hkept)
      · exact .inr (.inr (.inl (.inr hposted)))
    · exact .inr (.inr (.inl (.inl hmentions)))
    · exact .inr (.inr (.inr hrising))
  · show f.context.value x = _ ∨ _
    rw [hf.value]
    exact h.host
  · exact h.remote
  · exact h.origin

/-- What a remote client sends keeps the game settling. -/
theorem Settling.sends_remote {f : Flushed} {r : Remote} {i : Fin n} (h : Settling codec x t)
    (hr : r.hosting = false) (hf : Sends codec r x t.last (t.system.remotes i) f) :
    Settling codec x { t with system := t.system.send codec (.remote i) f } := by
  have hremote : Vars.remote r (t.system.remotes i) = true := by unfold Vars.remote; rw [hr]; simp
  have hup : arriving codec ((t.system.send codec (.remote i) f).up i) =
      arriving codec (t.system.up i) ++ f.synced.getD [] := by
    show arriving codec (Function.update t.system.up i (t.system.up i ++ _) i) = _
    rw [Function.update_self, arriving_append, arriving_carry hf.synced]
  have hcontext : (t.system.send codec (.remote i) f).remotes i = f.context :=
    Function.update_self _ _ _
  have hother : ∀ j, j ≠ i →
      (t.system.send codec (.remote i) f).remotes j = t.system.remotes j ∧
        (t.system.send codec (.remote i) f).up j = t.system.up j :=
    fun j hij => ⟨Function.update_of_ne hij _ _, Function.update_of_ne hij _ _⟩
  -- what is on its way up still is, in the context or on the channel
  have hrising : Rising codec x (t.system.send codec (.remote i) f) ↔ Rising codec x t.system := by
    constructor
    · rintro ⟨j, hj⟩
      by_cases hij : j = i
      · subst hij
        rw [hcontext, hup, mentions_append] at hj
        obtain hdirty | hold | hnew := hj
        · exact ⟨j, .inl (hf.dirty hdirty)⟩
        · exact ⟨j, .inr hold⟩
        · exact ⟨j, .inl (hf.origin (.inr hnew))⟩
      · rw [(hother j hij).1, (hother j hij).2] at hj
        exact ⟨j, hj⟩
    · rintro ⟨j, hj⟩
      refine ⟨j, ?_⟩
      by_cases hij : j = i
      · subst hij
        rw [hcontext, hup, mentions_append]
        obtain hdirty | hold := hj
        · obtain hkept | ⟨_, hsynced⟩ := hf.kept hdirty
          · exact .inl hkept
          · exact .inr (.inr (hsynced hremote))
        · exact .inr (.inl hold)
      · rw [(hother j hij).1, (hother j hij).2]
        exact hj
  constructor
  · refine ⟨h.sides.1, h.sides.2.1, fun j => ?_⟩
    show ((t.system.send codec (.remote i) f).remotes j).server = false
    by_cases hij : j = i
    · subst hij
      rw [hcontext, hf.side]
      exact h.sides.2.2 j
    · rw [(hother j hij).1]
      exact h.sides.2.2 j
  · intro p
    cases p with
    | server => exact h.contexts .server
    | host => exact h.contexts .host
    | remote j =>
      show Local codec x t.last ((t.system.send codec (.remote i) f).remotes j)
      by_cases hij : j = i
      · subst hij
        rw [hcontext]
        exact hf.after
      · rw [(hother j hij).1]
        exact h.contexts (.remote j)
  · exact h.toHost
  · exact h.toServer
  · intro j
    show Bound codec x t.last (arriving codec ((t.system.send codec (.remote i) f).up j))
    by_cases hij : j = i
    · subst hij
      rw [hup, bound_append]
      exact ⟨h.up j, hf.synced⟩
    · rw [(hother j hij).2]
      exact h.up j
  · exact h.down
  · rw [hrising]
    exact h.server
  · rw [hrising]
    exact h.host
  · intro j
    rw [hrising]
    have hvalue : ((t.system.send codec (.remote i) f).remotes j).value x =
        (t.system.remotes j).value x := by
      by_cases hij : j = i
      · subst hij
        rw [hcontext]
        exact hf.value
      · rw [(hother j hij).1]
    rw [hvalue]
    exact h.remote j
  · rw [hrising]
    exact h.origin

/-! ### A call -/

/-- A variable is not among those arriving exactly when no entry carries it. -/
theorem not_mentions_arriving {l : List (Var × Carried)} :
    ¬ Mentions x (arriving codec l) ↔ ∀ e ∈ l, e.1 ≠ x := by
  unfold Mentions arriving
  simp only [List.mem_map]
  constructor
  · exact fun h e he heq => h ⟨_, ⟨e, he, rfl⟩, heq⟩
  · rintro h ⟨_, ⟨e, he, rfl⟩, heq⟩
    exact h e he heq

/-- A variable is not in a queue exactly when no payload in it holds it. -/
theorem not_mentions_flatten {l : List Payload} :
    ¬ Mentions x l.flatten ↔ ∀ p ∈ l, ∀ e ∈ p, e.1 ≠ x := by
  unfold Mentions
  simp only [List.mem_flatten]
  constructor
  · exact fun h p hp e he heq => h ⟨e, ⟨p, hp, he⟩, heq⟩
  · rintro h ⟨e, ⟨p, hp, he⟩, heq⟩
    exact h p hp e he heq

/-- Payloads without the variable are bound whatever was last written to it. -/
theorem Bound.relabel {l : Payload} (h : Bound codec x last l) (hx : ¬ Mentions x l) (y : Value) :
    Bound codec x y l :=
  fun e he => ⟨(h e he).1, (h e he).2.1, fun heq => absurd ⟨e, he, heq⟩ hx⟩

/-- Nothing rises to the server in a quiet game. -/
theorem System.Quiescent.not_rising (h : s.Quiescent x) : ¬ Rising codec x s := by
  rintro ⟨i, hdirty | hup⟩
  · exact h.2.2.1 i hdirty
  · exact not_mentions_arriving.mpr (h.2.2.2.2.2 i).1 hup

/-- Where nothing is out, only the other clients may be behind. -/
theorem Settling.of_quiescent (h : Settling codec x t) (hq : t.system.Quiescent x) :
    t.system.server.value x = t.last ∧ t.system.host.value x = t.last ∧
      ∀ j, (t.system.remotes j).value x = t.lastOther := by
  have hrising : ¬ Rising codec x t.system := hq.not_rising
  obtain ⟨hserver, hhost, _, htoHost, htoServer, hnet⟩ := hq
  refine ⟨?_, ?_, fun j => ?_⟩
  · obtain hvalue | hdirty | hmentions | hr := h.server
    · exact hvalue
    · exact absurd hdirty hhost
    · exact absurd hmentions (not_mentions_flatten.mpr htoServer)
    · exact absurd hr hrising
  · obtain hvalue | hdirty | hmentions | hr := h.host
    · exact hvalue
    · exact absurd hdirty hserver
    · exact absurd hmentions (not_mentions_flatten.mpr htoHost)
    · exact absurd hr hrising
  · obtain hvalue | hdirty | hmentions | hr := h.remote j
    · exact hvalue
    · exact absurd hdirty hserver
    · exact absurd hmentions (not_mentions_arriving.mpr (hnet j).2)
    · exact absurd hr hrising

/-- The variable is written where no earlier write of it is out. -/
theorem Settling.written {p : Party n} (h : Settling codec x t) (hq : t.system.Quiescent x)
    {c' : Context} (hlocal : Local codec x y c') (hvalue : c'.value x = y) (hdirty : x ∈ c'.dirty)
    (hside : c'.server = (t.system.context p).server) :
    Settling codec x
      { system := t.system.setContext p c'
        last := y
        lastOther := if p = .host then t.lastOther else y } := by
  obtain ⟨_, _, hremotes⟩ := h.of_quiescent hq
  have hrising : ¬ Rising codec x t.system := hq.not_rising
  obtain ⟨hserver, hhost, hremote, htoHost, htoServer, hnet⟩ := hq
  -- nothing of the variable is under way, so the new value may be called the last one
  have htoHost' := h.toHost.relabel (not_mentions_flatten.mpr htoHost) y
  have htoServer' := h.toServer.relabel (not_mentions_flatten.mpr htoServer) y
  have hup : ∀ i, Bound codec x y (arriving codec (t.system.up i)) :=
    fun i => (h.up i).relabel (not_mentions_arriving.mpr (hnet i).1) y
  have hdown : ∀ i, Bound codec x y (arriving codec (t.system.down i)) :=
    fun i => (h.down i).relabel (not_mentions_arriving.mpr (hnet i).2) y
  have hcontexts : ∀ q, Local codec x y (t.system.context q) := by
    intro q
    cases q with
    | server => exact (h.contexts .server).relabel hserver y
    | host => exact (h.contexts .host).relabel hhost y
    | remote i => exact (h.contexts (.remote i)).relabel (hremote i) y
  cases p with
  | server =>
    constructor
    · exact ⟨hside.trans h.sides.1, h.sides.2⟩
    · intro q
      cases q with
      | server => exact hlocal
      | host => exact hcontexts .host
      | remote i => exact hcontexts (.remote i)
    · exact htoHost'
    · exact htoServer'
    · exact hup
    · exact hdown
    · exact .inl hvalue
    · exact .inr (.inl hdirty)
    · exact fun j => .inr (.inl hdirty)
    · exact fun _ => rfl
  | host =>
    constructor
    · exact ⟨h.sides.1, hside.trans h.sides.2.1, h.sides.2.2⟩
    · intro q
      cases q with
      | server => exact hcontexts .server
      | host => exact hlocal
      | remote i => exact hcontexts (.remote i)
    · exact htoHost'
    · exact htoServer'
    · exact hup
    · exact hdown
    · exact .inr (.inl hdirty)
    · exact .inl hvalue
    · exact fun j => .inl (hremotes j)
    · rintro (hd | ⟨j, hmentions⟩ | hr)
      · exact absurd hd hserver
      · exact absurd hmentions (not_mentions_arriving.mpr (hnet j).2)
      · exact absurd hr hrising
  | remote i =>
    have hmine : (t.system.setContext (.remote i) c').remotes i = c' := Function.update_self _ _ _
    have hother : ∀ j, j ≠ i →
        (t.system.setContext (.remote i) c').remotes j = t.system.remotes j :=
      fun j hij => Function.update_of_ne hij _ _
    -- the write waits at the remote context until the server hears of it
    have hrises : Rising codec x (t.system.setContext (.remote i) c') :=
      ⟨i, .inl (by rw [hmine]; exact hdirty)⟩
    constructor
    · refine ⟨h.sides.1, h.sides.2.1, fun j => ?_⟩
      show ((t.system.setContext (.remote i) c').remotes j).server = false
      by_cases hij : j = i
      · subst hij
        rw [hmine, hside]
        exact h.sides.2.2 j
      · rw [hother j hij]
        exact h.sides.2.2 j
    · intro q
      cases q with
      | server => exact hcontexts .server
      | host => exact hcontexts .host
      | remote j =>
        show Local codec x y ((t.system.setContext (.remote i) c').remotes j)
        by_cases hij : j = i
        · subst hij
          rw [hmine]
          exact hlocal
        · rw [hother j hij]
          exact hcontexts (.remote j)
    · exact htoHost'
    · exact htoServer'
    · exact hup
    · exact hdown
    · exact .inr (.inr (.inr hrises))
    · exact .inr (.inr (.inr hrises))
    · exact fun j => .inr (.inr (.inr hrises))
    · exact fun _ => rfl

/-- What any party sends keeps the game settling. -/
theorem Settling.sends {p : Party n} {f : Flushed} (h : Settling codec x t)
    (hf : Sends codec (p.remote? codec) x t.last (t.system.context p) f) :
    Settling codec x { t with system := t.system.send codec p f } := by
  cases p with
  | server => exact h.sends_server hf
  | host => exact h.sends_host hf
  | remote i => exact h.sends_remote rfl hf

theorem send_setContext (s : System n) (p : Party n) (c' : Context) (f : Flushed) :
    (s.setContext p c').send codec p f = s.send codec p f := by
  cases p with
  | server => rfl
  | host => rfl
  | remote i => simp [System.send, System.setContext]

theorem context_setContext (s : System n) (p : Party n) (c' : Context) :
    (s.setContext p c').context p = c' := by
  cases p with
  | server => rfl
  | host => rfl
  | remote i => exact Function.update_self _ _ _

/-- What any party does by itself keeps the game settling. -/
theorem Settling.act {p : Party n} {a : Action} (hx : x.owner ≠ kEverywhere)
    (h : Settling codec x t) (hdisciplined : Disciplined codec x t (.act p a)) :
    Settling codec x { t.note x (.act p a) with
      system := t.system.send codec p (Vars.act (p.remote? codec) (t.system.context p) a) } := by
  obtain ⟨hsurvives, hregistered, hmarks⟩ := hdisciplined
  by_cases hwrite : ∃ value, a = .write x value
  · obtain ⟨y, rfl⟩ := hwrite
    have hown := (h.contexts p).registered.marks_write y
    obtain ⟨_, hq⟩ := hmarks x (by rw [hown]; exact List.mem_singleton_self x) ⟨rfl, rfl, .inl rfl⟩
    obtain ⟨hlocal, hvalue, hdirty⟩ :=
      (h.contexts p).prepared_write hx (hsurvives x y rfl)
    have hwritten := h.written hq hlocal hvalue hdirty (prepared_server _ _)
    have hf : Sends codec (p.remote? codec) x y (prepared (t.system.context p) (.write x y))
        (Vars.act (p.remote? codec) (t.system.context p) (.write x y)) := by
      rw [act_eq]
      cases trigger (t.system.context p) (.write x y) with
      | none => exact hlocal.sends_nothing
      | some flushed => exact hlocal.sends_flush hx rfl _ _ _
    have hsent := hwritten.sends (p := p) (by rw [context_setContext]; exact hf)
    simp only [send_setContext] at hsent
    unfold Tracked.note
    simp only [if_true]
    exact hsent
  · have hother : ∀ d ∈ marks (t.system.context p) a, ¬ About x d :=
      fun d hd habout => hwrite (hmarks d hd habout).1
    have hnote : t.note x (.act p a) = t := by
      cases a with
      | write v value =>
        have hne : v ≠ x := by
          rintro rfl
          exact hwrite ⟨value, rfl⟩
        exact if_neg hne
      | _ => rfl
    rw [hnote]
    exact h.sends ((h.contexts p).sends_act hx rfl hsurvives hregistered hother)

/-! ### Messages received -/

/-- A payload the host takes in keeps the game settling. -/
theorem Settling.hostReceives {payload : Payload} {rest : List Payload} (h : Settling codec x t)
    (hqueue : t.system.toHost = payload :: rest) :
    Settling codec x { t with system := { t.system with
      host := applyVarSync payload t.system.host, toHost := rest } } := by
  have hbound := h.toHost
  rw [hqueue, List.flatten_cons, bound_append] at hbound
  obtain ⟨hside, hdirty⟩ := applyVarSync_keeps payload t.system.host
  constructor
  · exact ⟨h.sides.1, hside.trans h.sides.2.1, h.sides.2.2⟩
  · intro p
    cases p with
    | server => exact h.contexts .server
    | host => exact (h.contexts .host).applyVarSync hbound.1
    | remote i => exact h.contexts (.remote i)
  · exact hbound.2
  · exact h.toServer
  · exact h.up
  · exact h.down
  · show _ ∨ x ∈ (applyVarSync payload t.system.host).dirty ∨ _
    rw [hdirty]
    exact h.server
  · obtain hlast | ⟨hnot, hsame⟩ := value_applyVarSync hbound.1 (c := t.system.host)
    · exact .inl hlast
    · show (applyVarSync payload t.system.host).value x = _ ∨ _ ∨ Mentions x rest.flatten ∨ _
      have hhost := h.host
      rw [hqueue, List.flatten_cons, mentions_append, or_iff_right hnot] at hhost
      rw [hsame]
      exact hhost
  · exact h.remote
  · exact h.origin

/-- A payload the server takes in keeps the game settling. -/
theorem Settling.serverReceives {payload : Payload} {rest : List Payload} (h : Settling codec x t)
    (hqueue : t.system.toServer = payload :: rest) :
    Settling codec x { t with system := { t.system with
      server := applyVarSync payload t.system.server, toServer := rest } } := by
  have hbound := h.toServer
  rw [hqueue, List.flatten_cons, bound_append] at hbound
  obtain ⟨hside, hdirty⟩ := applyVarSync_keeps payload t.system.server
  constructor
  · exact ⟨hside.trans h.sides.1, h.sides.2⟩
  · intro p
    cases p with
    | server => exact (h.contexts .server).applyVarSync hbound.1
    | host => exact h.contexts .host
    | remote i => exact h.contexts (.remote i)
  · exact h.toHost
  · exact hbound.2
  · exact h.up
  · exact h.down
  · obtain hlast | ⟨hnot, hsame⟩ := value_applyVarSync hbound.1 (c := t.system.server)
    · exact .inl hlast
    · show (applyVarSync payload t.system.server).value x = _ ∨ _ ∨ Mentions x rest.flatten ∨ _
      have hserver := h.server
      rw [hqueue, List.flatten_cons, mentions_append, or_iff_right hnot] at hserver
      rw [hsame]
      exact hserver
  · show _ ∨ x ∈ (applyVarSync payload t.system.server).dirty ∨ _
    rw [hdirty]
    exact h.host
  · intro j
    show _ ∨ x ∈ (applyVarSync payload t.system.server).dirty ∨ _
    rw [hdirty]
    exact h.remote j
  · intro horigin
    have horigin' : x ∈ (applyVarSync payload t.system.server).dirty ∨ _ := horigin
    rw [hdirty] at horigin'
    exact h.origin horigin'

theorem arriving_cons (e : Var × Carried) (rest : List (Var × Carried)) :
    arriving codec (e :: rest) = arriving codec [e] ++ arriving codec rest := rfl

theorem mentions_arriving_one {e : Var × Carried} :
    Mentions x (arriving codec [e]) ↔ e.1 = x := by
  unfold Mentions arriving
  simp

/-- A packet the server takes from a remote client keeps the game settling. -/
theorem Settling.serverNet {i : Fin n} {e : Var × Carried} {rest : List (Var × Carried)}
    (h : Settling codec x t) (hqueue : t.system.up i = e :: rest) :
    Settling codec x { t with system := { t.system with
      server := applyNetVar codec.parse t.system.server e
      up := Function.update t.system.up i rest } } := by
  have hbound := h.up i
  rw [hqueue, arriving_cons, bound_append] at hbound
  have hreceived : Received codec x t.last t.system.server e.1
      (applyNetVar codec.parse t.system.server e) := (h.contexts .server).applyNetVar hbound.1
  -- the variable was on its way up, and if it still is not, the server has it marked
  have hrising : Rising codec x t.system ↔ e.1 = x ∨ Rising codec x { t.system with
      server := applyNetVar codec.parse t.system.server e
      up := Function.update t.system.up i rest } := by
    have hi : Mentions x (arriving codec (t.system.up i)) ↔
        e.1 = x ∨ Mentions x (arriving codec rest) := by
      rw [hqueue, arriving_cons, mentions_append, mentions_arriving_one]
    constructor
    · rintro ⟨j, hdirty | hmentions⟩
      · exact .inr ⟨j, .inl hdirty⟩
      · by_cases hij : j = i
        · subst hij
          refine (hi.mp hmentions).imp_right fun hrest => ⟨j, .inr ?_⟩
          simpa using hrest
        · exact .inr ⟨j, .inr (by simpa [Function.update_of_ne hij] using hmentions)⟩
    · rintro (heq | ⟨j, hdirty | hmentions⟩)
      · exact ⟨i, .inr (hi.mpr (.inl heq))⟩
      · exact ⟨j, .inl hdirty⟩
      · by_cases hij : j = i
        · subst hij
          exact ⟨j, .inr (hi.mpr (.inr (by simpa using hmentions)))⟩
        · exact ⟨j, .inr (by simpa [Function.update_of_ne hij] using hmentions)⟩
  constructor
  · exact ⟨hreceived.side.trans h.sides.1, h.sides.2⟩
  · intro p
    cases p with
    | server => exact hreceived.after
    | host => exact h.contexts .host
    | remote j => exact h.contexts (.remote j)
  · exact h.toHost
  · exact h.toServer
  · intro j
    show Bound codec x t.last (arriving codec (Function.update t.system.up i rest j))
    by_cases hij : j = i
    · subst hij
      rw [Function.update_self]
      exact hbound.2
    · rw [Function.update_of_ne hij]
      exact h.up j
  · exact h.down
  · by_cases heq : e.1 = x
    · exact .inl (hreceived.mine heq).1
    · show (applyNetVar codec.parse t.system.server e).value x = _ ∨ _
      have hserver := h.server
      rw [hrising, or_iff_right heq] at hserver
      rw [hreceived.other heq]
      exact hserver
  · by_cases heq : e.1 = x
    · exact .inr (.inl ((hreceived.mine heq).2 h.sides.1))
    · have hhost := h.host
      rw [hrising, or_iff_right heq] at hhost
      exact hhost.imp_right (Or.imp_left hreceived.kept)
  · intro j
    by_cases heq : e.1 = x
    · exact .inr (.inl ((hreceived.mine heq).2 h.sides.1))
    · have hremote := h.remote j
      rw [hrising, or_iff_right heq] at hremote
      exact hremote.imp_right (Or.imp_left hreceived.kept)
  · rintro (hdirty | hdown | hup)
    · obtain hold | ⟨heq, _⟩ := hreceived.dirty hdirty
      · exact h.origin (.inl hold)
      · exact h.origin (.inr (.inr (hrising.mpr (.inl heq))))
    · exact h.origin (.inr (.inl hdown))
    · exact h.origin (.inr (.inr (hrising.mpr (.inr hup))))

/-- A packet a remote client takes in keeps the game settling. -/
theorem Settling.remoteNet {i : Fin n} {e : Var × Carried} {rest : List (Var × Carried)}
    (h : Settling codec x t) (hqueue : t.system.down i = e :: rest) :
    Settling codec x { t with system := { t.system with
      remotes := Function.update t.system.remotes i
        (applyNetVar codec.parse (t.system.remotes i) e)
      down := Function.update t.system.down i rest } } := by
  have hbound := h.down i
  rw [hqueue, arriving_cons, bound_append] at hbound
  have hreceived : Received codec x t.last (t.system.remotes i) e.1
      (applyNetVar codec.parse (t.system.remotes i) e) :=
    (h.contexts (.remote i)).applyNetVar hbound.1
  have hi : Mentions x (arriving codec (t.system.down i)) ↔
      e.1 = x ∨ Mentions x (arriving codec rest) := by
    rw [hqueue, arriving_cons, mentions_append, mentions_arriving_one]
  -- a remote context does not sync on, so nothing becomes dirty there
  have hdirty : x ∈ (applyNetVar codec.parse (t.system.remotes i) e).dirty ↔
      x ∈ (t.system.remotes i).dirty := by
    constructor
    · intro hx
      obtain hold | ⟨_, hserver⟩ := hreceived.dirty hx
      · exact hold
      · exact absurd hserver (by simp [h.sides.2.2 i])
    · exact hreceived.kept
  have hrising : Rising codec x { t.system with
      remotes := Function.update t.system.remotes i
        (applyNetVar codec.parse (t.system.remotes i) e)
      down := Function.update t.system.down i rest } ↔ Rising codec x t.system := by
    unfold Rising
    apply exists_congr
    intro j
    by_cases hij : j = i
    · subst hij
      simp [hdirty]
    · simp [Function.update_of_ne hij]
  constructor
  · refine ⟨h.sides.1, h.sides.2.1, fun j => ?_⟩
    show (Function.update t.system.remotes i _ j).server = false
    by_cases hij : j = i
    · subst hij
      rw [Function.update_self, hreceived.side]
      exact h.sides.2.2 j
    · rw [Function.update_of_ne hij]
      exact h.sides.2.2 j
  · intro p
    cases p with
    | server => exact h.contexts .server
    | host => exact h.contexts .host
    | remote j =>
      show Local codec x t.last (Function.update t.system.remotes i _ j)
      by_cases hij : j = i
      · subst hij
        rw [Function.update_self]
        exact hreceived.after
      · rw [Function.update_of_ne hij]
        exact h.contexts (.remote j)
  · exact h.toHost
  · exact h.toServer
  · exact h.up
  · intro j
    show Bound codec x t.last (arriving codec (Function.update t.system.down i rest j))
    by_cases hij : j = i
    · subst hij
      rw [Function.update_self]
      exact hbound.2
    · rw [Function.update_of_ne hij]
      exact h.down j
  · rw [hrising]
    exact h.server
  · rw [hrising]
    exact h.host
  · intro j
    rw [hrising]
    show (Function.update t.system.remotes i _ j).value x = _ ∨ _ ∨
      Mentions x (arriving codec (Function.update t.system.down i rest j)) ∨ _
    have hremote := h.remote j
    by_cases hij : j = i
    · subst hij
      rw [Function.update_self, Function.update_self]
      by_cases heq : e.1 = x
      -- the message is of the variable, and what came over the net is the last value
      · rw [(hreceived.mine heq).1]
        exact .inl (h.origin (.inr (.inl ⟨j, hi.mpr (.inl heq)⟩)))
      · rw [hi, or_iff_right heq] at hremote
        rw [hreceived.other heq]
        exact hremote
    · rw [Function.update_of_ne hij, Function.update_of_ne hij]
      exact hremote
  · rw [hrising]
    rintro (hserver | ⟨j, hmentions⟩ | hup)
    · exact h.origin (.inl hserver)
    · refine h.origin (.inr (.inl ⟨j, ?_⟩))
      by_cases hij : j = i
      · subst hij
        exact hi.mpr (.inr (by simpa using hmentions))
      · simpa [Function.update_of_ne hij] using hmentions
    · exact h.origin (.inr (.inr hup))

/-! ### Runs -/

/-- Every move of a disciplined run keeps the game settling. -/
theorem Settling.step {t' : Tracked n} {m : Move n} (hx : x.owner ≠ kEverywhere)
    (h : Settling codec x t) (hdisciplined : Disciplined codec x t m)
    (hstep : trackedStep codec x t m = some t') : Settling codec x t' := by
  unfold trackedStep at hstep
  obtain ⟨system, hmove, rfl⟩ := Option.map_eq_some_iff.mp hstep
  cases m with
  | act p a =>
    obtain rfl := Option.some.inj hmove
    exact h.act hx hdisciplined
  | hostReceives =>
    cases hqueue : t.system.toHost with
    | nil => simp [move, hqueue] at hmove
    | cons first rest =>
      simp only [move, hqueue, Option.some.injEq] at hmove
      subst hmove
      exact h.hostReceives hqueue
  | serverReceives =>
    cases hqueue : t.system.toServer with
    | nil => simp [move, hqueue] at hmove
    | cons first rest =>
      simp only [move, hqueue, Option.some.injEq] at hmove
      subst hmove
      exact h.serverReceives hqueue
  | serverNet i =>
    cases hqueue : t.system.up i with
    | nil => simp [move, hqueue] at hmove
    | cons first rest =>
      simp only [move, hqueue, Option.some.injEq] at hmove
      subst hmove
      exact h.serverNet hqueue
  | remoteNet i =>
    cases hqueue : t.system.down i with
    | nil => simp [move, hqueue] at hmove
    | cons first rest =>
      simp only [move, hqueue, Option.some.injEq] at hmove
      subst hmove
      exact h.remoteNet hqueue

/-- A game that starts with one value everywhere is settling. -/
theorem Starts.settling (h : Starts s x) : Settling codec x { system := s } := by
  have hvalue : ∀ p, (s.context p).value x = .nil := by
    intro p
    unfold Context.value
    rw [(h.unset p).1]
    rfl
  constructor
  · exact h.sides
  · intro p
    obtain ⟨hvalues, hdirty⟩ := h.unset p
    refine ⟨h.registered p, ?_, ?_, fun _ => hvalue p⟩
    · rw [hdirty]
      exact fun d hd => absurd hd List.not_mem_nil
    · show ∀ e ∈ (s.context p).values, _
      rw [hvalues]
      exact fun e he => absurd he List.not_mem_nil
  · rw [h.empty.1]
    exact bound_nil
  · rw [h.empty.2.1]
    exact bound_nil
  · intro i
    rw [(h.empty.2.2 i).1]
    exact bound_nil
  · intro i
    rw [(h.empty.2.2 i).2]
    exact bound_nil
  · exact .inl (hvalue .server)
  · exact .inl (hvalue .host)
  · exact fun j => .inl (hvalue (.remote j))
  · exact fun _ => rfl

/-- Once nothing is out, every context holds the last value written exactly when no client on
another machine takes part, or it is the last value that another than the host's own client
wrote. -/
theorem agrees_iff_of_run (hx : x.owner ≠ kEverywhere) (hstart : Starts s x) {ms : List (Move n)}
    (hrun : Run (trackedStep codec x) (Disciplined codec x) { system := s } ms t)
    (hq : t.system.Quiescent x) : t.Agrees x ↔ n = 0 ∨ t.last = t.lastOther := by
  have hsettling : Settling codec x t :=
    hrun.invariant hstart.settling fun _ _ _ h hdisciplined hstep => h.step hx hdisciplined hstep
  obtain ⟨hserver, hhost, hremotes⟩ := hsettling.of_quiescent hq
  constructor
  · intro hagrees
    cases n with
    | zero => exact .inl rfl
    | succ n =>
      right
      rw [← hremotes 0]
      exact (hagrees (.remote 0)).symm
  · rintro hcondition (_ | _ | j)
    · exact hserver
    · exact hhost
    · show (t.system.remotes j).value x = t.last
      obtain rfl | hlast := hcondition
      · exact j.elim0
      · rw [hlast]
        exact hremotes j

/-! ### Two games -/

/-- A mod variable that is sent when it is written. -/
def demoShared : Var := ⟨true, bytes "m", bytes "a"⟩

def demoShares (server : Bool) : Context :=
  { server, modDefs := [((demoShared.owner, demoShared.key), fun _ => some true)] }

/-- A server, the host's own client, and a client on another machine. -/
def demoGame : System 1 :=
  { server := demoShares true, host := demoShares false, remotes := fun _ => demoShares false }

/-- Only a table takes the binary form. -/
def demoCodec : Codec := { binary := fun _ => true, blob := fun _ => [], parse := fun _ _ => none }

theorem demoGame_starts : Starts demoGame demoShared := by
  have hregistered : ∀ server, Registered (demoShares server) demoShared := by
    intro server
    exact ⟨fun _ => some true, rfl, rfl, rfl, rfl, rfl⟩
  constructor
  · exact ⟨rfl, rfl, fun _ => rfl⟩
  · rintro (_ | _ | i)
    · exact hregistered true
    · exact hregistered false
    · exact hregistered false
  · rintro (_ | _ | i) <;> exact ⟨rfl, rfl⟩
  · exact ⟨rfl, rfl, fun _ => ⟨rfl, rfl⟩⟩

/-- The first write of the variable in the game. -/
theorem demoGame_write (p : Party 1) : Disciplined demoCodec demoShared { system := demoGame }
    (.act p (.write demoShared (.integer 5))) := by
  have hquiescent : demoGame.Quiescent demoShared := by
    unfold System.Quiescent System.Idle
    decide +kernel
  refine ⟨?_, ?_, ?_⟩
  · intro v value heq
    obtain ⟨rfl, rfl⟩ := Action.write.inj heq
    exact ⟨rfl, fun h => absurd h (by decide)⟩
  · cases p <;> exact ⟨fun _ => some true, rfl, rfl, rfl, rfl, rfl⟩
  · exact fun _ _ _ => ⟨⟨.integer 5, rfl⟩, hquiescent⟩

theorem agrees_iff_of_run_demo : ∃ t, Run (trackedStep demoCodec demoShared)
    (Disciplined demoCodec demoShared) { system := demoGame }
    [.act .server (.write demoShared (.integer 5)), .hostReceives, .remoteNet 0] t ∧
      t.Agrees demoShared := by
  have hrun : ∃ t, Run (trackedStep demoCodec demoShared) (Disciplined demoCodec demoShared)
      { system := demoGame } ((([] ++ [.act .server (.write demoShared (.integer 5))]) ++
        [.hostReceives]) ++ [.remoteNet 0]) t ∧ t.system.Quiescent demoShared ∧
        t.last = t.lastOther := by
    refine ⟨_, .step (.step (.step (.refl _) (demoGame_write .server) rfl) trivial rfl)
      trivial rfl, ?_, rfl⟩
    unfold System.Quiescent System.Idle
    decide +kernel
  obtain ⟨t, hrun, hq, hlast⟩ := hrun
  exact ⟨t, hrun, (agrees_iff_of_run (by decide +kernel) demoGame_starts hrun hq).mpr (.inr hlast)⟩

/-- A write by the host's own client gets to the server and stops there. -/
theorem host_write_stops : ¬ ∀ (n : ℕ) (codec : Codec) (x : Var) (s : System n)
    (ms : List (Move n)) (t : Tracked n), x.owner ≠ kEverywhere → Starts s x →
      Run (trackedStep codec x) (Disciplined codec x) { system := s } ms t →
        t.system.Quiescent x → t.Agrees x := by
  intro h
  have hrun : ∃ t, Run (trackedStep demoCodec demoShared) (Disciplined demoCodec demoShared)
      { system := demoGame } (([] ++ [.act .host (.write demoShared (.integer 5))]) ++
        [.serverReceives]) t ∧ t.system.Quiescent demoShared ∧
        (t.system.remotes 0).value demoShared = .nil ∧ t.last = .integer 5 := by
    refine ⟨_, .step (.step (.refl _) (demoGame_write .host) rfl) trivial rfl, ?_, rfl, rfl⟩
    unfold System.Quiescent System.Idle
    decide +kernel
  obtain ⟨t, hrun, hq, hremote, hlast⟩ := hrun
  have hagrees : (t.system.remotes 0).value demoShared = t.last :=
    h 1 _ _ _ _ t (by decide +kernel) demoGame_starts hrun hq (.remote 0)
  rw [hremote, hlast] at hagrees
  exact absurd hagrees (by simp)

end Vars
end Bg3le
