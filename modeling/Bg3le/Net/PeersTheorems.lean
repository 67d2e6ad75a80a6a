import Bg3le.Library.Since
import Bg3le.Net.Peers

/-!
# Message 400 goes only to whoever can take it

Whatever the order of events, the server sends message 400 only to a peer that showed it has the
extender since its latest ClientConnect under the current server object, and the client sends it
only after the host's hello for the current connection.
-/

namespace Bg3le
namespace Net

/-! ## What the events say -/

/-- The server object of the last server tick that had one. -/
def lastServer (events : List Event) : Option ℕ :=
  events.foldl (fun last e => match e with | .serverTick (some g) => some g | _ => last) none

/-- The client object of the last client tick that had one. -/
def lastClient (events : List Event) : Option ℕ :=
  events.foldl (fun last e => match e with | .clientTick (some c) => some c | _ => last) none

/-- A tick with another server object than the last one. -/
def ChangesServer (past : List Event) : Event → Prop
  | .serverTick (some gameServer) => lastServer past ≠ some gameServer
  | _ => False

/-- A tick with another client object than the last one. -/
def ChangesClient (past : List Event) : Event → Prop
  | .clientTick (some client) => lastClient past ≠ some client
  | _ => False

/-- A ClientConnect from the peer. -/
def ConnectFrom (peer : ℤ) : Event → Prop
  | .clientConnect user _ _ => peerOf (user.getD kReservedUser) = peer
  | _ => False

/-- A ClientConnect from the peer whose build string carries the signature. -/
def TaggedConnectFrom (peer : ℤ) : Event → Prop
  | .clientConnect user build _ =>
    peerOf (user.getD kReservedUser) = peer ∧ kSignature <:+: build
  | _ => False

/-- An extender hello from the peer. -/
def HelloFrom (peer : ℤ) : Event → Prop
  | .extender true user w _ => peerOf user = peer ∧ w.kind = .hello
  | _ => False

/-- An extender hello from the host. -/
def HelloFromHost : Event → Prop
  | .extender false _ w _ => w.kind = .hello
  | _ => False

/-- A ClientConnect being written. -/
def WritesConnect : Event → Prop
  | .connectSerialize writing _ _ => writing = true
  | _ => False

/-- What makes the server forget nothing about the peer. -/
def KeepsPeer (peer : ℤ) (past : List Event) (e : Event) : Prop :=
  ¬ ConnectFrom peer e ∧ ¬ ChangesServer past e

/-- What makes the client forget nothing about the host. -/
def KeepsHost (past : List Event) (e : Event) : Prop :=
  ¬ WritesConnect e ∧ ¬ ChangesClient past e

/-- The peer's latest ClientConnect under the current server object carried the signature, or the
peer said hello since. -/
def PeerHasExtender (peer : ℤ) : List Event → Prop :=
  Since (KeepsPeer peer) fun _ e => HelloFrom peer e ∨ TaggedConnectFrom peer e

/-- The host said hello since the last ClientConnect was written and the client object last
changed. -/
def HostHasExtender : List Event → Prop := Since KeepsHost fun _ e => HelloFromHost e

/-- Message 400 goes to a peer, or to the host, that has the extender. -/
def Allowed (events : List Event) : Output → Prop
  | .sent true peer _ => PeerHasExtender peer events
  | .sent false _ _ => HostHasExtender events
  | _ => True

/-! ## What the state says -/

/-- The state's own word on an output. -/
def Permits (s : NetState) : Output → Prop
  | .sent true peer _ => peer ∈ s.peerVersions
  | .sent false _ _ => s.hostExtended = true
  | _ => True

theorem eq_of_sendToPeer {engine : Engine} {server : Bool} {peer : ℤ} {bytes : Bytes} {o : Output}
    (h : sendToPeer engine server peer bytes = some o) : o = .sent server peer bytes := by
  unfold sendToPeer at h
  split_ifs at h
  exact (Option.some.inj h).symm

theorem permits_serverSend {s : NetState} {engine : Engine} {peer : ℤ} {bytes : Bytes} {o : Output}
    (h : serverSend s engine peer bytes = some o) : Permits s o := by
  unfold serverSend at h
  split_ifs at h with hserver hpeer
  rw [eq_of_sendToPeer h]
  exact hpeer

theorem permits_serverBroadcast {s : NetState} {engine : Engine} {bytes : Bytes} {exclude : ℤ} :
    ∀ o ∈ serverBroadcast s engine bytes exclude, Permits s o := by
  intro o ho
  unfold serverBroadcast at ho
  split_ifs at ho with hserver
  · simp at ho
  obtain ⟨peer, hpeer, hsent⟩ := List.mem_filterMap.mp ho
  split_ifs at hsent
  rw [eq_of_sendToPeer hsent]
  exact Std.TreeMap.mem_keys.mp (List.mem_filter.mp hpeer).1

theorem permits_clientSend {s : NetState} {engine : Engine} {bytes : Bytes} {o : Output}
    (h : clientSend s engine bytes = some o) : Permits s o := by
  unfold clientSend at h
  split_ifs at h with hclient
  obtain ⟨-, hextended⟩ := not_or.mp hclient
  split at h
  next host _ =>
    split_ifs at h
    rw [eq_of_sendToPeer h]
    simpa [Permits] using hextended
  next => cases h

theorem permits_netPost {s : NetState} {engine : Engine} {client : Bool} {recipient : Recipient}
    {post : Wrapper} : ∀ o ∈ netPost s engine client recipient post, Permits s o := by
  intro o ho
  simp only [netPost] at ho
  split_ifs at ho with hclient
  · split at ho
    next sent hsent =>
      obtain rfl | rfl : o = sent ∨ o = .pushedTrue := by simpa using ho
      · exact permits_clientSend hsent
      · trivial
    next =>
      obtain rfl := List.mem_singleton.mp ho
      trivial
  · cases recipient with
    | broadcast excludeUser =>
      obtain ho | ho := List.mem_append.mp ho
      · exact permits_serverBroadcast o ho
      · obtain rfl := List.mem_singleton.mp ho
        trivial
    | user user =>
      dsimp only at ho
      split at ho
      next sent hsent =>
        obtain rfl | rfl : o = sent ∨ o = .pushedTrue := by simpa using ho
        · exact permits_serverSend hsent
        · trivial
      next =>
        obtain rfl := List.mem_singleton.mp ho
        trivial

theorem permits_netSyncVars {s : NetState} {engine : ℕ → Engine} {client : Bool}
    {vars : List NetUserVar} : ∀ o ∈ netSyncVars s engine client vars, Permits s o := by
  intro o ho
  unfold netSyncVars at ho
  obtain ho | ho := List.mem_append.mp ho
  · obtain ⟨sends, hsends, ho⟩ := List.mem_flatten.mp ho
    obtain ⟨i, hi, rfl⟩ := List.mem_mapIdx.mp hsends
    unfold syncPart at ho
    split_ifs at ho with hclient
    · exact permits_clientSend (Option.mem_toList.mp ho)
    · exact permits_serverBroadcast o ho
  · obtain rfl := List.mem_singleton.mp ho
    trivial

/-- The client's reply to a hello is permitted by the state that the hello leaves. -/
theorem permits_handleExtender {s : NetState} {engine : Engine} {server : Bool} {user : ℤ}
    {w : Wrapper} : ∀ o ∈ (handleExtender s engine server user w).2,
      Permits (handleExtender s engine server user w).1 o := by
  intro o ho
  cases server with
  | true => cases hkind : w.kind <;> simp_all [handleExtender, Permits]
  | false =>
    cases hkind : w.kind with
    | hello =>
      simp only [handleExtender, hkind, Bool.false_eq_true, if_false] at ho ⊢
      exact permits_clientSend (Option.mem_toList.mp ho)
    | _ => simp_all [handleExtender, Permits]

/-- A ClientConnect is answered only when it carries the signature, and to its own peer. -/
theorem onClientConnect_sent {s : NetState} {engine : Engine} {user : Option ℤ} {build : Bytes}
    {o : Output} (ho : o ∈ (onClientConnect s engine user build).2) :
    o = .sent true (peerOf (user.getD kReservedUser)) hello ∧ kSignature <:+: build := by
  simp only [onClientConnect] at ho
  split_ifs at ho with hextender hsignature hserver
  · simp at ho
  · exact ⟨eq_of_sendToPeer (Option.mem_toList.mp ho), hsignature⟩
  · simp at ho
  · simp at ho

/-! ## The state follows the events -/

theorem lastServer_concat (past : List Event) (e : Event) :
    lastServer (past ++ [e]) =
      match e with | .serverTick (some g) => some g | _ => lastServer past := by
  simp only [lastServer, List.foldl_append, List.foldl_cons, List.foldl_nil]

theorem lastClient_concat (past : List Event) (e : Event) :
    lastClient (past ++ [e]) =
      match e with | .clientTick (some c) => some c | _ => lastClient past := by
  simp only [lastClient, List.foldl_append, List.foldl_cons, List.foldl_nil]

/-- The state holds what the events made of it: its objects are the last ones, and whom it takes
to have the extender said hello and was not forgotten since. -/
structure Tracks (events : List Event) (s : NetState) : Prop where
  server : s.server = lastServer events
  client : s.client = lastClient events
  peers : ∀ peer ∈ s.peerVersions, Since (KeepsPeer peer) (fun _ e => HelloFrom peer e) events
  host : s.hostExtended = true → HostHasExtender events

theorem Tracks.init : Tracks [] {} where
  server := rfl
  client := rfl
  peers := by simp
  host := by simp

/-- A peer taken to have the extender just said hello, or was known and is not forgotten. -/
theorem handle_peers {past : List Event} {s : NetState} (hserver : s.server = lastServer past)
    {e : Event} {peer : ℤ} (hpeer : peer ∈ (handle s e).1.peerVersions) :
    HelloFrom peer e ∨ KeepsPeer peer past e ∧ peer ∈ s.peerVersions := by
  cases e with
  | serverTick gameServer =>
    cases gameServer with
    | none => exact .inr ⟨by simp [KeepsPeer, ConnectFrom, ChangesServer], hpeer⟩
    | some g =>
      simp only [handle, netServerTick] at hpeer
      split_ifs at hpeer with hsame
      · refine .inr ⟨⟨by simp [ConnectFrom], ?_⟩, hpeer⟩
        simp [ChangesServer, ← hserver, hsame]
      · simp at hpeer
  -- a connecting user is forgotten first
  | clientConnect user build engine =>
    have herase : peer ∈ s.peerVersions.erase (peerOf (user.getD kReservedUser)) := by
      simp only [handle, onClientConnect] at hpeer
      split_ifs at hpeer <;> exact hpeer
    obtain ⟨hne, hmem⟩ := Std.TreeMap.mem_erase.mp herase
    refine .inr ⟨⟨?_, by simp [ChangesServer]⟩, hmem⟩
    simpa [ConnectFrom] using hne
  | extender server user w engine =>
    have hkeeps : KeepsPeer peer past (.extender server user w engine) := by
      simp [KeepsPeer, ConnectFrom, ChangesServer]
    cases server with
    | false =>
      refine .inr ⟨hkeeps, ?_⟩
      cases hkind : w.kind <;> simpa [handle, handleExtender, hkind] using hpeer
    | true =>
      cases hkind : w.kind with
      -- the only event that adds a peer
      | hello =>
        simp only [handle, handleExtender, hkind, if_true] at hpeer
        obtain hnew | hold := Std.TreeMap.mem_insert.mp hpeer
        · exact .inl ⟨by simpa using hnew, hkind⟩
        · exact .inr ⟨hkeeps, hold⟩
      | _ => exact .inr ⟨hkeeps, by simpa [handle, handleExtender, hkind] using hpeer⟩
  | clientTick client =>
    refine .inr ⟨by simp [KeepsPeer, ConnectFrom, ChangesServer], ?_⟩
    cases client with
    | none => exact hpeer
    | some c =>
      simp only [handle, netClientTick] at hpeer
      split_ifs at hpeer <;> exact hpeer
  | connectSerialize writing build inline =>
    refine .inr ⟨by simp [KeepsPeer, ConnectFrom, ChangesServer], ?_⟩
    cases writing <;> exact hpeer
  | netPost | netSyncVars | netResetRemoteClients =>
    exact .inr ⟨by simp [KeepsPeer, ConnectFrom, ChangesServer], hpeer⟩

/-- A host taken to have the extender just said hello, or was known and is not forgotten. -/
theorem handle_host {past : List Event} {s : NetState} (hclient : s.client = lastClient past)
    {e : Event} (hhost : (handle s e).1.hostExtended = true) :
    HelloFromHost e ∨ KeepsHost past e ∧ s.hostExtended = true := by
  cases e with
  | clientTick client =>
    cases client with
    | none => exact .inr ⟨by simp [KeepsHost, WritesConnect, ChangesClient], hhost⟩
    | some c =>
      simp only [handle, netClientTick] at hhost
      split_ifs at hhost with hsame
      · refine .inr ⟨⟨by simp [WritesConnect], ?_⟩, hhost⟩
        simp [ChangesClient, ← hclient, hsame]
  -- writing a connect message forgets the host
  | connectSerialize writing build inline =>
    cases writing with
    | true => simp [handle, connectSerialize] at hhost
    | false => exact .inr ⟨by simp [KeepsHost, WritesConnect, ChangesClient], hhost⟩
  | extender server user w engine =>
    have hkeeps : KeepsHost past (.extender server user w engine) := by
      simp [KeepsHost, WritesConnect, ChangesClient]
    cases server with
    | true =>
      refine .inr ⟨hkeeps, ?_⟩
      cases hkind : w.kind <;> simpa [handle, handleExtender, hkind] using hhost
    | false =>
      cases hkind : w.kind with
      -- the only event that makes it known
      | hello => exact .inl hkind
      | _ => exact .inr ⟨hkeeps, by simpa [handle, handleExtender, hkind] using hhost⟩
  | serverTick gameServer =>
    refine .inr ⟨by simp [KeepsHost, WritesConnect, ChangesClient], ?_⟩
    cases gameServer with
    | none => exact hhost
    | some g =>
      simp only [handle, netServerTick] at hhost
      split_ifs at hhost <;> exact hhost
  | clientConnect user build engine =>
    refine .inr ⟨by simp [KeepsHost, WritesConnect, ChangesClient], ?_⟩
    simp only [handle, onClientConnect] at hhost
    split_ifs at hhost <;> exact hhost
  | netPost | netSyncVars | netResetRemoteClients =>
    exact .inr ⟨by simp [KeepsHost, WritesConnect, ChangesClient], hhost⟩

theorem handle_server {past : List Event} {s : NetState} (hserver : s.server = lastServer past)
    (e : Event) : (handle s e).1.server = lastServer (past ++ [e]) := by
  rw [lastServer_concat]
  cases e with
  | serverTick gameServer =>
    cases gameServer with
    | none => exact hserver
    | some g =>
      simp only [handle, netServerTick]
      split_ifs with hsame
      · exact hsame
      · rfl
  | clientTick client =>
    cases client with
    | none => exact hserver
    | some c =>
      simp only [handle, netClientTick]
      split_ifs <;> exact hserver
  | clientConnect user build engine =>
    simp only [handle, onClientConnect]
    split_ifs <;> exact hserver
  | extender server user w engine =>
    cases server <;> cases hkind : w.kind <;> simpa [handle, handleExtender, hkind] using hserver
  | connectSerialize writing build inline => cases writing <;> exact hserver
  | netPost | netSyncVars | netResetRemoteClients => exact hserver

theorem handle_client {past : List Event} {s : NetState} (hclient : s.client = lastClient past)
    (e : Event) : (handle s e).1.client = lastClient (past ++ [e]) := by
  rw [lastClient_concat]
  cases e with
  | clientTick client =>
    cases client with
    | none => exact hclient
    | some c =>
      simp only [handle, netClientTick]
      split_ifs with hsame
      · exact hsame
      · rfl
  | serverTick gameServer =>
    cases gameServer with
    | none => exact hclient
    | some g =>
      simp only [handle, netServerTick]
      split_ifs <;> exact hclient
  | clientConnect user build engine =>
    simp only [handle, onClientConnect]
    split_ifs <;> exact hclient
  | extender server user w engine =>
    cases server <;> cases hkind : w.kind <;> simpa [handle, handleExtender, hkind] using hclient
  | connectSerialize writing build inline => cases writing <;> exact hclient
  | netPost | netSyncVars | netResetRemoteClients => exact hclient

theorem Tracks.handle {past : List Event} {s : NetState} (h : Tracks past s) (e : Event) :
    Tracks (past ++ [e]) (handle s e).1 where
  server := handle_server h.server e
  client := handle_client h.client e
  peers peer hpeer := by
    rcases handle_peers h.server hpeer with hhello | ⟨hkeeps, hmem⟩
    · exact .start hhello
    · exact .keep hkeeps (h.peers peer hmem)
  host hhost := by
    rcases handle_host h.client hhost with hhello | ⟨hkeeps, hmem⟩
    · exact .start hhello
    · exact .keep hkeeps (h.host hmem)

theorem after_concat (past : List Event) (e : Event) :
    after (past ++ [e]) = (handle (after past) e).1 := by
  simp [after]

theorem tracks_after (events : List Event) : Tracks events (after events) := by
  induction events using List.reverseRecOn with
  | nil => exact .init
  | append_singleton past e ih =>
    rw [after_concat]
    exact ih.handle e

theorem Tracks.allowed {events : List Event} {s : NetState} (h : Tracks events s) {o : Output}
    (hpermits : Permits s o) : Allowed events o := by
  cases o with
  | sent server peer bytes =>
    cases server with
    | true => exact (h.peers peer hpermits).imp fun _ _ => .inl
    | false => exact h.host hpermits
  | _ => trivial

/-- Every event's outputs are permitted by the state it leaves, or answer its own tagged
ClientConnect. -/
theorem handle_permits (s : NetState) (e : Event) :
    ∀ o ∈ (handle s e).2, Permits (handle s e).1 o ∨
      ∃ peer bytes, o = .sent true peer bytes ∧ TaggedConnectFrom peer e := by
  intro o ho
  cases e with
  | serverTick | clientTick => simp [handle] at ho
  | clientConnect user build engine =>
    obtain ⟨hsent, hsignature⟩ := onClientConnect_sent ho
    exact .inr ⟨_, _, hsent, rfl, hsignature⟩
  | extender server user w engine => exact .inl (permits_handleExtender o ho)
  | connectSerialize writing build inline =>
    cases writing with
    | true =>
      obtain rfl := List.mem_singleton.mp ho
      exact .inl trivial
    | false => simp [handle, connectSerialize] at ho
  | netPost client recipient post engine => exact .inl (permits_netPost o ho)
  | netSyncVars client vars engine => exact .inl (permits_netSyncVars o ho)
  | netResetRemoteClients engine => exact .inl (permits_serverBroadcast o ho)

/-- After any events, an event sends message 400 only to a peer, or to the host, that has shown
it has the extender. -/
theorem message400_allowed (past : List Event) (e : Event) :
    ∀ o ∈ (handle (after past) e).2, Allowed (past ++ [e]) o := by
  intro o ho
  rcases handle_permits (after past) e o ho with hpermits | ⟨peer, bytes, rfl, htagged⟩
  · exact ((tracks_after past).handle e).allowed hpermits
  · exact .start (.inr htagged)

/-- A post to the peer that said hello goes out. -/
theorem message400_allowed_post :
    let past : List Event :=
      [.serverTick (some 1), .extender true 0x20001 { kind := .hello, version := 2 } {}]
    let post : Event := .netPost false (.user 0x20001) { kind := .postLua } {}
    ∃ bytes, .sent true 2 bytes ∈ (handle (after past) post).2 ∧
      Allowed (past ++ [post]) (.sent true 2 bytes) :=
  ⟨_, List.mem_cons_self, message400_allowed _ _ _ List.mem_cons_self⟩

end Net
end Bg3le
