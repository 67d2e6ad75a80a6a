import Mathlib.Data.List.Infix
import Std.Data.TreeMap.Lemmas
import Bg3le.Net.SyncVars

/-!
# Who is sent message 400: the peers and the host of `src/net.cpp`

The extender's state on both sides of a connection, the handlers that change it and the paths
that send. `NetForceRemote` is left off.
-/

namespace Bg3le
namespace Net

/-- `kReservedUser`: `(int32_t)0xFFFF0000`. -/
def kReservedUser : ℤ := -0x10000

def kVersionInitial : UInt32 := 1
def kVersionCurrent : UInt32 := 2

/-- `kSignature`, at the end of the build string of a client with the extender. -/
def kSignature : Bytes := bytes " Extender_0"

/-- `NetInbound`: what a handler hands to Lua. -/
inductive NetInbound where
  | post (channel payload module : Bytes) (user : ℤ) (requestId replyId : UInt32) (binary : Bool)
  | userVars (user : ℤ) (vars : List NetUserVar)
  | resetLua

/-- `inbound_post`. -/
def inboundPost (w : Wrapper) (user : ℤ) : NetInbound :=
  .post w.channel w.payload w.module user w.requestId w.replyId w.binary

/-- What a handler does besides changing the state. -/
inductive Output where
  /-- Message 400 with these bytes, from the game server (or the game client) to the peer. -/
  | sent (server : Bool) (peer : ℤ) (bytes : Bytes)
  /-- `lua_net_deliver`. -/
  | delivered (server : Bool) (inbound : NetInbound)
  /-- `statusf`. -/
  | status (text : Bytes)
  /-- The build string that a ClientConnect is written with. -/
  | connectBuild (build : Option Bytes)
  /-- What a Lua function returns: true, false and why, or a count. -/
  | pushedTrue
  | pushedFalse (why : String)
  | pushedCount (count : ℕ)

/-- What the engine's objects answer while a handler sends: `kServerLocalPeer` and
`kClientHostPeer` where they can be read, the server's active peers, and whether `send_to_peer`
sends. -/
structure Engine where
  localPeer : Option ℤ := none
  hostPeer : Option ℤ := none
  active : ℤ → Bool := fun _ => true
  sends : ℤ → Bool := fun _ => true

structure NetState where
  /-- `g_server` and `g_peer_versions`. -/
  server : Option ℕ := none
  peerVersions : Std.TreeMap ℤ UInt32 := ∅
  /-- `g_client`, `g_host_extended` and `g_host_version`. -/
  client : Option ℕ := none
  hostExtended : Bool := false
  hostVersion : UInt32 := kVersionInitial

/-! ## Sending -/

/-- `peer_of`: the upper half of the 32-bit user ID. -/
def peerOf (user : ℤ) : ℤ := user % 2 ^ 32 / 2 ^ 16

/-- `local_peer`. -/
def localPeer (engine : Engine) : ℤ :=
  match engine.localPeer with
  | some id => if 0 < id ∧ id < 0x10000 then id else 1
  | none => 1

/-- `send_to_peer`, of the game server or the game client: what it sends, if it does. -/
def sendToPeer (engine : Engine) (server : Bool) (peer : ℤ) (bytes : Bytes) : Option Output :=
  if engine.sends peer then some (.sent server peer bytes) else none

/-- `server_send`. -/
def serverSend (s : NetState) (engine : Engine) (peer : ℤ) (bytes : Bytes) : Option Output :=
  if s.server = none then none
  else if peer ∉ s.peerVersions then none
  else sendToPeer engine true peer bytes

/-- `server_broadcast`; its count is the length. -/
def serverBroadcast (s : NetState) (engine : Engine) (bytes : Bytes) (excludePeer : ℤ) :
    List Output :=
  if s.server = none then []
  else
    let peers := s.peerVersions.keys.filter fun peer =>
      peer ≠ localPeer engine ∧ peer ≠ excludePeer
    peers.filterMap fun peer =>
      if engine.active peer then sendToPeer engine true peer bytes else none

/-- `client_send`. -/
def clientSend (s : NetState) (engine : Engine) (bytes : Bytes) : Option Output :=
  if s.client = none ∨ s.hostExtended = false then none
  else
    match engine.hostPeer with
    | some host => if host < 0 then none else sendToPeer engine false host bytes
    | none => none

/-- The hello of either side. -/
def hello : Bytes := encode { kind := .hello, version := kVersionCurrent }

/-! ## Receiving -/

/-- `handle_extender`, on a message that decoded. -/
def handleExtender (s : NetState) (engine : Engine) (server : Bool) (user : ℤ) (w : Wrapper) :
    NetState × List Output :=
  if server then
    match w.kind with
    | .postLua => (s, [.delivered true (inboundPost w user)])
    | .hello => ({ s with peerVersions := s.peerVersions.insert (peerOf user) w.version }, [])
    | .userVars => (s, [.delivered true (.userVars user w.vars)])
    | .resetLua | .kick =>
      (s, [.status (bytes "ERROR: net: unknown extension message type "
        ++ bytes (toString w.kind.number) ++ bytes " received")])
  else
    match w.kind with
    | .postLua => (s, [.delivered false (inboundPost w kReservedUser)])
    | .hello =>
      let s := { s with hostVersion := w.version, hostExtended := true }
      (s, (clientSend s engine hello).toList)
    | .resetLua => (s, [.delivered false .resetLua])
    | .kick => (s, [.status (bytes "ERROR: the host disconnected this client: " ++ w.kick)])
    | .userVars => (s, [.delivered false (.userVars kReservedUser w.vars)])

/-- `on_client_connect`; `user` is none where the context cannot be read. The peer is forgotten
first. -/
def onClientConnect (s : NetState) (engine : Engine) (user : Option ℤ) (build : Bytes) :
    NetState × List Output :=
  let peer := peerOf (user.getD kReservedUser)
  let s := { s with peerVersions := s.peerVersions.erase peer }
  if ¬ bytes " Extender" <:+: build then (s, [])
  else if ¬ kSignature <:+: build then (s, [])
  else if s.server = none then (s, [])
  else (s, (sendToPeer engine true peer hello).toList)

/-- `connect_serialize_hook`: `build` is the build string where it can be read, and `inline`
whether it is stored in the message itself. -/
def connectSerialize (s : NetState) (writing : Bool) (build : Option Bytes) (inline : Bool) :
    NetState × List Output :=
  if writing then
    let tagged := build.map fun text =>
      if ¬ bytes " Extender" <:+: text ∧ inline ∧ (text ++ kSignature).length ≤ 15 then
        text ++ kSignature
      else text
    ({ s with hostExtended := false, hostVersion := kVersionInitial }, [.connectBuild tagged])
  else (s, [])

/-! ## The ticks -/

/-- `net_server_tick`. -/
def netServerTick (s : NetState) : Option ℕ → NetState
  | none => s
  | some gameServer =>
    if s.server = some gameServer then s
    else { s with server := some gameServer, peerVersions := ∅ }

/-- `net_client_tick`, with the client it finds. -/
def netClientTick (s : NetState) : Option ℕ → NetState
  | none => s
  | some client =>
    if s.client = some client then s
    else { s with client := some client, hostExtended := false, hostVersion := kVersionInitial }

/-! ## Lua -/

/-- To whom the server's Lua posts: every remote peer but the excluded user's, or one user. -/
inductive Recipient where
  | broadcast (excludeUser : Option ℤ)
  | user (user : ℤ)

/-- `(int)user`. -/
def toInt32 (user : ℤ) : ℤ := (user + 2 ^ 31) % 2 ^ 32 - 2 ^ 31

/-- `l_net_post`. -/
def netPost (s : NetState) (engine : Engine) (client : Bool) (recipient : Recipient) (post : Wrapper) :
    List Output :=
  let bytes := encode { post with kind := .postLua }
  if client then
    match clientSend s engine bytes with
    | some sent => [sent, .pushedTrue]
    | none =>
      [.pushedFalse ("Attempted to send extender message to a host"
        ++ " that does not understand extender protocol!")]
  else
    match recipient with
    | .broadcast excludeUser =>
      serverBroadcast s engine bytes ((excludeUser.map peerOf).getD (-1)) ++ [.pushedTrue]
    | .user user =>
      match serverSend s engine (peerOf user) bytes with
      | some sent => [sent, .pushedTrue]
      | none =>
        [.pushedFalse ("Attempted to send extender message to user " ++ toString (toInt32 user)
          ++ " that does not understand extender protocol!")]

/-- What `l_net_sync_vars` sends for one part. -/
def syncPart (s : NetState) (engine : Engine) (client : Bool) (part : List NetUserVar) :
    List Output :=
  if client then (clientSend s engine (encodePart part)).toList
  else serverBroadcast s engine (encodePart part) (-1)

/-- `l_net_sync_vars`, with what the engine answers for each part. -/
def netSyncVars (s : NetState) (engine : ℕ → Engine) (client : Bool) (vars : List NetUserVar) :
    List Output :=
  let sends := (splitVars vars).mapIdx fun i part => syncPart s (engine i) client part
  sends.flatten ++ [.pushedCount (sends.countP (· ≠ []))]

/-- `net_reset_remote_clients`. -/
def netResetRemoteClients (s : NetState) (engine : Engine) : List Output :=
  serverBroadcast s engine (encode { kind := .resetLua, bootstrap := true }) (-1)

/-! ## Events -/

inductive Event where
  | serverTick (gameServer : Option ℕ)
  | clientTick (client : Option ℕ)
  | clientConnect (user : Option ℤ) (build : Bytes) (engine : Engine)
  | extender (server : Bool) (user : ℤ) (w : Wrapper) (engine : Engine)
  | connectSerialize (writing : Bool) (build : Option Bytes) (inline : Bool)
  | netPost (client : Bool) (recipient : Recipient) (post : Wrapper) (engine : Engine)
  | netSyncVars (client : Bool) (vars : List NetUserVar) (engine : ℕ → Engine)
  | netResetRemoteClients (engine : Engine)

/-- One event, handled as one step. -/
def handle (s : NetState) : Event → NetState × List Output
  | .serverTick gameServer => (netServerTick s gameServer, [])
  | .clientTick client => (netClientTick s client, [])
  | .clientConnect user build engine => onClientConnect s engine user build
  | .extender server user w engine => handleExtender s engine server user w
  | .connectSerialize writing build inline => connectSerialize s writing build inline
  | .netPost client recipient post engine => (s, netPost s engine client recipient post)
  | .netSyncVars client vars engine => (s, netSyncVars s engine client vars)
  | .netResetRemoteClients engine => (s, netResetRemoteClients s engine)

/-- The state after the events, from the start. -/
def after (events : List Event) : NetState := events.foldl (fun s e => (handle s e).1) {}

end Net
end Bg3le
