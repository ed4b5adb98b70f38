import Arbor.Network.Peer
import Arbor.Network.Protocol

/-!
# The network service

The service stands between the transport and the node: it performs the handshake with every
peer that connects, checks what arrives, and keeps the application identifier of every
request it has sent until the transport reports its response or its failure.

The transport (rust-libp2p) is not part of the repository.  Of the swarm the model has what
the service and its callers can tell: requests sent get identifiers never used before, stay
outstanding until the swarm reports exactly one response or failure for them, and responses
sent are recorded.  Dialling, disconnecting, address books, counters and gossip topics have
no part in any result here and are left out.
-/

namespace Arbor

open Result

abbrev OutboundRequestId := Nat

instance instTransOrdOutbound : Std.TransOrd OutboundRequestId := inferInstance
instance instLawfulEqOrdOutbound : Std.LawfulEqOrd OutboundRequestId := inferInstance

/-- The way back to a request received; it may be closed by the time it is used. -/
structure ResponseChannel where
  isOpen : Bool
  deriving DecidableEq

structure Swarm where
  nextOutbound : OutboundRequestId
  outstanding : BTreeMap OutboundRequestId (PeerId × RequestEnvelope)
  responses : List (PeerId × ResponseEnvelope)

inductive DirectEvent where
  | request (peer : PeerId) (request : RequestEnvelope) (channel : ResponseChannel)
  | response (peer : PeerId) (requestId : OutboundRequestId) (response : ResponseEnvelope)
  | outboundFailure (peer : PeerId) (requestId : OutboundRequestId) (error : String)
  | inboundFailure (peer : PeerId)
  | responseSent (peer : PeerId)

inductive SwarmEvent where
  | newListenAddr (address : String)
  | connectionEstablished (peer : PeerId)
  | connectionClosed (peer : PeerId) (numEstablished : U32)
  | direct (event : DirectEvent)
  | gossip (propagationSource : PeerId) (data : Bytes)
  | ping (peer : PeerId) (succeeded : Bool)
  | outgoingConnectionError (peer : PeerId) (error : String)
  /-- Identify, Kademlia and all other events: the service keeps no state of them. -/
  | other

namespace Swarm

def new : Swarm := ⟨1, ∅, []⟩

def sendRequest (swarm : Swarm) (peer : PeerId) (envelope : RequestEnvelope) : Swarm :=
  { swarm with
    nextOutbound := swarm.nextOutbound + 1
    outstanding := swarm.outstanding.insert swarm.nextOutbound (peer, envelope) }

/-- An event leaves the swarm; the request it ends is no longer outstanding. -/
def delivered (swarm : Swarm) : SwarmEvent → Swarm
  | .direct (.response _ requestId _) =>
    { swarm with outstanding := swarm.outstanding.erase requestId }
  | .direct (.outboundFailure _ requestId _) =>
    { swarm with outstanding := swarm.outstanding.erase requestId }
  | _ => swarm

/-- A request sent to a peer is outstanding. -/
def Awaits (swarm : Swarm) (requestId : OutboundRequestId) (peer : PeerId) : Prop :=
  ∃ envelope, swarm.outstanding[requestId]? = some (peer, envelope)

/-- What the transport guarantees: a response or a failure ends an outstanding request, and
comes from the peer it was sent to. -/
def Delivers (swarm : Swarm) : SwarmEvent → Prop
  | .direct (.response peer requestId _) => swarm.Awaits requestId peer
  | .direct (.outboundFailure peer requestId _) => swarm.Awaits requestId peer
  | _ => True

end Swarm

structure InboundRequest where
  peer : PeerId
  requestId : U64
  request : DirectRequest
  channel : ResponseChannel

/-- Events handed to the node, after transport and handshake validation. -/
inductive NetworkEvent where
  | listening (address : String)
  | peerDiscovered (peer : PeerId) (address : String)
  | peerDisconnected (peer : PeerId)
  | peerAuthenticated (peer : PeerId) (handshake : Handshake)
  | peerRejected (peer : PeerId) (reason : String)
  | gossip (peer : PeerId) (message : GossipMessage)
  | request (inbound : InboundRequest)
  | response (peer : PeerId) (requestId : U64) (response : DirectResponse)
  | requestFailed (peer : PeerId) (requestId : Option U64) (reason : String)

inductive NetworkError where
  | protocol (reason : String)
  | unauthenticatedPeer (peer : PeerId)
  | peerPolicy (peer : PeerId)
  | unsupportedCapability (peer : PeerId) (capability : Capability)
  | responseChannel
  deriving DecidableEq

structure NetworkService where
  swarm : Swarm
  handshake : Handshake
  authenticated : BTreeMap PeerId Handshake
  connected : BTreeSet PeerId
  /-- The application identifier of every request sent and not yet answered. -/
  pending : BTreeMap OutboundRequestId U64
  nextRequestId : U64
  peerBook : PeerBook

def requiredCapability : DirectRequest → Option Capability
  | .handshake | .status => none
  | .headers .. | .blockBodies .. | .blocks .. => some .blockSync
  | .snapshotManifest .. | .snapshotChunk .. => some .stateSync
  | .domainHistory .. => some .domainHistory
  | .consensus .. => some .consensusDirect

namespace NetworkService

def new (handshake : Handshake) : NetworkService where
  swarm := .new
  handshake
  authenticated := ∅
  connected := ∅
  pending := ∅
  nextRequestId := 1
  peerBook := {}

/-! ## Requests and responses -/

/-- The identifier of the next request; it is never zero. -/
def requestId (service : NetworkService) : U64 :=
  if service.nextRequestId = 0 then 1 else service.nextRequestId

def checkCapability (service : NetworkService) (peer : PeerId) (request : DirectRequest) :
    Except NetworkError Unit :=
  match requiredCapability request with
  | none => .ok ()
  | some capability =>
    rejectIf ((service.authenticated[peer]?.map (·.supports capability)).getD false = false)
      (.unsupportedCapability peer capability)

def sent (service : NetworkService) (peer : PeerId) (request : DirectRequest) : NetworkService :=
  { service with
    swarm := service.swarm.sendRequest peer ⟨service.requestId, service.handshake, request⟩
    pending := service.pending.insert service.swarm.nextOutbound service.requestId
    nextRequestId := saturatingSucc service.requestId }

def request (service : NetworkService) (peer : PeerId) (request : DirectRequest) :
    Except NetworkError (U64 × NetworkService) := do
  rejectIf (request ≠ .handshake ∧ peer ∉ service.authenticated) (.unauthenticatedPeer peer)
  service.checkCapability peer request
  rejectIf (service.peerBook.disposition peer ≠ .accepted) (.peerPolicy peer)
  request.validate.mapError .protocol
  return (service.requestId, service.sent peer request)

/-- Sends a response; nothing goes out on a closed channel. -/
def sendResponse (service : NetworkService) (peer : PeerId) (channel : ResponseChannel)
    (envelope : ResponseEnvelope) : NetworkService :=
  if channel.isOpen then
    { service with swarm := { service.swarm with
        responses := service.swarm.responses ++ [(peer, envelope)] } }
  else service

def respond (service : NetworkService) (inbound : InboundRequest) (response : DirectResponse) :
    Except NetworkError NetworkService := do
  response.validateTransport.mapError .protocol
  rejectIf (inbound.channel.isOpen = false) .responseChannel
  return service.sendResponse inbound.peer inbound.channel ⟨inbound.requestId, response⟩

/-! ## Events -/

/-- Records a peer's handshake; returns whether the peer is new. -/
def authenticate (service : NetworkService) (peer : PeerId) (handshake : Handshake) :
    Bool × NetworkService :=
  (decide (peer ∉ service.authenticated),
    { service with
      authenticated := service.authenticated.insert peer handshake
      peerBook := service.peerBook.reward peer })

def rejectPeer (service : NetworkService) (peer : PeerId) : NetworkService :=
  { service with
    peerBook := service.peerBook.identityMismatch peer
    authenticated := service.authenticated.erase peer }

/-- The event of a peer that has just been authenticated. -/
def announced (peer : PeerId) (handshake : Handshake) (result : Bool × NetworkService) :
    Option NetworkEvent × NetworkService :=
  (if result.1 then some (.peerAuthenticated peer handshake) else none, result.2)

def handleInboundRequest (service : NetworkService) (peer : PeerId) (envelope : RequestEnvelope)
    (channel : ResponseChannel) : Option NetworkEvent × NetworkService :=
  match envelope.validate service.handshake with
  | .error error => (some (.peerRejected peer error.display), service.rejectPeer peer)
  | .ok () =>
    if service.peerBook.disposition peer ≠ .accepted then
      (none, service.sendResponse peer channel ⟨envelope.requestId, .rejected 429⟩)
    else
      let result := service.authenticate peer envelope.handshake
      if envelope.request = .handshake then
        announced peer envelope.handshake (result.1, result.2.sendResponse peer channel
          ⟨envelope.requestId, .handshakeAccepted service.handshake⟩)
      else
        (some (.request ⟨peer, envelope.requestId, envelope.request, channel⟩), result.2)

def handleHandshake (service : NetworkService) (peer : PeerId) (remote : Handshake) :
    Option NetworkEvent × NetworkService :=
  match remote.validateAgainst service.handshake with
  | .error error => (some (.peerRejected peer error.display), service.rejectPeer peer)
  | .ok () => announced peer remote (service.authenticate peer remote)

def handleInboundResponse (service : NetworkService) (peer : PeerId)
    (requestId : OutboundRequestId) (envelope : ResponseEnvelope) :
    Option NetworkEvent × NetworkService :=
  let expected := service.pending[requestId]?
  let service := { service with pending := service.pending.erase requestId }
  if expected ≠ some envelope.requestId then
    (none, { service with peerBook := service.peerBook.malformed peer })
  else
    match envelope.response.validateTransport with
    | .error reason =>
      (some (.peerRejected peer reason),
        { service with peerBook := service.peerBook.malformed peer })
    | .ok () =>
      match envelope.response with
      | .handshakeAccepted remote => service.handleHandshake peer remote
      | response => (some (.response peer envelope.requestId response),
        { service with peerBook := service.peerBook.reward peer })

def handleDirectEvent (service : NetworkService) :
    DirectEvent → Option NetworkEvent × NetworkService
  | .request peer envelope channel => service.handleInboundRequest peer envelope channel
  | .response peer requestId envelope => service.handleInboundResponse peer requestId envelope
  | .outboundFailure peer requestId error =>
    (some (.requestFailed peer service.pending[requestId]? error),
      { service with
        pending := service.pending.erase requestId
        peerBook := service.peerBook.timeout peer })
  | .inboundFailure peer => (none, { service with peerBook := service.peerBook.timeout peer })
  | .responseSent peer => (none, { service with peerBook := service.peerBook.reward peer })

def handleGossip (service : NetworkService) (peer : PeerId) (bytes : Bytes) :
    Option NetworkEvent × NetworkService :=
  if peer ∉ service.authenticated ∨ service.peerBook.disposition peer ≠ .accepted then
    (none, service)
  else
    match (do
      let message ← GossipMessage.decodeGossip bytes
      message.validate
      return message : Except String GossipMessage) with
    | .ok message => (some (.gossip peer message), service)
    | .error _ => (none, { service with peerBook := service.peerBook.malformed peer })

/-- A peer has connected: it is asked for its handshake, unless it is banned or throttled. -/
def handleConnected (service : NetworkService) (peer : PeerId) : NetworkService :=
  let service := { service with connected := service.connected.insert peer }
  if service.peerBook.disposition peer = .banned then service
  else
    match service.request peer .handshake with
    | .ok (_, service) => service
    | .error _ => service

def handleSwarmEvent (service : NetworkService) : SwarmEvent → Option NetworkEvent × NetworkService
  | .newListenAddr address => (some (.listening address), service)
  | .connectionEstablished peer => (none, service.handleConnected peer)
  | .connectionClosed peer numEstablished =>
    if 0 < numEstablished then (none, service)
    else (some (.peerDisconnected peer),
      { service with
        connected := service.connected.erase peer
        authenticated := service.authenticated.erase peer })
  | .direct event => service.handleDirectEvent event
  | .gossip propagationSource data => service.handleGossip propagationSource data
  | .ping peer succeeded =>
    (none, if succeeded then service else
      { service with peerBook := service.peerBook.timeout peer })
  | .outgoingConnectionError peer error =>
    (some (.requestFailed peer none error),
      { service with peerBook := service.peerBook.timeout peer })
  | .other => (none, service)

/-- The swarm hands an event to the service. -/
def receive (service : NetworkService) (event : SwarmEvent) :
    Option NetworkEvent × NetworkService :=
  { service with swarm := service.swarm.delivered event }.handleSwarmEvent event

end NetworkService

end Arbor
