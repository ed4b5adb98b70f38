import Arbor.Chain.Block

/-!
# The direct protocol

Peers exchange requests and responses over authenticated streams.  Every request carries
the sender's handshake, which binds it to one network, genesis and set of versions; every
response carries the identifier of its request.  Both sides check what they receive against
fixed limits before any other code sees it.  A wire hash is the 32-byte word it holds.
-/

namespace Arbor

open Result

def DIRECT_PROTOCOL_VERSION : U16 := 1
def MAX_DIRECT_REQUEST_BYTES : Nat := 2 * 1024 * 1024
def MAX_DIRECT_RESPONSE_BYTES : Nat := MAX_CONSENSUS_BLOCK_BYTES + 2 * 1024 * 1024
def MAX_SNAPSHOT_CHUNK_BYTES : Nat := 8 * 1024 * 1024
/-- A canonical block may fill a response, so bodies are sent one at a time. -/
def MAX_BLOCKS_PER_RESPONSE : Nat := 1
def MAX_HEADERS_PER_RESPONSE : Nat := 64
def MAX_HISTORY_ITEMS : Nat := 1024
def MAX_CONSENSUS_MESSAGE_BYTES : Nat := 1024 * 1024

inductive NodeRole where
  | validator
  | full
  | light
  deriving DecidableEq

/-- Independently negotiable capability, in the order in which lists of them are sorted. -/
inductive Capability where
  | transactionGossip
  | finalizedGossip
  | blockSync
  | stateSync
  | domainHistory
  | consensusDirect
  deriving DecidableEq

namespace Capability

def rank : Capability → Nat
  | transactionGossip => 0
  | finalizedGossip => 1
  | blockSync => 2
  | stateSync => 3
  | domainHistory => 4
  | consensusDirect => 5

def all : List Capability :=
  [transactionGossip, finalizedGossip, blockSync, stateSync, domainHistory, consensusDirect]

end Capability

structure Handshake where
  networkId : B256
  genesisHash : B256
  protocolVersion : U32
  codecVersion : U8
  directProtocolVersion : U16
  /-- Descriptive only. -/
  role : NodeRole
  capabilities : List Capability
  maxFrameBytes : U32
  deriving DecidableEq

inductive HandshakeError where
  | network
  | genesis
  | protocolVersion
  | codecVersion
  | directProtocolVersion
  | frameLimit
  | capabilities
  deriving DecidableEq

def HandshakeError.display : HandshakeError → String
  | network => "network id mismatch"
  | genesis => "genesis hash mismatch"
  | protocolVersion => "protocol version mismatch"
  | codecVersion => "codec version mismatch"
  | directProtocolVersion => "direct protocol version mismatch"
  | frameLimit => "invalid direct frame limit"
  | capabilities => "capabilities are not canonical"

namespace Handshake

/-- The local handshake; its capabilities are sorted and listed once. -/
def new (networkId : NetworkId) (genesisHash : B256) (role : NodeRole)
    (capabilities : List Capability) : Handshake where
  networkId
  genesisHash
  protocolVersion := PROTOCOL_VERSION
  codecVersion := CANONICAL_CODEC_VERSION
  directProtocolVersion := DIRECT_PROTOCOL_VERSION
  role
  capabilities := Capability.all.filter (· ∈ capabilities)
  maxFrameBytes := BitVec.ofNat 32 (min MAX_DIRECT_RESPONSE_BYTES (2 ^ 32 - 1))

def validateAgainst (remote own : Handshake) : Except HandshakeError Unit := do
  rejectIf (remote.networkId ≠ own.networkId) .network
  rejectIf (remote.genesisHash ≠ own.genesisHash) .genesis
  rejectIf (remote.protocolVersion ≠ own.protocolVersion) .protocolVersion
  rejectIf (remote.codecVersion ≠ own.codecVersion) .codecVersion
  rejectIf (remote.directProtocolVersion ≠ own.directProtocolVersion) .directProtocolVersion
  rejectIf (remote.maxFrameBytes = 0 ∨ MAX_DIRECT_RESPONSE_BYTES < remote.maxFrameBytes.toNat)
    .frameLimit
  rejectIf (¬(remote.capabilities.map Capability.rank).IsChain (· < ·)) .capabilities

/-- Whether a capability is advertised.  The source searches the list, which is sorted in
every handshake that passed its check. -/
def supports (handshake : Handshake) (capability : Capability) : Bool :=
  handshake.capabilities.contains capability

end Handshake

/-- Finalized status, exchanged before a sync path is chosen. -/
structure SyncStatus where
  height : U64
  consensusHash : B256
  domainHeadsRoot : B256
  /-- Latest checkpoint snapshot the peer offers, or zero. -/
  checkpointHeight : U64
  deriving DecidableEq

structure FinalizedBlock where
  height : U64
  block : Bytes
  finalityProof : Bytes
  deriving DecidableEq

/-- An encoded consensus header with its finality proof. -/
structure FinalizedHeader where
  height : U64
  header : Bytes
  finalityProof : Bytes
  deriving DecidableEq

structure BlockBody where
  height : U64
  block : Bytes
  deriving DecidableEq

def FinalizedBlock.validateTransport (finalized : FinalizedBlock) : Except String Unit := do
  rejectIf (finalized.block = [] ∨ MAX_CONSENSUS_BLOCK_BYTES < finalized.block.length)
    "invalid finalized block bytes"
  rejectIf (MAX_CONSENSUS_MESSAGE_BYTES < finalized.finalityProof.length)
    "finality proof exceeds limit"

/-! ## Requests -/

inductive DirectRequest where
  | handshake
  | status
  | headers (startHeight : U64) (limit : U16)
  | blockBodies (heights : List U64)
  | blocks (startHeight : U64) (limit : U16)
  | snapshotManifest (checkpointHeight : U64)
  | snapshotChunk (checkpointHeight : U64) (domainId : DomainId) (index : U32)
  | domainHistory (domainId : DomainId) (startNumber : U64) (limit : U16)
  | consensus (kind : U8) (payload : Bytes)
  deriving DecidableEq

/-- The limit of a request is positive and within a bound. -/
def DirectRequest.checkLimit (limit : U16) (bound : Nat) (reason : String) : Except String Unit :=
  rejectIf (limit = 0 ∨ bound < limit.toNat) reason

def DirectRequest.validate : DirectRequest → Except String Unit
  | blocks _ limit => checkLimit limit MAX_BLOCKS_PER_RESPONSE "invalid block request limit"
  | headers _ limit => checkLimit limit MAX_HEADERS_PER_RESPONSE "invalid header request limit"
  | blockBodies heights =>
    rejectIf (heights = [] ∨ MAX_BLOCKS_PER_RESPONSE < heights.length ∨
      ¬(heights.map BitVec.toNat).IsChain (· < ·)) "invalid block body heights"
  | domainHistory _ _ limit => checkLimit limit MAX_HISTORY_ITEMS "invalid history request limit"
  | consensus kind payload =>
    rejectIf (kind = 0 ∨ MAX_CONSENSUS_MESSAGE_BYTES < payload.length)
      "invalid consensus direct payload"
  | _ => .ok ()

structure RequestEnvelope where
  requestId : U64
  handshake : Handshake
  request : DirectRequest
  deriving DecidableEq

inductive EnvelopeError where
  | handshake (error : HandshakeError)
  | request (reason : String)
  deriving DecidableEq

def EnvelopeError.display : EnvelopeError → String
  | handshake error => error.display
  | request reason => "invalid direct request: " ++ reason

def RequestEnvelope.validate (envelope : RequestEnvelope) (own : Handshake) :
    Except EnvelopeError Unit := do
  rejectIf (envelope.requestId = 0) (.request "request id is zero")
  (envelope.handshake.validateAgainst own).mapError .handshake
  envelope.request.validate.mapError .request

/-! ## Responses -/

inductive DirectResponse where
  | handshakeAccepted (remote : Handshake)
  | status (remote : SyncStatus)
  | headers (headers : List FinalizedHeader)
  | blockBodies (bodies : List BlockBody)
  | blocks (blocks : List FinalizedBlock)
  | snapshotManifest (bytes : Bytes)
  | snapshotChunk (bytes : Bytes)
  | domainHistory (items : List Bytes)
  | consensusAccepted
  | rejected (code : U16)
  deriving DecidableEq

namespace DirectResponse

/-- Checks a list by its length, item by item and by its bytes.  The running total of the
source cannot overflow: the lists are in memory. -/
def checkItems {α : Type} (bound : Nat) (tooMany : String) (item : α → Except String Unit)
    (size : α → Nat) (tooLarge : String) (items : List α) : Except String Unit := do
  rejectIf (bound < items.length) tooMany
  checkAll item items
  rejectIf (MAX_DIRECT_RESPONSE_BYTES < (items.map size).sum) tooLarge

def checkHeader (header : FinalizedHeader) : Except String Unit :=
  rejectIf (header.header = [] ∨ MAX_CONSENSUS_MESSAGE_BYTES < header.header.length ∨
    MAX_CONSENSUS_MESSAGE_BYTES < header.finalityProof.length) "invalid finalized header bytes"

def checkBody (body : BlockBody) : Except String Unit :=
  rejectIf (body.block = [] ∨ MAX_CONSENSUS_BLOCK_BYTES < body.block.length)
    "invalid block body bytes"

def validateTransport : DirectResponse → Except String Unit
  | .status remote =>
    rejectIf (remote.height < remote.checkpointHeight)
      "checkpoint height exceeds finalized height"
  | .headers received =>
    checkItems MAX_HEADERS_PER_RESPONSE "too many finalized headers" checkHeader
      (fun header => header.header.length + header.finalityProof.length)
      "finalized header response exceeds limit" received
  | .blockBodies bodies =>
    checkItems MAX_BLOCKS_PER_RESPONSE "too many block bodies" checkBody
      (fun body => body.block.length) "block body response exceeds limit" bodies
  | .blocks received =>
    checkItems MAX_BLOCKS_PER_RESPONSE "too many finalized blocks"
      FinalizedBlock.validateTransport
      (fun block => block.block.length + block.finalityProof.length)
      "finalized response exceeds limit" received
  | .snapshotManifest bytes =>
    rejectIf (MAX_DIRECT_REQUEST_BYTES < bytes.length) "snapshot manifest exceeds limit"
  | .snapshotChunk bytes =>
    rejectIf (bytes = [] ∨ MAX_SNAPSHOT_CHUNK_BYTES < bytes.length) "snapshot chunk exceeds limit"
  | .domainHistory items =>
    checkItems MAX_HISTORY_ITEMS "too many history items" (fun _ => .ok ()) List.length
      "history response exceeds limit" items
  | _ => .ok ()

end DirectResponse

structure ResponseEnvelope where
  requestId : U64
  response : DirectResponse
  deriving DecidableEq

/-! ## Gossip -/

structure FinalizedAnnouncement where
  height : U64
  consensusHash : B256
  domainHeadsRoot : B256
  deriving DecidableEq

inductive GossipMessage where
  | transaction (domainId : DomainId) (envelope : Bytes)
  | finalized (announcement : FinalizedAnnouncement)
  deriving DecidableEq

namespace GossipMessage

def GOSSIP_VERSION : Byte := 1
def GOSSIP_TRANSACTION : Byte := 1
def GOSSIP_FINALIZED : Byte := 2

def validate : GossipMessage → Except String Unit
  | transaction _ envelope =>
    rejectIf (envelope = [] ∨ MAX_TRANSACTION_ENVELOPE_BYTES < envelope.length)
      "transaction envelope exceeds limit"
  | finalized announcement =>
    rejectIf (announcement.height = 0) "zero-height finalized announcement"

def decodeTransaction (input : Bytes) : Except String GossipMessage := do
  rejectIf (input.length < 38) "truncated transaction gossip"
  let length := (ofBytes 32 ((input.drop 34).take 4)).toNat
  rejectIf (input.length ≠ 38 + length) "transaction gossip length mismatch"
  return transaction (ofBytes 256 ((input.drop 2).take 32)) (input.drop 38)

def decodeFinalized (input : Bytes) : Except String GossipMessage := do
  rejectIf (input.length ≠ 74) "finalized gossip length mismatch"
  return finalized ⟨ofBytes 64 ((input.drop 2).take 8), ofBytes 256 ((input.drop 10).take 32),
    ofBytes 256 ((input.drop 42).take 32)⟩

def decodeGossip (input : Bytes) : Except String GossipMessage :=
  match input with
  | version :: kind :: _ =>
    if version ≠ GOSSIP_VERSION then .error "unsupported gossip version"
    else if kind = GOSSIP_TRANSACTION then decodeTransaction input
    else if kind = GOSSIP_FINALIZED then decodeFinalized input
    else .error "unknown gossip message"
  | _ => .error "truncated gossip"

end GossipMessage

end Arbor
