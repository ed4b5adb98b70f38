import Arbor.Consensus.Serving
import Arbor.Network.Service
import Arbor.Network.Snapshot
import Arbor.Network.Sync

/-!
# The networked node

The loop of a development node.  It produces blocks on a tick, asks persistent peers for
their status on another, and handles what the network service hands it: requests it answers
from the engine and its snapshots, responses that continue a synchronization, and failures.

What the node is waiting for is kept in two tables: `actions`, by the identifier of the
request, says what to do with its response; `downloads`, by peer, holds the snapshot that is
being collected from it.  An error ends the node, so that only states in which every earlier
event was handled are ever seen.
-/

namespace Arbor

open Result Device

def SNAPSHOT_CACHE_COUNT : Nat := 4
def CONSENSUS_DIRECT_QUEUE : Nat := 64

inductive PendingAction where
  | status
  | manifest (remote : SyncStatus)
  | chunk (domainId : DomainId) (index : U32)
  | headers (remote : SyncStatus)
  | bodies (remote : SyncStatus) (headers : List VerifiedHeader)
  deriving DecidableEq

/-- A snapshot being collected, and the chunks still to be asked for. -/
structure SnapshotDownload where
  remote : SyncStatus
  staging : SnapshotStaging
  remaining : List (DomainId × U32)

structure ConsensusDirectMessage where
  peer : PeerId
  kind : U8
  payload : Bytes

/-- Why the network ended the node; the source keeps the text of the error. -/
inductive NetworkFailure where
  | service (error : NetworkError)
  | snapshot (error : SnapshotError)
  | headers (error : HeaderSyncError)
  | blocks (error : BlockSyncError ConsensusError)
  | codec (error : CodecError)
  | chain (error : ChainError)
  | reason (text : String)

inductive DevNodeError where
  | consensus (error : ConsensusError)
  | timestampOverflow
  | network (failure : NetworkFailure)

structure NodeConfig where
  identity : DatabaseIdentity
  produce : Bool
  persistent : List PeerId

structure Node where
  network : NetworkService
  engine : SingleValidatorEngine
  snapshots : BTreeMap U64 SnapshotBundle
  actions : BTreeMap U64 PendingAction
  downloads : BTreeMap PeerId SnapshotDownload
  /-- Consensus messages received and not yet consumed. -/
  mailbox : List ConsensusDirectMessage

abbrev Handler (α : Type) := EStateM DevNodeError Node α

namespace Node

def check {α : Type} (result : Except DevNodeError α) : Handler α := fun node =>
  match result with
  | .ok a => .ok a node
  | .error error => .error error node

def checkNetwork {ε α : Type} (failure : ε → NetworkFailure) (result : Except ε α) : Handler α :=
  check (result.mapError fun error => .network (failure error))

def onEngine {ε α : Type} (rename : ε → DevNodeError)
    (operation : EStateM ε SingleValidatorEngine α) : Handler α := fun node =>
  match operation node.engine with
  | .ok a engine => .ok a { node with engine }
  | .error error engine => .error (rename error) { node with engine }

/-- An operation on the engine whose failure is only logged. -/
def tryEngine {ε α : Type} (operation : EStateM ε SingleValidatorEngine α) : Handler Unit :=
  fun node =>
  match operation node.engine with
  | .ok _ engine => .ok () { node with engine }
  | .error _ engine => .ok () { node with engine }

section Status

variable [Keccak]

def engineStatus (engine : SingleValidatorEngine) (checkpointHeight : U64) : SyncStatus :=
  ⟨engine.finalized.height, engine.finalized.consensusHash, engine.finalized.domainHeadsRoot,
    checkpointHeight⟩

end Status

/-! ## Requests sent -/

section Requests

def sendRequest (peer : PeerId) (request : DirectRequest) (action : PendingAction) :
    Handler Unit := do
  let node ← get
  let (requestId, network) ← checkNetwork .service (node.network.request peer request)
  set { node with network, actions := node.actions.insert requestId action }

/-- Asks for the next chunk of a download, if one is left. -/
def requestNextChunk (peer : PeerId) : Handler Unit := do
  let node ← get
  match node.downloads[peer]? with
  | none => return ()
  | some download =>
    match download.remaining with
    | [] => return ()
    | (domainId, index) :: remaining => do
      set { node with downloads := node.downloads.insert peer { download with remaining } }
      sendRequest peer (.snapshotChunk download.remote.checkpointHeight domainId index)
        (.chunk domainId index)

variable [Keccak]

/-- Asks for what a peer that is ahead offers next: a snapshot for a node at height zero,
headers otherwise. -/
def requestSyncPath (peer : PeerId) (remote : SyncStatus) : Handler Unit := do
  let node ← get
  let own := engineStatus node.engine 0
  if remote.height ≤ own.height then return ()
  else if own.height = 0 ∧ 0 < remote.checkpointHeight then
    sendRequest peer (.snapshotManifest remote.checkpointHeight) (.manifest remote)
  else
    match BlockSync.development.nextRequest own remote with
    | some (startHeight, limit) => sendRequest peer (.headers startHeight limit) (.headers remote)
    | none => return ()

end Requests

/-! ## Requests answered -/

section Serving

variable [Keccak]

/-- The heights a request asks for, as far as they are finalized. -/
def requestedHeights (engine : SingleValidatorEngine) (startHeight : U64) (limit : U16) :
    List U64 :=
  let last := min (min (startHeight.toNat + limit.toNat) (2 ^ 64 - 1))
    (min (engine.finalized.height.toNat + 1) (2 ^ 64 - 1))
  (List.range' startHeight.toNat (last - startHeight.toNat)).map (BitVec.ofNat 64)

/-- Answers with an item for every height; a block that is not there rejects the request. -/
def serveAll {α : Type} (item : U64 → ConsensusBlock → Except NetworkFailure α)
    (response : List α → DirectResponse) : List U64 → List α → Handler DirectResponse
  | [], items => return response items
  | height :: rest, items => do
    match ← onEngine .consensus (SingleValidatorEngine.finalizedBlock height) with
    | none => return .rejected 404
    | some block => do
      let next ← checkNetwork id (item height block)
      serveAll item response rest (items ++ [next])

def serveHeaders (startHeight : U64) (limit : U16) : Handler DirectResponse := do
  let node ← get
  serveAll (fun height block => do
      let header ← (Canonical.encodeConsensusHeader block.header).mapError NetworkFailure.codec
      return (⟨height, header, []⟩ : FinalizedHeader))
    .headers (requestedHeights node.engine startHeight limit) []

def encodedBlock (block : ConsensusBlock) : Except NetworkFailure Bytes :=
  block.encode.mapError NetworkFailure.chain

def serveBodies (heights : List U64) : Handler DirectResponse :=
  serveAll (fun height block => do
      let encoded ← encodedBlock block
      return (⟨height, encoded⟩ : BlockBody))
    .blockBodies heights []

def serveBlocks (startHeight : U64) (limit : U16) : Handler DirectResponse := do
  let node ← get
  serveAll (fun height block => do
      let encoded ← encodedBlock block
      return (⟨height, encoded, []⟩ : FinalizedBlock))
    .blocks (requestedHeights node.engine startHeight limit) []

/-- Puts a consensus message into the mailbox, unless it is malformed or the mailbox full. -/
def deliverConsensus (peer : PeerId) (kind : U8) (payload : Bytes) : Handler DirectResponse := do
  let node ← get
  if kind = 0 ∨ MAX_CONSENSUS_MESSAGE_BYTES < payload.length ∨
      CONSENSUS_DIRECT_QUEUE ≤ node.mailbox.length then
    return .rejected 429
  else do
    let message : ConsensusDirectMessage := ⟨peer, kind, payload⟩
    set { node with mailbox := node.mailbox ++ [message] }
    return .consensusAccepted

variable [Secp256k1]

def answer (inbound : InboundRequest) : Handler DirectResponse := do
  let node ← get
  match inbound.request with
  | .handshake => return .rejected 400
  | .status => return .status (engineStatus node.engine (node.snapshots.keys.getLast?.getD 0))
  | .headers startHeight limit => serveHeaders startHeight limit
  | .blockBodies heights => serveBodies heights
  | .blocks startHeight limit => serveBlocks startHeight limit
  | .snapshotManifest checkpointHeight =>
    match node.snapshots[checkpointHeight]? with
    | none => return .rejected 404
    | some bundle => do
      let bytes ← checkNetwork .snapshot bundle.manifestBytes
      return .snapshotManifest bytes
  | .snapshotChunk checkpointHeight domainId index =>
    return match node.snapshots[checkpointHeight]?.bind (·.chunk domainId index) with
      | none => .rejected 404
      | some bytes => .snapshotChunk bytes
  | .domainHistory domainId startNumber limit => do
    let items ← onEngine .consensus
      (SingleValidatorEngine.domainHistory domainId startNumber limit.toNat)
    return .domainHistory items
  | .consensus kind payload => deliverConsensus inbound.peer kind payload

def serveRequest (inbound : InboundRequest) : Handler Unit := do
  let response ← answer inbound
  let node ← get
  let network ← checkNetwork .service (node.network.respond inbound response)
  set { node with network }

end Serving

/-! ## Responses received -/

section Responses

variable [Keccak] [Secp256k1] [Revm] [OrderedTrie]

def developmentImporter : BlockImport SingleValidatorEngine ConsensusError where
  status := fun engine => .ok (engineStatus engine engine.finalized.height)
  verifyFinality := fun _ finalized _ =>
    rejectIf (finalized.finalityProof ≠ []) "development block finality proof must be empty"
  importBlock := fun block => do
    let _ ← SingleValidatorEngine.importDevelopmentFinalizedBlock block
    let engine ← get
    return engineStatus engine engine.finalized.height

def beginSnapshotDownload (identity : DatabaseIdentity) (peer : PeerId) (remote : SyncStatus)
    (manifestBytes : Bytes) : Handler Unit := do
  let manifest ← checkNetwork .snapshot (CheckpointManifest.decode manifestBytes)
  check (rejectIf (manifest.height ≠ remote.checkpointHeight)
    (.network (.reason "snapshot manifest height differs from advertised checkpoint")))
  let staging ← checkNetwork .snapshot (SnapshotStaging.new manifestBytes identity.networkId
    identity.genesisHash developmentCheckpointVerifier)
  let node ← get
  let download : SnapshotDownload := ⟨remote, staging, manifest.declared.map (·.1)⟩
  set { node with downloads := node.downloads.insert peer download }
  requestNextChunk peer

/-- Imports a completed download, and goes on from there. -/
def finishDownload (peer : PeerId) (download : SnapshotDownload) : Handler Unit := do
  let imported ← checkNetwork .snapshot download.staging.finish
  onEngine .consensus (SingleValidatorEngine.importDevelopmentCheckpoint
    ⟨imported.state, imported.validatorSet, imported.finalityProof⟩)
  requestSyncPath peer download.remote

def acceptSnapshotChunk (peer : PeerId) (domainId : DomainId) (index : U32) (bytes : Bytes) :
    Handler Unit := do
  let node ← get
  match node.downloads[peer]? with
  | none => throw (.network (.reason "snapshot session disappeared"))
  | some download => do
    let staging ← checkNetwork .snapshot (download.staging.stageChunk domainId index bytes)
    set { node with downloads := node.downloads.insert peer { download with staging } }
    requestNextChunk peer
    let node ← get
    match node.downloads[peer]? with
    | none => return ()
    | some download =>
      if download.staging.isComplete = false then return ()
      else do
        set { node with downloads := node.downloads.erase peer }
        finishDownload peer download

def acceptHeaders (peer : PeerId) (remote : SyncStatus) (headers : List FinalizedHeader) :
    Handler Unit := do
  let node ← get
  let verified ← checkNetwork .headers
    (HeaderSync.verifyResponse (engineStatus node.engine 0) remote
    headers developmentHeaderVerifier)
  sendRequest peer (.blockBodies (verified.map (·.header.height))) (.bodies remote verified)

def acceptBodies (peer : PeerId) (remote : SyncStatus) (headers : List VerifiedHeader)
    (bodies : List BlockBody) : Handler Unit := do
  let blocks ← checkNetwork .headers (finalizedBlocksFromBodies headers bodies)
  let _ ← onEngine (fun error => .network (.blocks error))
    (BlockSync.development.importResponse developmentImporter remote blocks)
  requestSyncPath peer remote

def handleResponse (identity : DatabaseIdentity) (peer : PeerId) (action : Option PendingAction)
    (response : DirectResponse) : Handler Unit :=
  match action, response with
  | some .status, .status remote => requestSyncPath peer remote
  | some (.manifest remote), .snapshotManifest bytes =>
    beginSnapshotDownload identity peer remote bytes
  | some (.chunk domainId index), .snapshotChunk bytes =>
    acceptSnapshotChunk peer domainId index bytes
  | some (.headers remote), .headers headers => acceptHeaders peer remote headers
  | some (.bodies remote headers), .blockBodies bodies => acceptBodies peer remote headers bodies
  | _, .rejected _ => return ()
  | none, _ => return ()
  | _, _ => throw (.network (.reason "direct response does not match pending request"))

end Responses

/-! ## Events -/

section Events

variable [Keccak] [Secp256k1]

def trimSnapshots (snapshots : BTreeMap U64 SnapshotBundle) : BTreeMap U64 SnapshotBundle :=
  (snapshots.keys.take (snapshots.size - SNAPSHOT_CACHE_COUNT)).foldl
    (fun snapshots height => snapshots.erase height) snapshots

def cacheSnapshot (genesisHash : B256) : Handler Unit := do
  let node ← get
  if node.engine.finalized.height = 0 then return ()
  else do
    let checkpoint := node.engine.developmentCheckpoint
    let bundle ← checkNetwork .snapshot (SnapshotBundle.produce checkpoint.state genesisHash
      checkpoint.validatorSet checkpoint.finalityProof)
    let snapshots := trimSnapshots (node.snapshots.insert checkpoint.state.height bundle)
    set { node with snapshots }

variable [Revm] [OrderedTrie]

def handleGossip (peer : PeerId) : GossipMessage → Handler Unit
  | .transaction domainId envelope => tryEngine (SingleValidatorEngine.submitRaw domainId envelope)
  | .finalized announcement => do
    let node ← get
    if node.engine.finalized.height < announcement.height ∧ node.actions.isEmpty ∧
        node.downloads.isEmpty then
      sendRequest peer .status .status
    else return ()

/-- Handles one event, apart from the snapshot of a new height. -/
def dispatch (identity : DatabaseIdentity) : NetworkEvent → Handler Unit
  | .listening _ => return ()
  | .peerDiscovered _ _ => return ()
  | .peerDisconnected peer => modify fun node =>
    { node with downloads := node.downloads.erase peer }
  | .peerAuthenticated peer _ => sendRequest peer .status .status
  | .peerRejected _ _ => return ()
  | .request inbound => serveRequest inbound
  | .gossip peer message => handleGossip peer message
  | .response peer requestId response => do
    let node ← get
    set { node with actions := node.actions.erase requestId }
    handleResponse identity peer node.actions[requestId]? response
  | .requestFailed peer requestId _ => modify fun node =>
    { node with
      actions := match requestId with
        | some id => node.actions.erase id
        | none => node.actions
      downloads := node.downloads.erase peer }

def handleNetworkEvent (identity : DatabaseIdentity) (event : NetworkEvent) : Handler Unit := do
  let before ← get
  dispatch identity event
  let node ← get
  if node.engine.finalized.height ≠ before.engine.finalized.height then
    cacheSnapshot identity.genesisHash
  else return ()

def produceAndAnnounce (identity : DatabaseIdentity) : Handler Unit := do
  let node ← get
  check (rejectIf (node.engine.finalized.timestamp = BitVec.allOnes 64) .timestampOverflow)
  let _ ← onEngine .consensus
    (SingleValidatorEngine.produceBlock (node.engine.finalized.timestamp + 1))
  cacheSnapshot identity.genesisHash

/-- Asks a connected persistent peer for its status, if the node is waiting for nothing. -/
def reconnect (peer : PeerId) : Handler Unit := do
  let node ← get
  if peer ∈ node.network.connected ∧ peer ∈ node.network.authenticated ∧ node.actions.isEmpty ∧
      node.downloads.isEmpty then
    sendRequest peer .status .status
  else return ()

/-- What the loop reacts to.  A swarm event the service makes nothing of does not reach the
node. -/
inductive LoopEvent where
  | production
  | reconnect
  | consensusMessage
  | swarm (event : SwarmEvent)
  | discovered (peer : PeerId) (address : String)

def receive (event : SwarmEvent) : Handler (Option NetworkEvent) := do
  let node ← get
  let (yielded, network) := node.network.receive event
  set { node with network }
  return yielded

def react (config : NodeConfig) : LoopEvent → Handler Unit
  | .production => if config.produce then produceAndAnnounce config.identity else return ()
  | .reconnect => config.persistent.forM reconnect
  | .consensusMessage => modify fun node => { node with mailbox := node.mailbox.tail }
  | .swarm event => do
    match ← receive event with
    | none => return ()
    | some yielded => handleNetworkEvent config.identity yielded
  | .discovered peer address => handleNetworkEvent config.identity (.peerDiscovered peer address)

def fresh (handshake : Handshake) (engine : SingleValidatorEngine) : Node :=
  ⟨.new handshake, engine, ∅, ∅, ∅, []⟩

def handshakeOf (config : NodeConfig) : Handshake :=
  .new config.identity.networkId config.identity.genesisHash
    (if config.produce then .validator else .full) Capability.all

end Events

end Node

end Arbor
