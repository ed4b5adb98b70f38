import Arbor.Chain.Checkpoint
import Arbor.Network.Protocol
import Arbor.State.Snapshot

/-!
# Checkpoint snapshots

A producer splits the state of every domain into chunks and describes them in a manifest,
together with the header, configuration, descriptor and head proof of each domain.  A
consumer checks the manifest, collects the chunks in any order, each against its declared
length and hash, and rebuilds and validates the whole state only when all of them are there.
-/

namespace Arbor

open Result Reader

inductive SnapshotError where
  | identity
  | finality (reason : String)
  | limit (what : String)
  | malformed (what : String)
  | codec (reason : String)
  | state (reason : String)
  /-- A checkpoint that was not accepted; the source keeps the text of the error as a
  `State` failure. -/
  | chain (error : ChainError)
  | invalid (what : String)
  | unexpectedChunk
  | chunkHash
  | conflictingChunk
  | incomplete
  deriving DecidableEq

namespace SnapshotError

def ofCodec {α : Type} (result : Except CodecError α) : Except SnapshotError α :=
  result.mapError fun error => .codec error.display

def ofState {α : Type} (result : Except StateError α) : Except SnapshotError α :=
  result.mapError fun error => .state error.display

end SnapshotError

structure CheckpointDomain where
  domainId : DomainId
  config : DomainConfig
  header : DomainBlockHeader
  blockHash : B256
  descriptor : Option DomainDescriptor
  state : SnapshotManifest
  headProof : DomainHeadProof
  deriving DecidableEq

structure CheckpointManifest where
  networkId : NetworkId
  genesisHash : B256
  height : ConsensusHeight
  consensusHash : B256
  timestamp : U64
  validatorSetHash : B256
  nextValidatorSetHash : B256
  validatorSet : ValidatorSet
  domainHeadsRoot : B256
  rootDomainId : DomainId
  governanceAddress : Address
  finalityProof : Bytes
  domains : List CheckpointDomain
  deriving DecidableEq

/-- The finality rule of the development engine: there is no proof. -/
def developmentCheckpointVerifier (manifest : CheckpointManifest) : Except String Unit :=
  rejectIf (manifest.finalityProof ≠ []) "development checkpoint proof must be empty"

/-! ## Fields -/

namespace Snapshot

def putBytes (bytes : Bytes) : Except SnapshotError Bytes := do
  rejectIf (2 ^ 32 ≤ bytes.length) (.limit "encoded field bytes")
  return toBytes (BitVec.ofNat 32 bytes.length) ++ bytes

def take (n : Nat) : Reader SnapshotError Bytes :=
  Reader.take (.malformed "truncated encoded input") n

def takeWord (w : Nat) : Reader SnapshotError (BitVec w) :=
  Reader.word (.malformed "truncated encoded input") w

def takeBytes : Reader SnapshotError Bytes := do
  let length ← takeWord 32
  take length.toNat

def expect (tag : Bytes) : Reader SnapshotError Unit := do
  let found ← take tag.length
  failIf (found ≠ tag) (.malformed "encoded tag mismatch")

def parse {α : Type} (result : Except SnapshotError α) : Reader SnapshotError α :=
  StateT.lift result

def readAll {α : Type} (reader : Reader SnapshotError α) (input : Bytes) :
    Except SnapshotError α := do
  let (value, rest) ← reader.run input
  rejectIf (rest ≠ []) (.malformed "trailing encoded bytes")
  return value

def encodeHeadProof (headProof : DomainHeadProof) : Except SnapshotError Bytes := do
  rejectIf (2 ^ 16 ≤ headProof.siblings.length) (.limit "domain-head proof siblings")
  let value := match headProof.value with
    | some head => [1] ++ toBytes head.domainBlockHash ++ toBytes head.stateRoot
    | none => [0]
  return toBytes headProof.root ++ toBytes headProof.domainId ++ value ++
    toBytes (BitVec.ofNat 16 headProof.siblings.length) ++ headProof.siblings.flatMap toBytes

def readHead : Reader SnapshotError (Option DomainHead) := do
  let kind ← takeWord 8
  if kind = 0 then return none
  else if kind = 1 then return some ⟨← takeWord 256, ← takeWord 256⟩
  else parse (.error (.malformed "domain-head proof value"))

def readHeadProof : Reader SnapshotError DomainHeadProof := do
  let root ← takeWord 256
  let domainId ← takeWord 256
  let value ← readHead
  let count ← takeWord 16
  failIf (count.toNat ≠ 256) (.malformed "domain-head proof depth")
  let siblings ← times (takeWord 256) count.toNat
  return ⟨root, domainId, value, siblings⟩

end Snapshot

/-! ## Manifests -/

namespace CheckpointManifest

open Snapshot

def CHECKPOINT_TAG : Bytes := ascii "ARBOR_NETWORK_CHECKPOINT_V1"
def CHECKPOINT_VERSION : U8 := 1
def MAX_CHECKPOINT_DOMAINS : Nat := 256

section Manifests

variable [Keccak] [Secp256k1]

/-- What a manifest says of one domain fits together. -/
def validateDomain (manifest : CheckpointManifest) (domain : CheckpointDomain) :
    Except SnapshotError Unit := do
  SnapshotError.ofState domain.state.validate
  rejectIf (domain.state.consensusHeight ≠ manifest.height ∨
      domain.state.domainId ≠ domain.domainId ∨
      domain.state.stateRoot ≠ domain.header.stateRoot ∨
      domain.header.domainId ≠ domain.domainId ∨
      domain.headProof.root ≠ manifest.domainHeadsRoot ∨
      domain.headProof.domainId ≠ domain.domainId ∨
      domain.headProof.value ≠ some ⟨domain.blockHash, domain.header.stateRoot⟩)
    (.invalid "domain checkpoint metadata mismatch")
  SnapshotError.ofState domain.headProof.verify

def validateShape (manifest : CheckpointManifest) : Except SnapshotError Unit := do
  rejectIf (manifest.height = 0) (.malformed "checkpoint height must be non-zero")
  rejectIf (MAX_CONSENSUS_MESSAGE_BYTES < manifest.finalityProof.length)
    (.limit "checkpoint finality proof")
  rejectIf (manifest.domains = [] ∨ MAX_CHECKPOINT_DOMAINS < manifest.domains.length)
    (.limit "checkpoint domain count")
  rejectIf (Canonical.strictlySorted (manifest.domains.map (·.domainId)) = false)
    (.malformed "checkpoint domains are not strictly sorted")
  let validatorSetHash ← (Crypto.validatorSetHash manifest.validatorSet).mapError
    fun error => SnapshotError.codec error.display
  rejectIf (validatorSetHash ≠ manifest.validatorSetHash) (.invalid "validator-set hash mismatch")
  checkAll manifest.validateDomain manifest.domains

def encodeConfig (config : DomainConfig) : Bytes :=
  toBytes config.chainId ++ toBytes config.protocolRevision ++ toBytes config.gasLimit ++
    toBytes config.initialBaseFeePerGas

/-- An absent descriptor is an empty field. -/
def encodeDescriptor : Option DomainDescriptor → Except SnapshotError Bytes
  | none => .ok []
  | some descriptor => SnapshotError.ofCodec (Canonical.encodeDomainDescriptor descriptor)

def encodeDomain (domain : CheckpointDomain) : Except SnapshotError Bytes := do
  let header ← SnapshotError.ofCodec (Canonical.encodeDomainHeader domain.header)
  let header ← putBytes header
  let descriptor ← encodeDescriptor domain.descriptor
  let descriptor ← putBytes descriptor
  let state ← SnapshotError.ofState domain.state.encode
  let state ← putBytes state
  let headProof ← encodeHeadProof domain.headProof
  return toBytes domain.domainId ++ encodeConfig domain.config ++ header ++
    toBytes domain.blockHash ++ descriptor ++ state ++ headProof

def encodeHeading (manifest : CheckpointManifest) : Bytes :=
  CHECKPOINT_TAG ++ toBytes CHECKPOINT_VERSION ++ toBytes manifest.networkId ++
    toBytes manifest.genesisHash ++ toBytes manifest.height ++ toBytes manifest.consensusHash ++
    toBytes manifest.timestamp ++ toBytes manifest.validatorSetHash ++
    toBytes manifest.nextValidatorSetHash ++ toBytes manifest.domainHeadsRoot ++
    toBytes manifest.rootDomainId ++ toBytes manifest.governanceAddress

def encode (manifest : CheckpointManifest) : Except SnapshotError Bytes := do
  manifest.validateShape
  let validatorSet ← SnapshotError.ofCodec (Canonical.encodeValidatorSet manifest.validatorSet)
  let validatorSet ← putBytes validatorSet
  let finalityProof ← putBytes manifest.finalityProof
  let domains ← mapAll encodeDomain manifest.domains
  let output := manifest.encodeHeading ++ validatorSet ++ finalityProof ++
    toBytes (BitVec.ofNat 32 manifest.domains.length) ++ domains.flatten
  rejectIf (MAX_DIRECT_REQUEST_BYTES < output.length) (.limit "checkpoint manifest bytes")
  return output

def readConfig : Reader SnapshotError DomainConfig := do
  return ⟨← takeWord 64, ← takeWord 32, ← takeWord 64, ← takeWord 128⟩

def decodeDescriptor (bytes : Bytes) : Except SnapshotError (Option DomainDescriptor) :=
  if bytes = [] then .ok none
  else do return some (← SnapshotError.ofCodec (Canonical.decodeDomainDescriptor bytes))

def readDomain : Reader SnapshotError CheckpointDomain := do
  let domainId ← takeWord 256
  let config ← readConfig
  let header ← parse (SnapshotError.ofCodec (Canonical.decodeDomainHeader (← takeBytes)))
  let blockHash ← takeWord 256
  let descriptor ← parse (decodeDescriptor (← takeBytes))
  let state ← parse (SnapshotError.ofState (SnapshotManifest.decode (← takeBytes)))
  let headProof ← readHeadProof
  return ⟨domainId, config, header, blockHash, descriptor, state, headProof⟩

def readManifest : Reader SnapshotError CheckpointManifest := do
  expect CHECKPOINT_TAG
  let version ← takeWord 8
  failIf (version ≠ CHECKPOINT_VERSION) (.malformed "unsupported checkpoint manifest version")
  let networkId ← takeWord 256
  let genesisHash ← takeWord 256
  let height ← takeWord 64
  let consensusHash ← takeWord 256
  let timestamp ← takeWord 64
  let validatorSetHash ← takeWord 256
  let nextValidatorSetHash ← takeWord 256
  let domainHeadsRoot ← takeWord 256
  let rootDomainId ← takeWord 256
  let governanceAddress ← takeWord 160
  let validatorSet ← parse (SnapshotError.ofCodec (Canonical.decodeValidatorSet (← takeBytes)))
  let finalityProof ← takeBytes
  let count ← takeWord 32
  failIf (count.toNat = 0 ∨ MAX_CHECKPOINT_DOMAINS < count.toNat) (.limit "checkpoint domain count")
  let domains ← times readDomain count.toNat
  return { networkId, genesisHash, height, consensusHash, timestamp, validatorSetHash
           nextValidatorSetHash, validatorSet, domainHeadsRoot, rootDomainId, governanceAddress
           finalityProof, domains }

def decode (input : Bytes) : Except SnapshotError CheckpointManifest := do
  rejectIf (MAX_DIRECT_REQUEST_BYTES < input.length) (.limit "checkpoint manifest bytes")
  let manifest ← readAll readManifest input
  manifest.validateShape
  return manifest

end Manifests

/-- Every chunk a manifest declares, with its domain, in the order of the manifest. -/
def declared (manifest : CheckpointManifest) : List ((DomainId × U32) × SnapshotChunk) :=
  manifest.domains.flatMap fun domain =>
    domain.state.chunks.map fun chunk => ((domain.domainId, chunk.index), chunk)

end CheckpointManifest

instance instTransOrdChunkKey : Std.TransOrd (DomainId × U32) := inferInstance
instance instLawfulEqOrdChunkKey : Std.LawfulEqOrd (DomainId × U32) := inferInstance

/-! ## Chunks of a state -/

namespace StateChunk

open Snapshot

def STATE_CHUNK_TAG : Bytes := ascii "ARBOR_STATE_CHUNK_V1"
def STATE_CHUNK_VERSION : U8 := 1
def MAX_CHUNKS_PER_DOMAIN : Nat := 65536
def CHUNK_FIXED_BYTES : Nat := 22 + 1 + 32 + 4 + 4
def CHUNK_RECORD_FIXED_BYTES : Nat := 1 + 32 + 4

inductive RecordKind where
  | node
  | code
  deriving DecidableEq

def RecordKind.toByte : RecordKind → U8
  | node => 1
  | code => 2

structure StateRecord where
  kind : RecordKind
  hash : B256
  bytes : Bytes

def stateRecords (nodes code : BTreeMap B256 Bytes) : List StateRecord :=
  (nodes.toList.map fun entry => ⟨.node, entry.1, entry.2⟩) ++
    code.toList.map fun entry => ⟨.code, entry.1, entry.2⟩

/-- The records of one chunk and those left, from a size reached so far.  A first record that
does not fit is an error; a later one is left for the next chunk. -/
def selectRecords : (size : Nat) → (first : Bool) → List StateRecord →
    Except SnapshotError (List StateRecord × List StateRecord)
  | _, _, [] => .ok ([], [])
  | size, first, record :: rest =>
    let recordSize := CHUNK_RECORD_FIXED_BYTES + record.bytes.length
    if MAX_SNAPSHOT_CHUNK_BYTES < size + recordSize then
      if first then .error (.limit "snapshot record bytes") else .ok ([], record :: rest)
    else do
      let (selected, left) ← selectRecords (size + recordSize) false rest
      return (record :: selected, left)

def encodeRecord (record : StateRecord) : Bytes :=
  toBytes record.kind.toByte ++ toBytes record.hash ++
    toBytes (BitVec.ofNat 32 record.bytes.length) ++ record.bytes

def encodeStateChunk (domainId : DomainId) (index : Nat) (selected : List StateRecord) : Bytes :=
  STATE_CHUNK_TAG ++ toBytes STATE_CHUNK_VERSION ++ toBytes domainId ++
    toBytes (BitVec.ofNat 32 index) ++ toBytes (BitVec.ofNat 32 selected.length) ++
    selected.flatMap encodeRecord

/-- The chunks from an index on.  Every chunk but an only one takes a record, so that as much
fuel as there are records, and one more, is enough. -/
def encodeChunksFrom (domainId : DomainId) :
    (fuel index : Nat) → List StateRecord → Except SnapshotError (List Bytes)
  | 0, _, _ => .ok []
  | fuel + 1, index, records => do
    let (selected, left) ← selectRecords CHUNK_FIXED_BYTES true records
    rejectIf (MAX_CHUNKS_PER_DOMAIN < index + 1) (.limit "snapshot chunks")
    let chunk := encodeStateChunk domainId index selected
    if left = [] then return [chunk]
    else do
      let chunks ← encodeChunksFrom domainId fuel (index + 1) left
      return chunk :: chunks

def encodeStateChunks (domainId : DomainId) (nodes code : BTreeMap B256 Bytes) :
    Except SnapshotError (List Bytes) :=
  let records := stateRecords nodes code
  encodeChunksFrom domainId (records.length + 1) 0 records

structure Loaded where
  nodes : BTreeMap B256 Bytes
  code : BTreeMap B256 Bytes

variable [Keccak]

def readRecord (loaded : Loaded) : Reader SnapshotError Loaded := do
  let kind ← takeWord 8
  let hash ← takeWord 256
  let bytes ← takeBytes
  failIf (keccak256 bytes ≠ hash) .chunkHash
  if kind = RecordKind.node.toByte then
    failIf (hash ∈ loaded.nodes) (.invalid "duplicate snapshot record")
    return { loaded with nodes := loaded.nodes.insert hash bytes }
  else if kind = RecordKind.code.toByte then
    failIf (hash ∈ loaded.code) (.invalid "duplicate snapshot record")
    return { loaded with code := loaded.code.insert hash bytes }
  else parse (.error (.malformed "snapshot record kind"))

def readRecords : Nat → Loaded → Reader SnapshotError Loaded
  | 0, loaded => return loaded
  | count + 1, loaded => do
    let loaded ← readRecord loaded
    readRecords count loaded

/-- The identity of a chunk; the first field that differs ends it. -/
def readIdentity (domainId : DomainId) (index : U32) : Reader SnapshotError Unit := do
  let version ← takeWord 8
  failIf (version ≠ STATE_CHUNK_VERSION) (.malformed "snapshot chunk identity")
  let foundDomain ← takeWord 256
  failIf (foundDomain ≠ domainId) (.malformed "snapshot chunk identity")
  let foundIndex ← takeWord 32
  failIf (foundIndex ≠ index) (.malformed "snapshot chunk identity")

def readStateChunk (domainId : DomainId) (index : U32) (loaded : Loaded) :
    Reader SnapshotError Loaded := do
  expect STATE_CHUNK_TAG
  readIdentity domainId index
  let count ← takeWord 32
  readRecords count.toNat loaded

def decodeStateChunk (domainId : DomainId) (index : U32) (input : Bytes) (loaded : Loaded) :
    Except SnapshotError Loaded := do
  rejectIf (input = [] ∨ MAX_SNAPSHOT_CHUNK_BYTES < input.length) (.limit "snapshot chunk bytes")
  readAll (readStateChunk domainId index loaded) input

end StateChunk

/-! ## Producing -/

structure SnapshotBundle where
  manifest : CheckpointManifest
  chunks : BTreeMap (DomainId × U32) Bytes

namespace SnapshotBundle

variable [Keccak] [Secp256k1]

def produceDomain (chain : FinalizedChainState) (domain : DomainId × FinalizedDomain) :
    Except SnapshotError (CheckpointDomain × List ((DomainId × U32) × Bytes)) := do
  let encoded ← StateChunk.encodeStateChunks domain.1 domain.2.state.accounts.nodes
    domain.2.state.contractCode
  let descriptors := encoded.mapIdx fun index bytes =>
    (⟨BitVec.ofNat 32 index, BitVec.ofNat 32 bytes.length, keccak256 bytes⟩ : SnapshotChunk)
  return (⟨domain.1, domain.2.config, domain.2.header, domain.2.blockHash,
      chain.descriptors[domain.1]?,
      ⟨chain.height, domain.1, domain.2.state.stateRoot, descriptors⟩,
      (FinalizedChainState.headsCommitment chain.domains).proof domain.1⟩,
    (descriptors.map fun chunk => (domain.1, chunk.index)).zip encoded)

def produce (chain : FinalizedChainState) (genesisHash : B256) (validatorSet : ValidatorSet)
    (finalityProof : Bytes) : Except SnapshotError SnapshotBundle := do
  let domains ← mapAll (produceDomain chain) chain.domains.toList
  let manifest : CheckpointManifest :=
    { networkId := chain.networkId
      genesisHash
      height := chain.height
      consensusHash := chain.consensusHash
      timestamp := chain.timestamp
      validatorSetHash := chain.validatorSetHash
      nextValidatorSetHash := chain.nextValidatorSetHash
      validatorSet
      domainHeadsRoot := chain.domainHeadsRoot
      rootDomainId := chain.rootDomainId
      governanceAddress := chain.governanceAddress
      finalityProof
      domains := domains.map (·.1) }
  let _ ← manifest.encode
  return ⟨manifest, (∅ : BTreeMap (DomainId × U32) Bytes).insertMany (domains.flatMap (·.2))⟩

def manifestBytes (bundle : SnapshotBundle) : Except SnapshotError Bytes := bundle.manifest.encode

def chunk (bundle : SnapshotBundle) (domainId : DomainId) (index : U32) : Option Bytes :=
  bundle.chunks[(domainId, index)]?

end SnapshotBundle

/-! ## Staging -/

structure SnapshotStaging where
  manifest : CheckpointManifest
  chunks : BTreeMap (DomainId × U32) Bytes
  expected : BTreeMap (DomainId × U32) SnapshotChunk
  stagedBytes : Nat

structure SnapshotImport where
  state : FinalizedChainState
  validatorSet : ValidatorSet
  finalityProof : Bytes

namespace SnapshotStaging

def MAX_SNAPSHOT_TOTAL_BYTES : Nat := 512 * 1024 * 1024

variable [Keccak] [Secp256k1]

def new (manifestBytes : Bytes) (expectedNetwork : NetworkId) (expectedGenesis : B256)
    (verifier : CheckpointManifest → Except String Unit) :
    Except SnapshotError SnapshotStaging := do
  let manifest ← CheckpointManifest.decode manifestBytes
  rejectIf (manifest.networkId ≠ expectedNetwork ∨ manifest.genesisHash ≠ expectedGenesis) .identity
  (verifier manifest).mapError .finality
  return ⟨manifest, ∅, (∅ : BTreeMap (DomainId × U32) SnapshotChunk).insertMany manifest.declared,
    0⟩

def stageChunk (staging : SnapshotStaging) (domainId : DomainId) (index : U32) (bytes : Bytes) :
    Except SnapshotError SnapshotStaging :=
  match staging.expected[(domainId, index)]? with
  | none => .error .unexpectedChunk
  | some descriptor =>
    if SnapshotManifest.verifyChunk descriptor bytes = false then .error .chunkHash
    else
      match staging.chunks[(domainId, index)]? with
      | some existing =>
        if existing = bytes then .ok staging else .error .conflictingChunk
      | none => do
        let total := staging.stagedBytes + bytes.length
        rejectIf (MAX_SNAPSHOT_TOTAL_BYTES < total) (.limit "snapshot staged bytes")
        return { staging with
          chunks := staging.chunks.insert (domainId, index) bytes
          stagedBytes := total }

def isComplete (staging : SnapshotStaging) : Bool := staging.chunks.size = staging.expected.size

def loadChunks (staging : SnapshotStaging) (domainId : DomainId) (chunks : List SnapshotChunk) :
    Except SnapshotError StateChunk.Loaded :=
  chunks.foldlM (fun loaded descriptor =>
    match staging.chunks[(domainId, descriptor.index)]? with
    | none => .error .incomplete
    | some bytes => StateChunk.decodeStateChunk domainId descriptor.index bytes loaded) ⟨∅, ∅⟩

def finishDomain (staging : SnapshotStaging) (domain : CheckpointDomain) :
    Except SnapshotError FinalizedDomainCheckpoint := do
  let loaded ← staging.loadChunks domain.domainId domain.state.chunks
  let state ← (ExecutionState.fromPersisted domain.state.stateRoot loaded.nodes
    fun hash => .ok loaded.code[hash]?).mapError fun error => SnapshotError.state error.display
  rejectIf (state.contractCode.keys ≠ loaded.code.keys)
    (.invalid "snapshot contains unreferenced contract code")
  return ⟨domain.domainId, domain.config, domain.header, domain.blockHash, state, domain.descriptor⟩

def finish (staging : SnapshotStaging) : Except SnapshotError SnapshotImport := do
  rejectIf (staging.isComplete = false) .incomplete
  let domains ← mapAll staging.finishDomain staging.manifest.domains
  let manifest := staging.manifest
  let state ← (FinalizedChainState.fromCheckpoint
    { networkId := manifest.networkId
      height := manifest.height
      consensusHash := manifest.consensusHash
      timestamp := manifest.timestamp
      validatorSetHash := manifest.validatorSetHash
      nextValidatorSetHash := manifest.nextValidatorSetHash
      rootDomainId := manifest.rootDomainId
      governanceAddress := manifest.governanceAddress
      domainHeadsRoot := manifest.domainHeadsRoot
      domains }).mapError SnapshotError.chain
  return ⟨state, manifest.validatorSet, manifest.finalityProof⟩

end SnapshotStaging

end Arbor
