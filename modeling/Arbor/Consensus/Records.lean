import Arbor.Chain.Checkpoint
import Arbor.Consensus.Genesis

/-!
# What the development engine stores

Each finalized block becomes one batch: the marker, the block's body, the write-ahead record
of the marker, the new state of every domain it touches, and, for the domains whose history
is kept, receipts and transaction locations.  A checkpoint is stored as one record of
metadata; the states it names are read back from the trie nodes.
-/

namespace Arbor

open Result Reader Device

/-- Capability required to open the development engine. -/
inductive EngineMode where
  | devValidator
  | production
  deriving DecidableEq

inductive DomainHistoryRetention where
  | all
  | selected (domains : BTreeSet DomainId)

def DomainHistoryRetention.retains (retention : DomainHistoryRetention) (domainId : DomainId) :
    Bool :=
  match retention with
  | .all => true
  | .selected domains => domainId ∈ domains

structure CommitEvent where
  height : U64
  consensusHash : B256
  domainHeadsRoot : B256
  deriving DecidableEq

/-- A finalized state offered to a node at height zero. -/
structure DevelopmentCheckpoint where
  state : FinalizedChainState
  validatorSet : ValidatorSet
  finalityProof : Bytes
  deriving DecidableEq

def ConsensusError.ofCodec {α : Type} (result : Except CodecError α) : Except ConsensusError α :=
  result.mapError fun error => .invalidGenesisOwned error.display

def ConsensusError.ofCrypto {α : Type} (result : Except CryptoError α) : Except ConsensusError α :=
  result.mapError fun error => .invalidGenesisOwned error.display

def ConsensusError.ofEvm {α : Type} (result : Except EvmError α) : Except ConsensusError α :=
  result.mapError fun error => .invalidGenesisOwned error.display

namespace Consensus

def DEV_WAL_TAG : Bytes := ascii "ARBOR_DEV_COMMIT_WAL_V1"
def KEY_DEV_GENESIS : Bytes := ascii "m5:dev:genesis"
def KEY_DEV_WAL : Bytes := ascii "m5:dev:wal"
def KEY_DEV_CHECKPOINT : Bytes := ascii "m7:dev:checkpoint"
def PREFIX_BLOCK : Bytes := ascii "m5:block:"
def PREFIX_RECEIPT : Bytes := ascii "m5:receipt:"
def PREFIX_TX_LOCATION : Bytes := ascii "m5:tx:"

def blockKey (height : U64) : Bytes := PREFIX_BLOCK ++ toBytes height

def receiptKey (hash : B256) : Bytes := PREFIX_RECEIPT ++ toBytes hash

def txLocationKey (hash : B256) : Bytes := PREFIX_TX_LOCATION ++ toBytes hash

def encodeTxLocation (height : U64) (domainId : DomainId) (index : U32) : Bytes :=
  toBytes height ++ toBytes domainId ++ toBytes index

def encodeDevWal (marker : FinalizedMarker) : Bytes :=
  DEV_WAL_TAG ++ toBytes marker.height ++ toBytes marker.consensusHash
    ++ toBytes marker.domainHeadsRoot

/-- A storage program as a step of the engine. -/
def stored {α : Type} (program : Storage α) : Program Column ConsensusError α :=
  adapt .storage program

/-! ## The batch of a block -/

def appendHistory (height : U64) (domainId : DomainId) (commit : CommitBatch)
    (item : (ExecutedTransaction × Bytes) × Nat) : Except ConsensusError CommitBatch := do
  rejectIf (2 ^ 32 ≤ item.2) (.inconsistentStore "transaction index overflow")
  return { commit with
    receipts := commit.receipts ++ [⟨receiptKey item.1.1.transactionHash, item.1.2⟩]
    indexes := commit.indexes ++ [⟨txLocationKey item.1.1.transactionHash,
      encodeTxLocation height domainId (BitVec.ofNat 32 item.2)⟩] }

/-- State, code and registry record of a created domain. -/
def appendCreated (height : U64) (commit : CommitBatch) (created : CreatedDomain) :
    Except ConsensusError CommitBatch := do
  let descriptor ← ConsensusError.ofCodec (Canonical.encodeDomainDescriptor created.descriptor)
  return { commit with
    states := commit.states
      ++ [⟨created.descriptor.domainId, height, created.genesisState.accounts⟩]
    contractCode := commit.contractCode ∪ created.genesisState.contractCode
    domainRegistry := commit.domainRegistry
      ++ [⟨toBytes created.descriptor.domainId, descriptor⟩] }

/-- Receipts and locations of an executed batch, if the domain's history is kept. -/
def appendHistories (retention : DomainHistoryRetention) (height : U64) (domainId : DomainId)
    (execution : DomainExecutionResult) (commit : CommitBatch) :
    Except ConsensusError CommitBatch :=
  if retention.retains domainId = true then
    (execution.transactions.zip execution.encodedReceipts).zipIdx.foldlM
      (appendHistory height domainId) commit
  else .ok commit

def appendExecution (retention : DomainHistoryRetention) (height : U64) (commit : CommitBatch)
    (executed : (DomainBlockHeader × DomainExecutionResult) × DomainBatch) :
    Except ConsensusError CommitBatch := do
  let commit ← appendHistories retention height executed.2.domainId executed.1.2
    { commit with
      states := commit.states ++ [⟨executed.1.1.domainId, executed.1.1.consensusHeight,
        executed.1.2.state.accounts⟩]
      contractCode := commit.contractCode ∪ executed.1.2.state.contractCode }
  executed.1.2.createdDomains.foldlM (appendCreated height) commit

section Batches

variable [Keccak]

def proposalCommitBatch (proposal : ValidatedProposal) (retention : DomainHistoryRetention) :
    Except ConsensusError CommitBatch := do
  let block := proposal.block
  let consensusHash ← ConsensusError.ofCrypto (Crypto.consensusHeaderHash block.header)
  let marker : FinalizedMarker := ⟨block.header.height, consensusHash, block.header.domainHeadsRoot⟩
  let body ← block.encode.mapError .chain
  let commit : CommitBatch :=
    { marker
      indexes := [⟨blockKey marker.height, body⟩, ⟨KEY_DEV_WAL, encodeDevWal marker⟩] }
  ((block.domainBlocks.zip proposal.executions).zip block.batches).foldlM
    (appendExecution retention marker.height) commit

def markerOf (chain : FinalizedChainState) : FinalizedMarker :=
  ⟨chain.height, chain.consensusHash, chain.domainHeadsRoot⟩

def eventOf (chain : FinalizedChainState) : CommitEvent :=
  ⟨chain.height, chain.consensusHash, chain.domainHeadsRoot⟩

/-! ## The first batch, and the check after recovery -/

def initialBatch (genesis : DevGenesis) (chain : FinalizedChainState) (root : FinalizedDomain)
    (fingerprint : B256) : CommitBatch :=
  let marker : FinalizedMarker := ⟨0, genesis.genesisHash, chain.domainHeadsRoot⟩
  { marker
    states := [⟨genesis.rootDomainId, root.header.consensusHeight, root.state.accounts⟩]
    contractCode := root.state.contractCode
    indexes := [⟨KEY_DEV_GENESIS, toBytes fingerprint⟩, ⟨KEY_DEV_WAL, encodeDevWal marker⟩] }

def initializeDatabase (policy : RetentionPolicy) (genesis : DevGenesis)
    (chain : FinalizedChainState) (fingerprint : B256) : Program Column ConsensusError Unit :=
  match chain.domains[genesis.rootDomainId]? with
  | none => throw (.invalidGenesis "missing root domain")
  | some root => do
    let _ ← stored (Database.commit policy (initialBatch genesis chain root fingerprint))
    return ()

def verifyHead (domain : DomainId × FinalizedDomain) : Program Column ConsensusError Unit := do
  match ← stored (Database.latestHead domain.1) with
  | none => throw (.inconsistentStore "missing domain state head")
  | some head =>
    give (rejectIf (head.1 ≠ domain.2.header.consensusHeight ∨ head.2 ≠ domain.2.header.stateRoot)
      (.inconsistentStore "domain state/head mismatch"))

def verifyRecovered (chain : FinalizedChainState) (marker : FinalizedMarker) :
    Program Column ConsensusError Unit := do
  give (rejectIf (marker ≠ markerOf chain) (.inconsistentStore "marker/head mismatch"))
  match ← stored (Database.index KEY_DEV_WAL) with
  | none => throw (.inconsistentStore "missing dev commit WAL")
  | some wal => do
    give (rejectIf (wal ≠ encodeDevWal marker) (.inconsistentStore "WAL/head mismatch"))
    chain.domains.toList.forM verifyHead

end Batches

end Consensus

end Arbor
