import Arbor.Consensus.CheckpointRecord

/-!
# The development engine

One validator, immediate finality.  The engine owns a database, the finalized state, the
transaction pool and at most one pending proposal; operations change them step by step and
may fail at any step, leaving what has been done.  A commit first works on a copy of the
pool, then writes one batch, and only then replaces the finalized state, the pool and the
cursor and sends its event.
-/

namespace Arbor

open Result Device Consensus

structure ProposalId where
  hash : B256
  deriving DecidableEq

/-- The one pending proposal, with the pool entries set aside for it. -/
structure PendingProposal where
  id : ProposalId
  proposal : ValidatedProposal
  reserved : List PoolEntry

/-- Engine state.  `retention` is the policy the database was opened with; `events` are the
commit events sent so far. -/
structure SingleValidatorEngine where
  database : Disk Column
  retention : RetentionPolicy
  genesis : DevGenesis
  finalized : FinalizedChainState
  mempool : Mempool
  pending : Option PendingProposal
  events : List CommitEvent
  schedulerCursor : Nat
  historyRetention : DomainHistoryRetention

/-- An operation of the engine.  What it has done to the engine stands also where it fails. -/
abbrev Operation (α : Type) := EStateM ConsensusError SingleValidatorEngine α

namespace SingleValidatorEngine

def MAX_DEV_PROPOSAL_TRANSACTIONS : Nat := 10000
def MAX_FAIR_DOMAIN_TRANSACTIONS : Nat := 1024

def check {α : Type} (result : Except ConsensusError α) : Operation α := fun engine =>
  match result with
  | .ok a => .ok a engine
  | .error error => .error error engine

def onDatabase {α : Type} (program : Program Column ConsensusError α) : Operation α := fun engine =>
  match program engine.database with
  | .ok a database => .ok a { engine with database }
  | .error error database => .error error { engine with database }

/-- An operation whose failure is followed by a last change. -/
def onFailure {α : Type} (x : Operation α)
    (undo : SingleValidatorEngine → SingleValidatorEngine) : Operation α := fun engine =>
  match x engine with
  | .ok a engine => .ok a engine
  | .error error engine => .error error (undo engine)

/-- Registers domains with their chain IDs; the first conflict ends it. -/
def registerDomains (pool : Mempool) (domains : List (DomainId × U64)) :
    Except ConsensusError Mempool :=
  domains.foldlM (fun pool domain => (pool.registerDomain domain.1 domain.2).mapError .mempool) pool

section Selecting

variable [Keccak]

def readySender (pool : Mempool) (domainId : DomainId) (domain : FinalizedDomain)
    (sender : Address) : Except ConsensusError (List PoolEntry) := do
  let account ← ConsensusError.ofEvm (domain.state.account sender)
  return pool.ready domainId sender ((account.map (·.nonce)).getD 0)

/-- The ready entries of one domain by sender and nonce, with its gas limit. -/
def readyDomain (pool : Mempool) (domain : DomainId × FinalizedDomain) :
    Except ConsensusError (Nat × List PoolEntry) := do
  let ready ← mapAll (readySender pool domain.1 domain.2) (pool.senders domain.1)
  return (domain.2.config.gasLimit.toNat, ready.flatten.mergeSort fun a b =>
    (compare (a.sender, a.transaction.nonce) (b.sender, b.transaction.nonce)).isLE)

/-- What has been selected, and its gas. -/
structure Selection where
  selected : List PoolEntry
  aggregateGas : Nat

/-- Takes entries of one domain while they fit its limit, its fair share and the block. -/
def selectEntries (domainLimit quota : Nat) : List PoolEntry → Nat → Selection → Selection
  | [], _, selection => selection
  | entry :: rest, domainGas, selection =>
    let nextDomainGas := domainGas + entry.transaction.gasLimit.toNat
    let nextAggregate := selection.aggregateGas + entry.transaction.gasLimit.toNat
    if 2 ^ 64 ≤ nextDomainGas ∨ 2 ^ 64 ≤ nextAggregate ∨ domainLimit < nextDomainGas ∨
        MAX_CONSENSUS_BLOCK_GAS < nextAggregate ∨ (quota < nextDomainGas ∧ domainGas ≠ 0) ∨
        MAX_DEV_PROPOSAL_TRANSACTIONS ≤ selection.selected.length then selection
    else selectEntries domainLimit quota rest nextDomainGas
      ⟨selection.selected ++ [entry], nextAggregate⟩

def selectDomain (fairShare : Nat) (selection : Selection) (domain : Nat × List PoolEntry) :
    Selection :=
  selectEntries domain.1 (min fairShare domain.1) (domain.2.take MAX_FAIR_DOMAIN_TRANSACTIONS) 0
    selection

/-- The transactions of the next proposal: the domains take turns from the cursor on. -/
def selectTransactions (engine : SingleValidatorEngine) :
    Except ConsensusError (List PoolEntry) := do
  let readyByDomain ← mapAll (readyDomain engine.mempool) engine.finalized.domains.toList
  let readyByDomain := readyByDomain.filter fun domain => domain.2 ≠ []
  if readyByDomain = [] then return []
  else
    let fairShare := MAX_CONSENSUS_BLOCK_GAS / readyByDomain.length
    let rotated := readyByDomain.rotate (engine.schedulerCursor % readyByDomain.length)
    let selection := rotated.foldl (selectDomain fairShare) ⟨[], 0⟩
    return selection.selected.mergeSort fun a b => (compare a.key b.key).isLE

end Selecting

def groupByDomain (reserved : List PoolEntry) : BTreeMap DomainId (List Bytes) :=
  reserved.foldl (fun grouped entry =>
    grouped.insert entry.domainId (grouped[entry.domainId]?.getD [] ++ [entry.envelope])) ∅

def batchOf (chain : FinalizedChainState) (group : DomainId × List Bytes) :
    Except ConsensusError DomainBatch :=
  match chain.domains[group.1]? with
  | none => .error .unknownDomain
  | some parent => .ok ⟨group.1, parent.blockHash, group.2⟩

/-- The domains a proposal creates, with their chain IDs. -/
def createdChainIds (proposal : ValidatedProposal) : List (DomainId × U64) :=
  (proposal.executions.flatMap (·.createdDomains)).map fun created =>
    (created.descriptor.domainId, created.descriptor.evmChainId)

def includedHashes (proposal : ValidatedProposal) : BTreeSet B256 :=
  (∅ : BTreeSet B256).insertMany
    ((proposal.executions.flatMap (·.transactions)).map (·.transactionHash))

section Engine

variable [Keccak] [Secp256k1] [Revm] [OrderedTrie]

def submitRaw (domainId : DomainId) (envelope : Bytes) : Operation QueueStatus := do
  let engine ← get
  let transaction ← check ((Ethereum.decodeEip1559 envelope).mapError
    fun error => .mempool (.invalidTransaction error.display))
  let sender ← check ((Crypto.recoverEip1559Sender transaction).mapError
    fun error => .mempool (.invalidTransaction error.display))
  match engine.finalized.domains[domainId]? with
  | none => throw .unknownDomain
  | some domain => do
    let account ← check (ConsensusError.ofEvm (domain.state.account sender))
    let (mempool, status) ← check ((engine.mempool.insert domainId envelope
      ((account.map (·.nonce)).getD 0)).mapError .mempool)
    set { engine with mempool }
    return status

/-- Builds a proposal; reserved entries go back to the pool if it is not valid. -/
def buildProposal (timestamp : U64) : Operation ProposalId := do
  let engine ← get
  check (rejectIf (engine.pending.isSome = true) .proposalPending)
  let selected ← check engine.selectTransactions
  let (mempool, reserved) := engine.mempool.reserveHashes
    ((∅ : BTreeSet B256).insertMany (selected.map (·.transactionHash)))
  set { engine with mempool }
  let batches ← check (mapAll (batchOf engine.finalized) (groupByDomain reserved).toList)
  match ChainMachine.buildProposal engine.finalized batches timestamp
    engine.genesis.rewardAddress with
  | .error error => do
    set { engine with mempool := mempool.restoreReserved reserved }
    throw (.chain error)
  | .ok proposal => do
    let hash ← check (proposal.block.hash.mapError .chain)
    set { engine with mempool, pending := some ⟨⟨hash⟩, proposal, reserved⟩ }
    return ⟨hash⟩

def abandonProposal (id : ProposalId) : Operation Unit := do
  let engine ← get
  match engine.pending with
  | none => throw .unknownProposal
  | some pending =>
    if pending.id ≠ id then throw .unknownProposal
    else set { engine with
      pending := none
      mempool := engine.mempool.restoreReserved pending.reserved }

def published (proposal : ValidatedProposal) (mempool : Mempool) (engine : SingleValidatorEngine) :
    SingleValidatorEngine :=
  { engine with
    finalized := proposal.resultingState
    mempool
    schedulerCursor := min (engine.schedulerCursor + 1) (2 ^ 64 - 1)
      % max proposal.resultingState.domains.size 1
    events := engine.events ++ [eventOf proposal.resultingState] }

def commitValidated (proposal : ValidatedProposal) : Operation CommitStats := do
  let engine ← get
  let mempool ← check (registerDomains engine.mempool (createdChainIds proposal))
  let mempool := (mempool.reserveHashes (includedHashes proposal)).1
  let commit ← check (proposalCommitBatch proposal engine.historyRetention)
  let stats ← onDatabase (stored (Database.commit engine.retention commit))
  modify (published proposal mempool)
  return stats

/-- Commits the pending proposal; it stays pending if that fails. -/
def commitProposal (id : ProposalId) : Operation CommitStats := do
  let engine ← get
  match engine.pending with
  | none => throw .unknownProposal
  | some pending =>
    if pending.id ≠ id then throw .unknownProposal
    else do
      set { engine with pending := none }
      onFailure (commitValidated pending.proposal) fun engine =>
        { engine with pending := some pending }

def importDevelopmentFinalizedBlock (block : ConsensusBlock) : Operation CommitStats := do
  let engine ← get
  check (rejectIf (engine.pending.isSome = true) .proposalPending)
  let proposal ← check ((ChainMachine.validateProposal engine.finalized block).mapError .chain)
  commitValidated proposal

def registryRecord (descriptor : DomainId × DomainDescriptor) :
    Except ConsensusError IndexedValue := do
  let encoded ← ConsensusError.ofCodec (Canonical.encodeDomainDescriptor descriptor.2)
  return ⟨toBytes descriptor.1, encoded⟩

def checkpointBatch (checkpoint : DevelopmentCheckpoint) : Except ConsensusError CommitBatch := do
  let chain := checkpoint.state
  let domainRegistry ← mapAll registryRecord chain.descriptors.toList
  let encoded ← checkpoint.encode
  return { marker := markerOf chain
           states := chain.domains.toList.map fun domain =>
             ⟨domain.1, domain.2.header.consensusHeight, domain.2.state.accounts⟩
           contractCode := chain.domains.toList.foldl
             (fun code domain => code ∪ domain.2.state.contractCode) ∅
           domainRegistry
           indexes :=
             [⟨KEY_DEV_CHECKPOINT, encoded⟩, ⟨KEY_DEV_WAL, encodeDevWal (markerOf chain)⟩] }

def restarted (chain : FinalizedChainState) (mempool : Mempool) (engine : SingleValidatorEngine) :
    SingleValidatorEngine :=
  { engine with
    finalized := chain
    mempool
    schedulerCursor := 0
    events := engine.events ++ [eventOf chain] }

def importDevelopmentCheckpoint (checkpoint : DevelopmentCheckpoint) : Operation Unit := do
  let engine ← get
  check (rejectIf (engine.pending.isSome = true) .proposalPending)
  check (rejectIf (engine.finalized.height ≠ 0)
    (.inconsistentStore "checkpoint import requires height-zero state"))
  check (rejectIf (checkpoint.finalityProof ≠ [])
    (.inconsistentStore "development checkpoint proof must be empty"))
  check (checkpoint.checkIdentity engine.genesis "checkpoint genesis or validator-set mismatch")
  let chain ← check ((FinalizedChainState.fromCheckpoint checkpoint.state.checkpoint).mapError
    .chain)
  let mempool ← check (registerDomains engine.mempool
    (chain.domains.toList.map fun domain => (domain.1, domain.2.config.chainId)))
  let commit ← check (checkpointBatch { checkpoint with state := chain })
  let _ ← onDatabase (stored (Database.commit engine.retention commit))
  modify (restarted chain mempool)

/-! ## Opening -/

def replayBlock (chain : FinalizedChainState) (height : U64) :
    Program Column ConsensusError FinalizedChainState := do
  match ← stored (Database.index (blockKey height)) with
  | none => throw (.inconsistentStore "missing finalized block body")
  | some bytes => do
    let block ← give ((ConsensusBlock.decode bytes).mapError .chain)
    let proposal ← give ((ChainMachine.validateProposal chain block).mapError .chain)
    return proposal.resultingState

/-- The heights after one finalized height, up to another. -/
def heightsAfter (base last : U64) : List U64 :=
  (List.range' (min (base.toNat + 1) (2 ^ 64 - 1))
    (last.toNat + 1 - min (base.toNat + 1) (2 ^ 64 - 1))).map
    (BitVec.ofNat 64)

/-- The state recovery starts from: the checkpoint's, if there is one, else genesis. -/
def recoveryBase (genesis : DevGenesis) (marker : FinalizedMarker) (chain : FinalizedChainState) :
    Program Column ConsensusError FinalizedChainState := do
  match ← DevelopmentCheckpoint.load genesis with
  | none => return chain
  | some checkpoint => do
    give (rejectIf (marker.height < checkpoint.state.height)
      (.inconsistentStore "checkpoint height exceeds finalized marker"))
    return checkpoint.state

/-- The finalized state of a database that has a marker. -/
def recover (genesis : DevGenesis) (fingerprint : B256) (marker : FinalizedMarker)
    (chain : FinalizedChainState) : Program Column ConsensusError FinalizedChainState := do
  match ← stored (Database.index KEY_DEV_GENESIS) with
  | none => throw (.inconsistentStore "missing dev genesis record")
  | some recorded => do
    give (rejectIf (recorded ≠ toBytes fingerprint) .genesisMismatch)
    let base ← recoveryBase genesis marker chain
    let chain ← (heightsAfter base.height marker.height).foldlM replayBlock base
    verifyRecovered chain marker
    return chain

def openFinalized (policy : RetentionPolicy) (genesis : DevGenesis) :
    Program Column ConsensusError FinalizedChainState := do
  let fingerprint ← give genesis.fingerprint
  let chain ← give genesis.chainState
  match ← stored Database.finalizedMarker with
  | none => do
    initializeDatabase policy genesis chain fingerprint
    return chain
  | some marker => recover genesis fingerprint marker chain

def openWithHistory (mode : EngineMode) (policy : RetentionPolicy) (genesis : DevGenesis)
    (config : MempoolConfig) (historyRetention : DomainHistoryRetention) :
    Program Column ConsensusError SingleValidatorEngine := do
  give (rejectIf (mode ≠ .devValidator) .devModeRequired)
  let finalized ← openFinalized policy genesis
  let mempool ← give (registerDomains (Mempool.new config)
    (finalized.domains.toList.map fun domain => (domain.1, domain.2.config.chainId)))
  let database ← MonadState.get
  return { database, retention := policy, genesis, finalized, mempool, pending := none, events := []
           schedulerCursor := 0, historyRetention }

end Engine

end SingleValidatorEngine

end Arbor
