import Mathlib.Data.List.Sort
import Arbor.Chain.Block

/-!
# Proposals

The builder sorts its batches and executes them; the validator executes a candidate's
batches and compares the candidate with the result, root by root and header by header.
Both run the same `execute`.  The main result is that they agree exactly
(`builder_and_validator_agree`): what is built validates to itself, and what validates
is the block that execution produces.
-/

namespace Arbor

open Result List

/-- A block with the state it leads to and its batch executions. -/
structure ValidatedProposal where
  block : ConsensusBlock
  resultingState : FinalizedChainState
  executions : List DomainExecutionResult
  deriving DecidableEq

namespace ChainMachine

/-- The base fee after a block: up or down by at most an eighth, by how far its gas is
from the target. -/
def nextBaseFee (parent : DomainBlockHeader) : U128 :=
  let target := parent.gasLimit.toNat / 2
  let used := parent.gasUsed.toNat
  let fee := parent.baseFeePerGas.toNat
  if target = 0 ∨ used = target then parent.baseFeePerGas
  else if target < used then
    let increase := max (min (fee * (used - target)) (2 ^ 128 - 1) / target / 8) 1
    BitVec.ofNat 128 (min (fee + increase) (2 ^ 128 - 1))
  else
    let decrease := min (fee * (target - used)) (2 ^ 128 - 1) / target / 8
    BitVec.ofNat 128 (fee - decrease)

def batchesSorted : List DomainBatch → Bool
  | a :: b :: rest => a.domainId < b.domainId && batchesSorted (b :: rest)
  | _ => true

/-- Sorted batches are of distinct domains. -/
theorem pairwise_of_batchesSorted : ∀ {batches : List DomainBatch}, batchesSorted batches = true →
    batches.Pairwise fun a b => a.domainId < b.domainId
  | [], _ => Pairwise.nil
  | [_], _ => pairwise_singleton _ _
  | a :: b :: rest, h => by
    rw [batchesSorted, Bool.and_eq_true, decide_eq_true_eq] at h
    have hrest := pairwise_of_batchesSorted h.2
    refine Pairwise.cons (fun c hc => ?_) hrest
    rcases mem_cons.mp hc with rfl | hmem
    · exact h.1
    · exact BitVec.lt_trans h.1 ((pairwise_cons.mp hrest).1 c hmem)

theorem nodup_of_batchesSorted {batches : List DomainBatch} (h : batchesSorted batches = true) :
    (batches.map (·.domainId)).Nodup := by
  rw [Nodup, pairwise_map]
  refine (pairwise_of_batchesSorted h).imp ?_
  intro a b hlt heq
  rw [heq] at hlt
  exact BitVec.lt_irrefl _ hlt

def ensureBatchOrder (batches : List DomainBatch) : Except ChainError Unit :=
  rejectIf (batchesSorted batches = false) .nonCanonicalBatches

def validateTimestamp (parent actual : U64) : Except ChainError Unit := do
  rejectIf (2 ^ 64 ≤ parent.toNat + 1)
    (.invalidTimestamp (2 ^ 64 - 1) (2 ^ 64 - 1) actual.toNat)
  let maximum := min (parent.toNat + MAX_TIMESTAMP_STEP_SECONDS) (2 ^ 64 - 1)
  rejectIf (actual.toNat < parent.toNat + 1 ∨ maximum < actual.toNat)
    (.invalidTimestamp (parent.toNat + 1) maximum actual.toNat)

def validateAggregateGas (actual : Nat) : Except ChainError Unit :=
  rejectIf (MAX_CONSENSUS_BLOCK_GAS < actual) (.aggregateGas MAX_CONSENSUS_BLOCK_GAS actual)

/-- The roots of two domain headers that are compared one by one. -/
def compareRoots (actual expected : DomainBlockHeader) : Except ChainError Unit := do
  rejectIf (actual.transactionsRoot ≠ expected.transactionsRoot)
    (.rootMismatch .transactions (some actual.domainId))
  rejectIf (actual.stateRoot ≠ expected.stateRoot) (.rootMismatch .state (some actual.domainId))
  rejectIf (actual.receiptsRoot ≠ expected.receiptsRoot)
    (.rootMismatch .receipts (some actual.domainId))

def compareDomainBlock (pair : DomainBlockHeader × DomainBlockHeader) : Except ChainError Unit := do
  rejectIf (pair.1.number ≠ pair.2.number ∨ pair.1.parentHash ≠ pair.2.parentHash ∨
      pair.1.consensusHeight ≠ pair.2.consensusHeight)
    (.wrongDomainNumber pair.1.domainId)
  compareRoots pair.1 pair.2
  rejectIf (pair.1 ≠ pair.2) .headerMismatch

def compareCandidate (actual expected : ConsensusBlock) : Except ChainError Unit := do
  rejectIf (actual.header.batchesRoot ≠ expected.header.batchesRoot) (.rootMismatch .batches none)
  checkAll compareDomainBlock (actual.domainBlocks.zip expected.domainBlocks)
  rejectIf (actual.header.domainResultsRoot ≠ expected.header.domainResultsRoot)
    (.rootMismatch .domainResults none)
  rejectIf (actual.header.domainHeadsRoot ≠ expected.header.domainHeadsRoot)
    (.rootMismatch .domainHeads none)
  rejectIf (actual.header ≠ expected.header) .headerMismatch

theorem compareCandidate_self (block : ConsensusBlock) : compareCandidate block block = .ok () := by
  have hblocks : checkAll compareDomainBlock (block.domainBlocks.zip block.domainBlocks)
      = .ok () := by
    rw [checkAll_eq_ok]
    intro pair hpair
    have heq : pair.1 = pair.2 := by
      rw [zip, zipWith_self, mem_map] at hpair
      obtain ⟨header, _, rfl⟩ := hpair
      rfl
    simp [compareDomainBlock, compareRoots, heq]
  simp [compareCandidate, hblocks]

theorem eq_of_compareCandidate {actual expected : ConsensusBlock}
    (hlength : actual.domainBlocks.length = expected.domainBlocks.length)
    (h : compareCandidate actual expected = .ok ()) :
    actual.header = expected.header ∧ actual.domainBlocks = expected.domainBlocks := by
  obtain ⟨_, h⟩ := check_bind_eq_ok.mp h
  obtain ⟨hblocks, h⟩ := check_bind_eq_ok.mp h
  obtain ⟨_, h⟩ := check_bind_eq_ok.mp h
  obtain ⟨_, h⟩ := check_bind_eq_ok.mp h
  rw [rejectIf_eq_ok, not_not] at h
  refine ⟨h, ?_⟩
  rw [checkAll_eq_ok] at hblocks
  have hpairs : ∀ pair ∈ actual.domainBlocks.zip expected.domainBlocks, pair.1 = pair.2 := by
    intro pair hpair
    have hcompare := hblocks pair hpair
    obtain ⟨_, hcompare⟩ := check_bind_eq_ok.mp hcompare
    obtain ⟨_, hcompare⟩ := check_bind_eq_ok.mp hcompare
    rw [rejectIf_eq_ok, not_not] at hcompare
    exact hcompare
  have hfirst : (actual.domainBlocks.zip expected.domainBlocks).map Prod.fst
      = actual.domainBlocks := map_fst_zip hlength.le
  have hsecond : (actual.domainBlocks.zip expected.domainBlocks).map Prod.snd
      = expected.domainBlocks := map_snd_zip hlength.ge
  calc actual.domainBlocks
      = (actual.domainBlocks.zip expected.domainBlocks).map Prod.fst := hfirst.symm
    _ = (actual.domainBlocks.zip expected.domainBlocks).map Prod.snd :=
        map_congr_left hpairs
    _ = expected.domainBlocks := hsecond

/-- Aligned lists pass the validator's alignment check. -/
theorem aligned_of_map_eq {batches : List DomainBatch} {blocks : List DomainBlockHeader}
    (h : blocks.map (·.domainId) = batches.map (·.domainId)) : ¬(blocks.length ≠ batches.length ∨
      ((batches.zip blocks).any fun pair => pair.1.domainId ≠ pair.2.domainId) = true) := by
  induction batches generalizing blocks with
  | nil =>
    cases blocks with
    | nil => simp
    | cons block blocks => simp at h
  | cons batch batches ih =>
    cases blocks with
    | nil => simp at h
    | cons block blocks =>
      rw [map_cons, map_cons, cons.injEq] at h
      have hrest := ih h.2
      simpa [h.1] using hrest

section Execute

variable [Keccak] [Secp256k1] [Revm] [OrderedTrie]

variable {parent : FinalizedChainState} {height : ConsensusHeight} {timestamp : U64}
  {proposer : Address} {batches : List DomainBatch}

def domainEnv (parentConsensusHash : B256) (finalized : FinalizedDomain) (number : U64)
    (height : ConsensusHeight) (timestamp : U64) (proposer : Address) : DomainEnv where
  chainId := finalized.config.chainId
  blockNumber := number
  timestamp := timestamp
  beneficiary := proposer
  gasLimit := finalized.config.gasLimit
  baseFeePerGas := nextBaseFee finalized.header
  prevrandao := ConsensusBlock.derivedPrevrandao parentConsensusHash height

def executedHeader (finalized : FinalizedDomain) (batch : DomainBatch) (number : U64)
    (height : ConsensusHeight) (execution : DomainExecutionResult) : DomainBlockHeader where
  protocolVersion := PROTOCOL_VERSION
  domainId := batch.domainId
  number := number
  parentHash := finalized.blockHash
  consensusHeight := height
  transactionsRoot := execution.transactionsRoot
  stateRoot := execution.state.stateRoot
  receiptsRoot := execution.receiptsRoot
  logsBloom := execution.logsBloom
  gasLimit := finalized.config.gasLimit
  gasUsed := execution.gasUsed
  baseFeePerGas := nextBaseFee finalized.header

def executeDomain (parentConsensusHash : B256) (finalized : FinalizedDomain) (batch : DomainBatch)
    (height : ConsensusHeight) (timestamp : U64) (proposer : Address)
    (registry : ChainRegistryExecutionContext) :
    Except ChainError (DomainBlockHeader × DomainExecutionResult × FinalizedDomain) := do
  rejectIf (2 ^ 64 ≤ finalized.header.number.toNat + 1) (.wrongDomainNumber batch.domainId)
  let number := finalized.header.number + 1
  let env := domainEnv parentConsensusHash finalized number height timestamp proposer
  let spec ← ChainError.ofEvm (ProtocolSpec.resolve finalized.config.protocolRevision)
  let execution ← (Executor.executeBatchWithRegistry spec env finalized.state batch.transactions
    (some registry)).mapError fun source => .execution batch.domainId source
  let header := executedHeader finalized batch number height execution
  let blockHash ← ChainError.ofCrypto (Crypto.domainHeaderHash header)
  return (header, execution, ⟨finalized.config, header, blockHash, execution.state⟩)

def registryContext (parent : FinalizedChainState) (height : ConsensusHeight)
    (domainId : DomainId) : ChainRegistryExecutionContext where
  networkId := parent.networkId
  rootDomainId := parent.rootDomainId
  executingDomainId := domainId
  creationHeight := height
  finalizedHeads := parent.domains.map fun _ domain => domain.blockHash
  governanceAddress := parent.governanceAddress

structure Executing where
  state : FinalizedChainState
  domainBlocks : List DomainBlockHeader
  executions : List DomainExecutionResult
  aggregateGas : Nat

def executeBatch (parent : FinalizedChainState) (height : ConsensusHeight) (timestamp : U64)
    (proposer : Address) (batch : DomainBatch) (executing : Executing) :
    Except ChainError Executing :=
  match parent.domains[batch.domainId]? with
  | none => .error (.unknownDomain batch.domainId)
  | some finalized => do
    rejectIf (batch.parentDomainBlockHash ≠ finalized.blockHash)
      (.wrongDomainParent batch.domainId)
    let (header, execution, nextDomain) ← executeDomain parent.consensusHash finalized batch
      height timestamp proposer (registryContext parent height batch.domainId)
    let aggregateGas := executing.aggregateGas + execution.gasUsed.toNat
    rejectIf (2 ^ 64 ≤ aggregateGas) (.aggregateGas MAX_CONSENSUS_BLOCK_GAS (2 ^ 64 - 1))
    validateAggregateGas aggregateGas
    let state ← FinalizedChainState.insertCreatedDomains height execution.createdDomains
      { executing.state with
        domains := executing.state.domains.insert batch.domainId nextDomain }
    return { state
             domainBlocks := executing.domainBlocks ++ [header]
             executions := executing.executions ++ [execution]
             aggregateGas }

def executeBatches (parent : FinalizedChainState) (height : ConsensusHeight) (timestamp : U64)
    (proposer : Address) : List DomainBatch → Executing → Except ChainError Executing
  | [], executing => .ok executing
  | batch :: rest, executing => do
    let executing ← executeBatch parent height timestamp proposer batch executing
    executeBatches parent height timestamp proposer rest executing

/-- The block over executed batches, and the state it leads to. -/
def sealBlock (parent : FinalizedChainState) (height : ConsensusHeight) (timestamp : U64)
    (proposer : Address) (batches : List DomainBatch) (executed : Executing) :
    Except ChainError ValidatedProposal := do
  let batchesRoot ← ConsensusBlock.batchesRoot batches
  let domainResultsRoot ← ConsensusBlock.domainResultsRoot executed.domainBlocks
  let header : ConsensusBlockHeader :=
    { protocolVersion := PROTOCOL_VERSION
      networkId := parent.networkId
      height
      parentHash := parent.consensusHash
      timestamp
      batchesRoot
      domainResultsRoot
      domainHeadsRoot := executed.state.domainHeadsRoot
      validatorSetHash := parent.nextValidatorSetHash
      nextValidatorSetHash := parent.nextValidatorSetHash
      proposer }
  let block : ConsensusBlock := ⟨header, batches, executed.domainBlocks⟩
  let encoded ← block.encode
  rejectIf (MAX_CONSENSUS_BLOCK_BYTES < encoded.length)
    (.blockBytes MAX_CONSENSUS_BLOCK_BYTES encoded.length)
  let consensusHash ← block.hash
  return { block
           resultingState := { executed.state with
             validatorSetHash := parent.nextValidatorSetHash
             nextValidatorSetHash := parent.nextValidatorSetHash
             height
             consensusHash
             timestamp }
           executions := executed.executions }

def execute (parent : FinalizedChainState) (batches : List DomainBatch) (timestamp : U64)
    (proposer : Address) : Except ChainError ValidatedProposal := do
  validateTimestamp parent.timestamp timestamp
  rejectIf (MAX_BATCHES_PER_BLOCK < batches.length)
    (.tooManyBatches MAX_BATCHES_PER_BLOCK batches.length)
  rejectIf (2 ^ 64 ≤ parent.height.toNat + 1) .wrongConsensusParent
  let height := parent.height + 1
  let executed ← executeBatches parent height timestamp proposer batches ⟨parent, [], [], 0⟩
  sealBlock parent height timestamp proposer batches executed

def buildProposal (parent : FinalizedChainState) (batches : List DomainBatch) (timestamp : U64)
    (proposer : Address) : Except ChainError ValidatedProposal := do
  let batches := batches.mergeSort fun a b => a.domainId ≤ b.domainId
  ensureBatchOrder batches
  execute parent batches timestamp proposer

/-- The height after a finalized one, as the validator computes it. -/
def saturatingNext (height : ConsensusHeight) : ConsensusHeight :=
  if height.toNat + 1 < 2 ^ 64 then height + 1 else height

def validateProposal (parent : FinalizedChainState) (candidate : ConsensusBlock) :
    Except ChainError ValidatedProposal := do
  rejectIf (candidate.header.protocolVersion ≠ PROTOCOL_VERSION ∨
      candidate.header.networkId ≠ parent.networkId ∨
      candidate.header.height ≠ saturatingNext parent.height ∨
      candidate.header.parentHash ≠ parent.consensusHash)
    .wrongConsensusParent
  ensureBatchOrder candidate.batches
  rejectIf (candidate.domainBlocks.length ≠ candidate.batches.length ∨
      ((candidate.batches.zip candidate.domainBlocks).any fun pair =>
        pair.1.domainId ≠ pair.2.domainId) = true)
    .resultAlignment
  let expected ← execute parent candidate.batches candidate.header.timestamp
    candidate.header.proposer
  compareCandidate candidate expected.block
  return expected

/-! ## What execution does -/

/-- A batch executed on the parent's state of its domain. -/
structure BatchRun (parent : FinalizedChainState) (height : ConsensusHeight) (timestamp : U64)
    (proposer : Address) (batch : DomainBatch) (before after : Executing)
    (finalized : FinalizedDomain) (execution : DomainExecutionResult) (header : DomainBlockHeader)
    (blockHash : B256) : Prop where
  found : parent.domains[batch.domainId]? = some finalized
  onHead : batch.parentDomainBlockHash = finalized.blockHash
  number : finalized.header.number.toNat + 1 < 2 ^ 64
  executed : ∃ spec, ProtocolSpec.resolve finalized.config.protocolRevision = .ok spec ∧
    Executor.executeBatchWithRegistry spec
      (domainEnv parent.consensusHash finalized (finalized.header.number + 1) height timestamp
        proposer)
      finalized.state batch.transactions (some (registryContext parent height batch.domainId))
      = .ok execution
  header_eq : header
    = executedHeader finalized batch (finalized.header.number + 1) height execution
  hashed : Crypto.domainHeaderHash header = .ok blockHash
  gas : before.aggregateGas + execution.gasUsed.toNat ≤ MAX_CONSENSUS_BLOCK_GAS
  admitted : FinalizedChainState.insertCreatedDomains height execution.createdDomains
    { before.state with
      domains := before.state.domains.insert batch.domainId
        ⟨finalized.config, header, blockHash, execution.state⟩ } = .ok after.state
  domainBlocks : after.domainBlocks = before.domainBlocks ++ [header]
  executions : after.executions = before.executions ++ [execution]

theorem executeBatch_eq_ok {batch : DomainBatch} {before after : Executing}
    (h : executeBatch parent height timestamp proposer batch before = .ok after) :
    ∃ finalized execution header blockHash,
      BatchRun parent height timestamp proposer batch before after finalized execution header
        blockHash := by
  unfold executeBatch at h
  cases hdomain : parent.domains[batch.domainId]? with
  | none =>
    rw [hdomain] at h
    cases h
  | some finalized =>
    rw [hdomain] at h
    obtain ⟨honHead, h⟩ := check_bind_eq_ok.mp h
    obtain ⟨⟨header, execution, nextDomain⟩, hexecuted, h⟩ := bind_eq_ok.mp h
    obtain ⟨_, h⟩ := check_bind_eq_ok.mp h
    obtain ⟨hgas, h⟩ := check_bind_eq_ok.mp h
    obtain ⟨state, hadmitted, h⟩ := bind_eq_ok.mp h
    cases h
    obtain ⟨hnumber, hexecuted⟩ := check_bind_eq_ok.mp hexecuted
    obtain ⟨spec, hspec, hexecuted⟩ := bind_eq_ok.mp hexecuted
    obtain ⟨result, hresult, hexecuted⟩ := bind_eq_ok.mp hexecuted
    obtain ⟨blockHash, hhash, hexecuted⟩ := bind_eq_ok.mp hexecuted
    cases hexecuted
    rw [rejectIf_eq_ok, not_not] at honHead
    rw [rejectIf_eq_ok, not_le] at hnumber
    rw [validateAggregateGas, rejectIf_eq_ok, not_lt] at hgas
    exact ⟨finalized, execution, _, blockHash, hdomain, honHead, hnumber,
      ⟨spec, mapError_eq_ok.mp hspec, mapError_eq_ok.mp hresult⟩, rfl, mapError_eq_ok.mp hhash,
      hgas, hadmitted, rfl, rfl⟩

/-- What every batch keeps, a list of them keeps. -/
theorem executeBatches_induct {P : Executing → Prop} : ∀ {before after : Executing},
      (∀ {batch before after}, batch ∈ batches → P before →
        executeBatch parent height timestamp proposer batch before = .ok after → P after) →
      P before → executeBatches parent height timestamp proposer batches before = .ok after →
      P after := by
  induction batches with
  | nil =>
    intro before after _ hinv h
    cases h
    exact hinv
  | cons batch rest ih =>
    intro before after hstep hinv h
    obtain ⟨next, hnext, hrest⟩ := bind_eq_ok.mp h
    have hkept : P next := hstep mem_cons_self hinv hnext
    exact ih (fun hmem => hstep (mem_cons_of_mem _ hmem)) hkept hrest

variable {proposal : ValidatedProposal}

omit [Secp256k1] [Revm] [OrderedTrie] in
theorem sealBlock_eq_ok {executed : Executing}
    (h : sealBlock parent height timestamp proposer batches executed = .ok proposal) :
    ∃ batchesRoot domainResultsRoot consensusHash,
      proposal.block = ⟨⟨PROTOCOL_VERSION, parent.networkId, height, parent.consensusHash,
        timestamp,
        batchesRoot, domainResultsRoot, executed.state.domainHeadsRoot, parent.nextValidatorSetHash,
        parent.nextValidatorSetHash, proposer⟩, batches, executed.domainBlocks⟩ ∧
      proposal.executions = executed.executions ∧
      (∃ encoded, proposal.block.encode = .ok encoded ∧
        encoded.length ≤ MAX_CONSENSUS_BLOCK_BYTES) ∧
      proposal.block.hash = .ok consensusHash ∧
      proposal.resultingState = { executed.state with
        validatorSetHash := parent.nextValidatorSetHash
        nextValidatorSetHash := parent.nextValidatorSetHash
        height
        consensusHash
        timestamp } := by
  obtain ⟨batchesRoot, _, h⟩ := bind_eq_ok.mp h
  obtain ⟨resultsRoot, _, h⟩ := bind_eq_ok.mp h
  obtain ⟨encoded, hencoded, h⟩ := bind_eq_ok.mp h
  obtain ⟨hbytes, h⟩ := check_bind_eq_ok.mp h
  obtain ⟨consensusHash, hhash, h⟩ := bind_eq_ok.mp h
  cases h
  rw [rejectIf_eq_ok, not_lt] at hbytes
  exact ⟨batchesRoot, resultsRoot, consensusHash, rfl, rfl, ⟨encoded, hencoded, hbytes⟩, hhash, rfl⟩

/-- The state a block leads to: that of its batches, with the new consensus head. -/
structure BlockRun (parent : FinalizedChainState) (batches : List DomainBatch) (timestamp : U64)
    (proposer : Address) (proposal : ValidatedProposal) (executed : Executing) : Prop where
  timely : validateTimestamp parent.timestamp timestamp = .ok ()
  count : batches.length ≤ MAX_BATCHES_PER_BLOCK
  height : parent.height.toNat + 1 < 2 ^ 64
  ran : executeBatches parent (parent.height + 1) timestamp proposer batches ⟨parent, [], [], 0⟩
    = .ok executed
  sealed : sealBlock parent (parent.height + 1) timestamp proposer batches executed = .ok proposal
  resulting : ∃ consensusHash, proposal.block.hash = .ok consensusHash ∧
    proposal.resultingState = { executed.state with
      validatorSetHash := parent.nextValidatorSetHash
      nextValidatorSetHash := parent.nextValidatorSetHash
      height := parent.height + 1
      consensusHash
      timestamp }

theorem execute_eq_ok (h : execute parent batches timestamp proposer = .ok proposal) :
    ∃ executed, BlockRun parent batches timestamp proposer proposal executed := by
  obtain ⟨htimely, h⟩ := check_bind_eq_ok.mp h
  obtain ⟨hcount, h⟩ := check_bind_eq_ok.mp h
  obtain ⟨hheight, h⟩ := check_bind_eq_ok.mp h
  obtain ⟨executed, hexecuted, hsealed⟩ := bind_eq_ok.mp h
  obtain ⟨_, _, consensusHash, _, _, _, hhash, hresulting⟩ := sealBlock_eq_ok hsealed
  rw [rejectIf_eq_ok, not_lt] at hcount
  rw [rejectIf_eq_ok, not_le] at hheight
  exact ⟨executed, htimely, hcount, hheight, hexecuted, hsealed, consensusHash, hhash, hresulting⟩

theorem execute_identity (h : execute parent batches timestamp proposer = .ok proposal) :
    proposal.resultingState.identity = parent.identity := by
  obtain ⟨executed, hrun⟩ := execute_eq_ok h
  obtain ⟨consensusHash, _, hresulting⟩ := hrun.resulting
  have hexecuted : executed.state.identity = parent.identity := by
    refine executeBatches_induct (P := fun executing => executing.state.identity = parent.identity)
      ?_ rfl hrun.ran
    intro batch before after _ hbefore hbatch
    obtain ⟨finalized, execution, header, blockHash, hstep⟩ := executeBatch_eq_ok hbatch
    exact (FinalizedChainState.insertCreatedDomains_identity hstep.admitted).trans hbefore
  rw [hresulting]
  exact hexecuted

/-! ## Agreement -/

/-- What one batch adds: a header of its own domain. -/
theorem executeBatch_domainBlocks {batch : DomainBatch} {before after : Executing}
    (h : executeBatch parent height timestamp proposer batch before = .ok after) :
    ∃ header, header.domainId = batch.domainId ∧
      after.domainBlocks = before.domainBlocks ++ [header] := by
  obtain ⟨finalized, execution, header, blockHash, hrun⟩ := executeBatch_eq_ok h
  exact ⟨header, by rw [hrun.header_eq]; rfl, hrun.domainBlocks⟩

theorem executeBatches_domainBlocks : ∀ {before after : Executing},
      executeBatches parent height timestamp proposer batches before = .ok after →
      after.domainBlocks.map (·.domainId)
        = before.domainBlocks.map (·.domainId) ++ batches.map (·.domainId) := by
  induction batches with
  | nil =>
    intro before after h
    cases h
    simp
  | cons batch rest ih =>
    intro before after h
    obtain ⟨next, hnext, hrest⟩ := bind_eq_ok.mp h
    obtain ⟨header, hheader, hblocks⟩ := executeBatch_domainBlocks hnext
    rw [ih hrest, hblocks]
    simp [hheader]

/-- What execution returns: a block over the given batches that extends the parent. -/
structure Extends (parent : FinalizedChainState) (batches : List DomainBatch) (timestamp : U64)
    (proposer : Address) (block : ConsensusBlock) : Prop where
  version : block.header.protocolVersion = PROTOCOL_VERSION
  network : block.header.networkId = parent.networkId
  height : block.header.height = saturatingNext parent.height
  parentHash : block.header.parentHash = parent.consensusHash
  timestamp : block.header.timestamp = timestamp
  proposer : block.header.proposer = proposer
  aligned : block.domainBlocks.map (·.domainId) = batches.map (·.domainId)
  batches : block.batches = batches

theorem execute_extends (h : execute parent batches timestamp proposer = .ok proposal) :
    Extends parent batches timestamp proposer proposal.block := by
  obtain ⟨executed, hrun⟩ := execute_eq_ok h
  have hblocks := executeBatches_domainBlocks hrun.ran
  obtain ⟨_, _, _, hblock, _⟩ := sealBlock_eq_ok hrun.sealed
  have hnext : parent.height + 1 = saturatingNext parent.height := by
    unfold saturatingNext
    rw [if_pos hrun.height]
  rw [hblock]
  exact ⟨rfl, rfl, hnext, rfl, rfl, rfl, by simpa using hblocks, rfl⟩

theorem validateProposal_of_execute (horder : ensureBatchOrder batches = .ok ())
    (h : execute parent batches timestamp proposer = .ok proposal) :
    validateProposal parent proposal.block = .ok proposal := by
  have hext := execute_extends h
  have haligned := hext.aligned
  rw [← hext.batches] at horder haligned h
  unfold validateProposal
  rw [hext.version, hext.network, hext.height, hext.parentHash, hext.timestamp, hext.proposer,
    horder, h, rejectIf_neg (aligned_of_map_eq haligned)]
  simp [compareCandidate_self]

theorem validateProposal_eq_ok {candidate : ConsensusBlock}
    (h : validateProposal parent candidate = .ok proposal) :
    batchesSorted candidate.batches = true ∧
      candidate.domainBlocks.length = candidate.batches.length ∧
      execute parent candidate.batches candidate.header.timestamp candidate.header.proposer
        = .ok proposal ∧ compareCandidate candidate proposal.block = .ok () := by
  obtain ⟨_, h⟩ := check_bind_eq_ok.mp h
  obtain ⟨horder, h⟩ := check_bind_eq_ok.mp h
  obtain ⟨halign, h⟩ := check_bind_eq_ok.mp h
  obtain ⟨expected, hexpected, h⟩ := bind_eq_ok.mp h
  obtain ⟨hcompare, h⟩ := check_bind_eq_ok.mp h
  cases h
  rw [ensureBatchOrder, rejectIf_eq_ok, Bool.not_eq_false] at horder
  rw [rejectIf_eq_ok, not_or, not_not] at halign
  exact ⟨horder, halign.1, hexpected, hcompare⟩

/-- A candidate validates only to a proposal of itself: the comparison covers what execution
does not take from the candidate. -/
theorem block_of_validateProposal {candidate : ConsensusBlock}
    (h : validateProposal parent candidate = .ok proposal) : proposal.block = candidate := by
  obtain ⟨_, halign, hexecuted, hcompare⟩ := validateProposal_eq_ok h
  have hext := execute_extends hexecuted
  have hlength : candidate.domainBlocks.length = proposal.block.domainBlocks.length := by
    rw [halign, ← length_map (·.domainId), ← hext.aligned, length_map]
  obtain ⟨hheader, hblocks⟩ := eq_of_compareCandidate hlength hcompare
  have hbatches := hext.batches
  cases candidate
  cases hproposal : proposal.block
  simp_all

/-- **Builder and validator agree.**  A built proposal validates to itself, and a
candidate validates only to a proposal whose block is the candidate. -/
theorem builder_and_validator_agree (parent : FinalizedChainState) :
    (∀ batches timestamp proposer proposal,
      buildProposal parent batches timestamp proposer = .ok proposal →
      validateProposal parent proposal.block = .ok proposal) ∧ (∀ candidate proposal,
      validateProposal parent candidate = .ok proposal → proposal.block = candidate) := by
  constructor
  · intro batches timestamp proposer proposal h
    obtain ⟨horder, h⟩ := check_bind_eq_ok.mp h
    exact validateProposal_of_execute horder h
  · exact fun candidate proposal h => block_of_validateProposal h

end Execute

section Sample

@[reducible] def sampleKeccak : Keccak := ⟨fun input => BitVec.ofNat 256 input.length⟩
@[reducible] def sampleCurve : Secp256k1 := ⟨fun _ => false, fun _ _ _ _ => none, fun _ => true⟩
@[reducible] def sampleRevm : Revm := ⟨fun _ => .error (.transaction "rejected"), fun _ => 21000⟩
@[reducible] def sampleTrie : OrderedTrie := ⟨fun values => BitVec.ofNat 256 values.length⟩

attribute [local instance] sampleKeccak sampleCurve sampleRevm sampleTrie

def sampleParent : FinalizedChainState where
  networkId := 5
  height := 3
  consensusHash := 7
  timestamp := 100
  validatorSetHash := 9
  nextValidatorSetHash := 9
  rootDomainId := 1
  governanceAddress := 2
  domains := (∅ : BTreeMap DomainId FinalizedDomain).insert 1
    ⟨⟨1, 1, 30000000, 7⟩, firstHeader 1 0 0 30000000 7, 11, ⟨⟨0, ∅, ∅⟩, ∅, ∅, ∅⟩⟩
  descriptors := ∅

def sampleBatch : DomainBatch := ⟨1, 11, []⟩

theorem sample_executes :
    (execute sampleParent [sampleBatch] 101 4).isOk = true := by decide +kernel

end Sample

section Payments

/-- The scattering hash, except on pairs of nodes of the tree of domain heads, so that
roots are cheap in runs of several blocks; no block commits to such a pair itself. -/
@[reducible] def flatKeccak : Keccak :=
  ⟨fun input => if input.length = 85 then 0 else scatteringKeccak.keccak256 input⟩

/-- A machine on which every transaction that meets the rules is a plain payment. -/
@[reducible] def payingRevm [Keccak] : Revm := plainRevm fun _ => .done true

attribute [local instance] scatteringKeccak namingCurve payingRevm sampleTrie

def payer : BTreeMap Address GenesisAccount :=
  (∅ : BTreeMap Address GenesisAccount).insert 0xfef ⟨0, 1000000000000000000000000, [], ∅⟩

def paymentOn (chainId nonce : U64) (value : U256) : Bytes :=
  (Ethereum.encodeEip1559 ⟨chainId, nonce, 0, 2000000000, 21000, some 0xabc, value, [], [], false,
    0xfef, 1⟩).toOption.getD []

def paymentOf (nonce : U64) (value : U256) : Bytes := paymentOn 2048 nonce value

def fundedChain [Keccak] : Except ChainError FinalizedChainState := do
  let state ← ChainError.ofEvm (ExecutionState.fromGenesis payer)
  FinalizedChainState.genesis ⟨5, 6, 1700000000, 9, 1, 0xfef, ⟨2048, 1, 30000000, 1000000000⟩,
    state⟩

/-- The batch of payments for the root domain of a chain. -/
def paymentBatch (chain : FinalizedChainState) (payments : List Bytes) : DomainBatch :=
  ⟨1, ((chain.domains[(1 : DomainId)]?).map (·.blockHash)).getD 0, payments⟩

/-- The block of payments after a state. -/
def paidBlock [Keccak] [Secp256k1] [Revm] [OrderedTrie] (chain : FinalizedChainState)
    (payments : List Bytes) : Except ChainError ValidatedProposal :=
  execute chain [paymentBatch chain payments] (chain.timestamp + 1) 0xfee

theorem paidBlock_eq_ok [Keccak] [Secp256k1] [Revm] [OrderedTrie] {chain : FinalizedChainState}
    {payments : List Bytes} {proposal : ValidatedProposal}
    (h : paidBlock chain payments = .ok proposal) :
    validateProposal chain proposal.block = .ok proposal ∧
      proposal.block.batches = [paymentBatch chain payments] :=
  ⟨validateProposal_of_execute rfl h, (execute_extends h).batches⟩

def twoPayments : Option (FinalizedChainState × ValidatedProposal) := do
  let parent ← fundedChain.toOption
  let proposal ← (paidBlock parent [paymentOf 0 5, paymentOf 1 7]).toOption
  return (parent, proposal)

theorem twoPayments_isSome : twoPayments.isSome = true := by decide +kernel

theorem buildProposal_singleton {parent : FinalizedChainState} (batch : DomainBatch)
    (timestamp : U64) (proposer : Address) : buildProposal parent [batch] timestamp proposer
      = execute parent [batch] timestamp proposer := by
  have horder : ensureBatchOrder [batch] = .ok () := rfl
  rw [buildProposal, mergeSort_singleton, horder, ok_bind]

/-- A built block of two payments validates to its own proposal. -/
theorem builder_and_validator_agree_two_payments : ∃ parent payments proposal,
    payments.length = 2 ∧ proposal.block.batches = [paymentBatch parent payments] ∧
      buildProposal parent [paymentBatch parent payments] (parent.timestamp + 1) 0xfee
        = .ok proposal ∧
      validateProposal parent proposal.block = .ok proposal := by
  obtain ⟨⟨parent, proposal⟩, hsample⟩ := Option.isSome_iff_exists.mp twoPayments_isSome
  rw [twoPayments] at hsample
  obtain ⟨_, _, hsample⟩ := Option.bind_eq_some_iff.mp hsample
  obtain ⟨_, hexecuted, hsample⟩ := Option.bind_eq_some_iff.mp hsample
  cases hsample
  have hran := toOption_eq_some.mp hexecuted
  have hbuilt := (buildProposal_singleton _ _ _).trans hran
  exact ⟨parent, _, proposal, rfl, (paidBlock_eq_ok hran).2, hbuilt,
    (builder_and_validator_agree parent).1 _ _ 0xfee proposal hbuilt⟩

end Payments

end ChainMachine

section Proposes

variable [Keccak] [Secp256k1] [Revm] [OrderedTrie]

/-- A proposal that has been built or validated on a state. -/
inductive Proposes (parent : FinalizedChainState) (proposal : ValidatedProposal) : Prop
  | built (batches : List DomainBatch) (timestamp : U64) (proposer : Address) :
      ChainMachine.buildProposal parent batches timestamp proposer = .ok proposal →
      Proposes parent proposal
  | validated (candidate : ConsensusBlock) :
      ChainMachine.validateProposal parent candidate = .ok proposal → Proposes parent proposal

/-- A proposal is the execution of sorted batches. -/
theorem Proposes.executes {parent : FinalizedChainState} {proposal : ValidatedProposal}
    (h : Proposes parent proposal) :
    ∃ batches timestamp proposer, ChainMachine.batchesSorted batches = true ∧
      ChainMachine.execute parent batches timestamp proposer = .ok proposal := by
  cases h with
  | built batches timestamp proposer h =>
    obtain ⟨horder, h⟩ := check_bind_eq_ok.mp h
    rw [ChainMachine.ensureBatchOrder, rejectIf_eq_ok, Bool.not_eq_false] at horder
    exact ⟨_, timestamp, proposer, horder, h⟩
  | validated candidate h =>
    obtain ⟨horder, _, hexecuted, _⟩ := ChainMachine.validateProposal_eq_ok h
    exact ⟨_, _, _, horder, hexecuted⟩

/-- What a proposal's own block says of its execution. -/
theorem Proposes.executes_block {parent : FinalizedChainState} {proposal : ValidatedProposal}
    (h : Proposes parent proposal) : ChainMachine.batchesSorted proposal.block.batches = true ∧
      ChainMachine.execute parent proposal.block.batches proposal.block.header.timestamp
        proposal.block.header.proposer = .ok proposal := by
  obtain ⟨batches, timestamp, proposer, hsorted, h⟩ := h.executes
  have hextends := ChainMachine.execute_extends h
  rw [hextends.batches, hextends.timestamp, hextends.proposer]
  exact ⟨hsorted, h⟩

end Proposes

end Arbor
