import Arbor.Executor
import Arbor.Lib.OrdMap
import Arbor.State.DomainHeads

/-!
# Finalized chain state

The consensus head and, for every domain, its configuration, latest header and
execution state; domains created at run time also have a descriptor.  A created domain
is admitted only if it is new, its parent exists, its identity and chain ID are as
derived, and its genesis state is the one the descriptor commits to.
-/

namespace Arbor

open Result

def MAX_CONSENSUS_BLOCK_GAS : Nat := 120000000
def MAX_DOMAIN_BLOCK_GAS : Nat := 30000000
def MAX_CONSENSUS_BLOCK_BYTES : Nat := 16 * 1024 * 1024
def MAX_TIMESTAMP_STEP_SECONDS : Nat := 30

structure DomainConfig where
  chainId : U64
  protocolRevision : U32
  gasLimit : U64
  initialBaseFeePerGas : U128
  deriving DecidableEq

inductive RootField where
  | batches
  | transactions
  | state
  | receipts
  | domainResults
  | domainHeads
  deriving DecidableEq

inductive ChainError where
  | invalidDomainConfig (what : String)
  | duplicateGenesisDomain (domainId : DomainId)
  | duplicateCreatedDomain (domainId : DomainId)
  | registryInvariant (what : String)
  | checkpoint (what : String)
  | wrongConsensusParent
  | invalidTimestamp (minimum maximum actual : Nat)
  | nonCanonicalBatches
  | unknownDomain (domainId : DomainId)
  | wrongDomainParent (domainId : DomainId)
  | resultAlignment
  | wrongDomainNumber (domainId : DomainId)
  | rootMismatch (field : RootField) (domainId : Option DomainId)
  | headerMismatch
  | tooManyBatches (limit actual : Nat)
  | aggregateGas (limit actual : Nat)
  | blockBytes (limit actual : Nat)
  | execution (domainId : DomainId) (source : ExecutorError)
  | encoding (what : String)
  | decode (what : String)
  | invalidResultProof (what : String)
  deriving DecidableEq

def ChainError.ofCrypto {α : Type} (result : Except CryptoError α) : Except ChainError α :=
  result.mapError fun error => .encoding error.display

def ChainError.ofCodec {α : Type} (result : Except CodecError α) : Except ChainError α :=
  result.mapError fun error => .encoding error.display

def ChainError.ofEvm {α : Type} (result : Except EvmError α) : Except ChainError α :=
  result.mapError fun error => .encoding error.display

def DomainConfig.validate (config : DomainConfig) : Except ChainError Unit := do
  rejectIf (config.chainId = 0) (.invalidDomainConfig "chain ID must be non-zero")
  rejectIf (config.gasLimit = 0 ∨ MAX_DOMAIN_BLOCK_GAS < config.gasLimit.toNat)
    (.invalidDomainConfig "gas limit must be in 1..=30,000,000")
  rejectIf (2 ^ 64 ≤ config.initialBaseFeePerGas.toNat)
    (.invalidDomainConfig "base fee exceeds the fixed EVM block field")
  rejectIf (config.protocolRevision ≠ 1) (.invalidDomainConfig "unknown protocol revision")

theorem DomainConfig.validate_eq_ok {config : DomainConfig} {u : Unit} :
    config.validate = .ok u ↔ config.chainId ≠ 0 ∧
      (config.gasLimit ≠ 0 ∧ config.gasLimit.toNat ≤ MAX_DOMAIN_BLOCK_GAS) ∧
      config.initialBaseFeePerGas.toNat < 2 ^ 64 ∧ config.protocolRevision = 1 := by
  simp [validate, check_bind_eq_ok]

structure FinalizedDomain where
  config : DomainConfig
  header : DomainBlockHeader
  blockHash : B256
  state : ExecutionState
  deriving DecidableEq

/-- What a domain's header says of the domain, at a finalized height. -/
structure FinalizedDomain.Consistent [Keccak] (height : ConsensusHeight) (domainId : DomainId)
    (domain : FinalizedDomain) : Prop where
  domainId : domain.header.domainId = domainId
  stateRoot : domain.header.stateRoot = domain.state.stateRoot
  consensusHeight : domain.header.consensusHeight ≤ height
  gasLimit : domain.header.gasLimit = domain.config.gasLimit
  blockHash : Crypto.domainHeaderHash domain.header = .ok domain.blockHash

structure FinalizedChainGenesis where
  networkId : NetworkId
  consensusHash : B256
  timestamp : U64
  validatorSetHash : B256
  rootDomainId : DomainId
  governanceAddress : Address
  config : DomainConfig
  state : ExecutionState

structure FinalizedChainState where
  networkId : NetworkId
  height : ConsensusHeight
  consensusHash : B256
  timestamp : U64
  validatorSetHash : B256
  nextValidatorSetHash : B256
  rootDomainId : DomainId
  governanceAddress : Address
  domains : BTreeMap DomainId FinalizedDomain
  descriptors : BTreeMap DomainId DomainDescriptor
  deriving DecidableEq

structure FinalizedDomainCheckpoint where
  domainId : DomainId
  config : DomainConfig
  header : DomainBlockHeader
  blockHash : B256
  state : ExecutionState
  descriptor : Option DomainDescriptor
  deriving DecidableEq

structure FinalizedChainCheckpoint where
  networkId : NetworkId
  height : ConsensusHeight
  consensusHash : B256
  timestamp : U64
  validatorSetHash : B256
  nextValidatorSetHash : B256
  rootDomainId : DomainId
  governanceAddress : Address
  domainHeadsRoot : B256
  domains : List FinalizedDomainCheckpoint
  deriving DecidableEq

def firstHeader [OrderedTrie] (domainId : DomainId) (height : ConsensusHeight) (stateRoot : B256)
    (gasLimit : U64) (baseFeePerGas : U128) : DomainBlockHeader where
  protocolVersion := PROTOCOL_VERSION
  domainId := domainId
  number := 0
  parentHash := 0
  consensusHeight := height
  transactionsRoot := OrderedTrie.orderedTrieRoot []
  stateRoot := stateRoot
  receiptsRoot := OrderedTrie.orderedTrieRoot []
  logsBloom := 0
  gasLimit := gasLimit
  gasUsed := 0
  baseFeePerGas := baseFeePerGas

namespace FinalizedChainState

section Reads

variable (chain : FinalizedChainState)

/-- The walk from a domain up to the root; `reversed` ends with the domain.  No domain
is seen twice, so the walk is never longer than the descriptors. -/
def climb : Nat → DomainId → List DomainId → Except ChainError (List DomainId)
  | 0, _, _ => .error (.registryInvariant "cyclic domain genealogy")
  | fuel + 1, current, path =>
    if current = chain.rootDomainId then .ok path
    else
      match chain.descriptors[current]? with
      | none => .error (.registryInvariant "missing parent descriptor")
      | some descriptor =>
        if descriptor.parentDomainId ∈ path then
          .error (.registryInvariant "cyclic domain genealogy")
        else climb fuel descriptor.parentDomainId (descriptor.parentDomainId :: path)

/-- The domains from the root to a domain. -/
def genealogy (domainId : DomainId) : Except ChainError (List DomainId) :=
  if domainId ∉ chain.domains then .error (.unknownDomain domainId)
  else chain.climb (chain.descriptors.size + 2) domainId [domainId]

end Reads

section Transitions

variable [Keccak]

variable {height : ConsensusHeight} {created : List CreatedDomain}

def headsCommitment (domains : BTreeMap DomainId FinalizedDomain) : DomainHeadsCommitment :=
  domains.toList.foldl (fun heads domain =>
    heads.insert domain.1 ⟨domain.2.blockHash, domain.2.header.stateRoot⟩)
    DomainHeadsCommitment.new

def domainHeadsRoot (chain : FinalizedChainState) : B256 := (headsCommitment chain.domains).root

variable [OrderedTrie]

def genesis (genesis : FinalizedChainGenesis) : Except ChainError FinalizedChainState := do
  genesis.config.validate
  let header := firstHeader genesis.rootDomainId 0 genesis.state.stateRoot genesis.config.gasLimit
    genesis.config.initialBaseFeePerGas
  let blockHash ← ChainError.ofCrypto (Crypto.domainHeaderHash header)
  return { networkId := genesis.networkId
           height := 0
           consensusHash := genesis.consensusHash
           timestamp := genesis.timestamp
           validatorSetHash := genesis.validatorSetHash
           nextValidatorSetHash := genesis.validatorSetHash
           rootDomainId := genesis.rootDomainId
           governanceAddress := genesis.governanceAddress
           domains := (∅ : BTreeMap DomainId FinalizedDomain).insert genesis.rootDomainId
             ⟨genesis.config, header, blockHash, genesis.state⟩
           descriptors := ∅ }

def descriptorGenesis (descriptor : DomainDescriptor) (stateRoot : B256) : DomainGenesis where
  domainId := descriptor.domainId
  parentDomainId := descriptor.parentDomainId
  jointDomainBlockHash := descriptor.jointDomainBlockHash
  createTxHash := descriptor.createTxHash
  name := descriptor.name
  symbol := descriptor.symbol
  evmChainId := descriptor.evmChainId
  owner := descriptor.owner
  protocolRevision := descriptor.protocolRevision
  gasLimit := descriptor.gasLimit
  initialBaseFee := descriptor.initialBaseFee
  initialSupply := descriptor.initialSupply
  initialStateRoot := stateRoot

def validateDomainGenesis (descriptor : DomainDescriptor) (state : ExecutionState) :
    Except ChainError Unit := do
  let account ← ChainError.ofEvm (state.account descriptor.owner)
  rejectIf ((account.map (·.balance)).getD 0 ≠ descriptor.initialSupply)
    (.registryInvariant "owner allocation differs from initial supply")
  let originHash ← ChainError.ofCrypto
    (Crypto.domainGenesisHash (descriptorGenesis descriptor state.stateRoot))
  rejectIf (originHash ≠ descriptor.originHash) (.registryInvariant "domain origin hash mismatch")

def descriptorConfig (descriptor : DomainDescriptor) : DomainConfig :=
  ⟨descriptor.evmChainId, descriptor.protocolRevision, descriptor.gasLimit,
    descriptor.initialBaseFee⟩

def insertCreatedDomain (chain : FinalizedChainState) (created : CreatedDomain)
    (height : ConsensusHeight) : Except ChainError FinalizedChainState := do
  let descriptor := created.descriptor
  rejectIf (descriptor.domainId ∈ chain.domains ∨ descriptor.domainId ∈ chain.descriptors)
    (.duplicateCreatedDomain descriptor.domainId)
  rejectIf (descriptor.parentDomainId ∉ chain.domains)
    (.registryInvariant "created domain parent is absent")
  rejectIf (descriptor.status ≠ .active ∨
      Crypto.deriveDomainId chain.networkId descriptor.parentDomainId descriptor.createTxHash
        ≠ descriptor.domainId)
    (.registryInvariant "created domain identity/status mismatch")
  rejectIf ((chain.domains.toList.any fun domain =>
      domain.2.config.chainId = descriptor.evmChainId) = true)
    (.registryInvariant "duplicate EVM chain ID")
  (descriptorConfig descriptor).validate
  validateDomainGenesis descriptor created.genesisState
  let header := firstHeader descriptor.domainId height created.genesisState.stateRoot
    descriptor.gasLimit descriptor.initialBaseFee
  let blockHash ← ChainError.ofCrypto (Crypto.domainHeaderHash header)
  return { chain with
    domains := chain.domains.insert descriptor.domainId
      ⟨descriptorConfig descriptor, header, blockHash, created.genesisState⟩
    descriptors := chain.descriptors.insert descriptor.domainId descriptor }

def insertCreatedDomains (height : ConsensusHeight) :
    List CreatedDomain → FinalizedChainState → Except ChainError FinalizedChainState
  | [], chain => .ok chain
  | created :: rest, chain => do
    let chain ← chain.insertCreatedDomain created height
    insertCreatedDomains height rest chain

/-- What never changes along a chain. -/
def identity (chain : FinalizedChainState) : NetworkId × DomainId × Address :=
  (chain.networkId, chain.rootDomainId, chain.governanceAddress)

structure Admissible (chain : FinalizedChainState) (created : CreatedDomain) : Prop where
  fresh : created.descriptor.domainId ∉ chain.domains ∧
    created.descriptor.domainId ∉ chain.descriptors
  parent : created.descriptor.parentDomainId ∈ chain.domains
  active : created.descriptor.status = .active
  derived : Crypto.deriveDomainId chain.networkId created.descriptor.parentDomainId
    created.descriptor.createTxHash = created.descriptor.domainId
  unused : ∀ domainId domain, (domainId, domain) ∈ chain.domains.toList →
    domain.config.chainId ≠ created.descriptor.evmChainId
  config : (descriptorConfig created.descriptor).validate = .ok ()
  genesis : validateDomainGenesis created.descriptor created.genesisState = .ok ()

def createdHeader (created : CreatedDomain) (height : ConsensusHeight) : DomainBlockHeader :=
  firstHeader created.descriptor.domainId height created.genesisState.stateRoot
    created.descriptor.gasLimit created.descriptor.initialBaseFee

theorem insertCreatedDomain_eq_ok {chain after : FinalizedChainState} {created : CreatedDomain}
    (h : chain.insertCreatedDomain created height = .ok after) : Admissible chain created ∧
      ∃ blockHash, Crypto.domainHeaderHash (createdHeader created height) = .ok blockHash ∧
        after = { chain with
          domains := chain.domains.insert created.descriptor.domainId
            ⟨descriptorConfig created.descriptor, createdHeader created height, blockHash,
              created.genesisState⟩
          descriptors :=
            chain.descriptors.insert created.descriptor.domainId created.descriptor } := by
  obtain ⟨hfresh, h⟩ := check_bind_eq_ok.mp h
  obtain ⟨hparent, h⟩ := check_bind_eq_ok.mp h
  obtain ⟨hderived, h⟩ := check_bind_eq_ok.mp h
  obtain ⟨hunused, h⟩ := check_bind_eq_ok.mp h
  obtain ⟨hconfig, h⟩ := check_bind_eq_ok.mp h
  obtain ⟨hgenesis, h⟩ := check_bind_eq_ok.mp h
  obtain ⟨blockHash, hhash, h⟩ := bind_eq_ok.mp h
  cases h
  rw [rejectIf_eq_ok, not_or] at hfresh
  rw [rejectIf_eq_ok, not_not] at hparent
  rw [rejectIf_eq_ok, not_or, not_not, not_not] at hderived
  rw [rejectIf_eq_ok, List.any_eq_true] at hunused
  refine ⟨⟨hfresh, hparent, hderived.1, hderived.2, ?_, hconfig, hgenesis⟩, blockHash,
    mapError_eq_ok.mp hhash, rfl⟩
  intro domainId domain hmem hsame
  exact hunused ⟨(domainId, domain), hmem, by simpa using hsame⟩

/-- What every admitted domain keeps, a list of them keeps. -/
theorem insertCreatedDomains_induct {P : FinalizedChainState → Prop} :
    ∀ {chain after : FinalizedChainState},
      (∀ {chain after : FinalizedChainState} {domain : CreatedDomain}, domain ∈ created → P chain →
        chain.insertCreatedDomain domain height = .ok after → P after) →
      P chain → insertCreatedDomains height created chain = .ok after → P after := by
  induction created with
  | nil =>
    intro chain after _ hinv h
    cases h
    exact hinv
  | cons domain rest ih =>
    intro chain after hstep hinv h
    obtain ⟨next, hnext, hrest⟩ := bind_eq_ok.mp h
    have hkept : P next := hstep List.mem_cons_self hinv hnext
    exact ih (fun hmem => hstep (List.mem_cons_of_mem _ hmem)) hkept hrest

theorem insertCreatedDomains_frame : ∀ {chain after : FinalizedChainState},
      insertCreatedDomains height created chain = .ok after →
      (∀ domainId ∈ chain.domains, after.domains[domainId]? = chain.domains[domainId]?) ∧
        (∀ domainId ∈ chain.descriptors,
          after.descriptors[domainId]? = chain.descriptors[domainId]?) ∧
        ∀ domainId domain, after.domains[domainId]? = some domain → domainId ∉ chain.domains →
          ∃ new ∈ created, new.descriptor.domainId = domainId ∧
            after.descriptors[domainId]? = some new.descriptor ∧
            domain.config = descriptorConfig new.descriptor ∧
            domain.header = createdHeader new height ∧ domain.state = new.genesisState := by
  induction created with
  | nil =>
    intro chain after h
    cases h
    exact ⟨fun _ _ => rfl, fun _ _ => rfl, fun domainId domain hdomain hnew =>
      absurd (OrdMap.mem_iff_exists.mpr ⟨domain, hdomain⟩) hnew⟩
  | cons new rest ih =>
    intro chain after h
    obtain ⟨next, hnext, hrest⟩ := bind_eq_ok.mp h
    obtain ⟨hadmissible, blockHash, _, rfl⟩ := insertCreatedDomain_eq_ok hnext
    obtain ⟨hdomains, hdescriptors, hcreated⟩ := ih hrest
    refine ⟨fun domainId hmem => ?_, fun domainId hmem => ?_,
      fun domainId domain hdomain hnew => ?_⟩
    · have hne : new.descriptor.domainId ≠ domainId := fun heq => hadmissible.fresh.1 (heq ▸ hmem)
      rw [hdomains domainId (Std.ExtTreeMap.mem_insert.mpr (.inr hmem)), OrdMap.getElem?_insert,
        if_neg hne]
    · have hne : new.descriptor.domainId ≠ domainId := fun heq => hadmissible.fresh.2 (heq ▸ hmem)
      rw [hdescriptors domainId (Std.ExtTreeMap.mem_insert.mpr (.inr hmem)),
        OrdMap.getElem?_insert, if_neg hne]
    · by_cases hself : new.descriptor.domainId = domainId
      · have hkept := hdomains domainId (by rw [← hself]; exact Std.ExtTreeMap.mem_insert_self)
        have hdescriptor := hdescriptors domainId
          (by rw [← hself]; exact Std.ExtTreeMap.mem_insert_self)
        rw [OrdMap.getElem?_insert, if_pos hself] at hkept hdescriptor
        rw [hkept, Option.some.injEq] at hdomain
        subst hdomain
        exact ⟨new, List.mem_cons_self, hself, hdescriptor, rfl, rfl, rfl⟩
      · have hlater : domainId ∉ chain.domains.insert new.descriptor.domainId
            ⟨descriptorConfig new.descriptor, createdHeader new height, blockHash,
              new.genesisState⟩ := by
          rw [Std.ExtTreeMap.mem_insert, not_or]
          exact ⟨fun heq => hself (Std.LawfulEqCmp.compare_eq_iff_eq.mp heq), hnew⟩
        obtain ⟨other, hother, hresult⟩ := hcreated domainId domain hdomain hlater
        exact ⟨other, List.mem_cons_of_mem _ hother, hresult⟩

theorem insertCreatedDomains_identity {chain after : FinalizedChainState}
    (h : insertCreatedDomains height created chain = .ok after) :
    after.identity = chain.identity := by
  refine insertCreatedDomains_induct (P := fun next => next.identity = chain.identity) ?_ rfl h
  intro before next domain _ hbefore hinsert
  obtain ⟨_, blockHash, _, rfl⟩ := insertCreatedDomain_eq_ok hinsert
  exact hbefore

end Transitions

end FinalizedChainState

end Arbor
