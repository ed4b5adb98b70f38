import Arbor.Chain.Machine
import Arbor.Mempool
import Arbor.Storage.Database

/-!
# Development genesis and reachable states

A development genesis fixes the network, the root domain, one validator and the root's
accounts; the registry account is prepared with a nonce and the root's own records.
The states of a development chain are those that built or validated proposals lead to
(`Reachable`).
-/

namespace Arbor

open Result SystemContract

/-- Development engine, storage, proposal or recovery failure. -/
inductive ConsensusError where
  | devModeRequired
  | invalidGenesis (what : String)
  | invalidGenesisOwned (what : String)
  | genesisMismatch
  | proposalPending
  | unknownProposal
  | inconsistentStore (what : String)
  | unknownDomain
  | chain (error : ChainError)
  | mempool (error : MempoolError)
  | storage (error : StorageError)
  deriving DecidableEq

/-- Root domain and validator of a development database. -/
structure DevGenesis where
  networkId : NetworkId
  genesisHash : B256
  timestamp : U64
  rootDomainId : DomainId
  rootConfig : DomainConfig
  validatorSet : ValidatorSet
  rewardAddress : Address
  governanceAddress : Address
  allocations : BTreeMap Address GenesisAccount
  deriving DecidableEq

namespace DevGenesis

def DEV_GENESIS_TAG : Bytes := ascii "ARBOR_DEV_GENESIS_RECORD_V1"

section Genesis

variable [Keccak]

/-- Slots added to a storage; none may be there already. -/
def insertSlots : List (U256 × U256) → BTreeMap U256 U256 →
    Except ConsensusError (BTreeMap U256 U256)
  | [], storage => .ok storage
  | (slot, value) :: rest, storage => do
    rejectIf (slot ∈ storage) (.invalidGenesis "native ChainRegistry genesis slot collision")
    insertSlots rest (storage.insert slot value)

def registryAccount (genesis : DevGenesis) : Except ConsensusError GenesisAccount := do
  let registry := genesis.allocations[CHAIN_REGISTRY_ADDRESS]?.getD ⟨0, 0, [], ∅⟩
  rejectIf (registry.code ≠ [])
    (.invalidGenesis "native ChainRegistry address cannot contain bytecode")
  rejectIf (registry.nonce ≠ 0) (.invalidGenesis "native ChainRegistry genesis nonce is reserved")
  let storage ← insertSlots
    (rootRegistryGenesisStorage genesis.rootDomainId genesis.rootConfig.chainId).toList
    registry.storage
  return { registry with nonce := 1, storage }

def executionState (genesis : DevGenesis) : Except ConsensusError ExecutionState := do
  let registry ← genesis.registryAccount
  (ExecutionState.fromGenesis (genesis.allocations.insert CHAIN_REGISTRY_ADDRESS registry)).mapError
    fun error => .invalidGenesisOwned error.display

variable [Secp256k1]

def validatorHash (genesis : DevGenesis) : Except ConsensusError B256 :=
  (Crypto.validatorSetHash genesis.validatorSet).mapError
    fun error => .invalidGenesisOwned error.display

def fingerprint (genesis : DevGenesis) : Except ConsensusError B256 := do
  rejectIf (genesis.validatorSet.validators.length ≠ 1)
    (.invalidGenesis "dev validator set must contain exactly one validator")
  let validatorHash ← genesis.validatorHash
  let state ← genesis.executionState
  return keccak256 (DEV_GENESIS_TAG ++ toBytes genesis.networkId ++ toBytes genesis.genesisHash ++
    toBytes genesis.timestamp ++ toBytes genesis.rootDomainId ++
    toBytes genesis.rootConfig.chainId ++ toBytes genesis.rootConfig.protocolRevision ++
    toBytes genesis.rootConfig.gasLimit ++ toBytes genesis.rootConfig.initialBaseFeePerGas ++
    toBytes validatorHash ++ toBytes genesis.rewardAddress ++ toBytes genesis.governanceAddress ++
    toBytes state.stateRoot)

variable [OrderedTrie]

def chainState (genesis : DevGenesis) : Except ConsensusError FinalizedChainState := do
  let validatorSetHash ← genesis.validatorHash
  let state ← genesis.executionState
  (FinalizedChainState.genesis
    { networkId := genesis.networkId
      consensusHash := genesis.genesisHash
      timestamp := genesis.timestamp
      validatorSetHash
      rootDomainId := genesis.rootDomainId
      governanceAddress := genesis.governanceAddress
      config := genesis.rootConfig
      state }).mapError .chain

variable {chain : FinalizedChainState}

theorem chainState_eq_ok {genesis : DevGenesis}
    (h : genesis.chainState = .ok chain) : ∃ validatorSetHash state blockHash,
      genesis.validatorHash = .ok validatorSetHash ∧ genesis.executionState = .ok state ∧
      genesis.rootConfig.validate = .ok () ∧
      Crypto.domainHeaderHash (firstHeader genesis.rootDomainId 0 state.stateRoot
        genesis.rootConfig.gasLimit genesis.rootConfig.initialBaseFeePerGas) = .ok blockHash ∧
      chain = { networkId := genesis.networkId
                height := 0
                consensusHash := genesis.genesisHash
                timestamp := genesis.timestamp
                validatorSetHash
                nextValidatorSetHash := validatorSetHash
                rootDomainId := genesis.rootDomainId
                governanceAddress := genesis.governanceAddress
                domains := (∅ : BTreeMap DomainId FinalizedDomain).insert genesis.rootDomainId
                  ⟨genesis.rootConfig, firstHeader genesis.rootDomainId 0 state.stateRoot
                    genesis.rootConfig.gasLimit genesis.rootConfig.initialBaseFeePerGas,
                    blockHash, state⟩
                descriptors := ∅ } := by
  obtain ⟨validatorSetHash, hvalidator, h⟩ := bind_eq_ok.mp h
  obtain ⟨state, hstate, h⟩ := bind_eq_ok.mp h
  have hstart := mapError_eq_ok.mp h
  obtain ⟨hconfig, hstart⟩ := check_bind_eq_ok.mp hstart
  obtain ⟨blockHash, hhash, hstart⟩ := bind_eq_ok.mp hstart
  cases hstart
  exact ⟨validatorSetHash, state, blockHash, hvalidator, hstate, hconfig, mapError_eq_ok.mp hhash,
    rfl⟩

theorem chainState_identity {genesis : DevGenesis} (h : genesis.chainState = .ok chain) :
    chain.identity = (genesis.networkId, genesis.rootDomainId, genesis.governanceAddress) := by
  obtain ⟨_, _, _, _, _, _, _, rfl⟩ := chainState_eq_ok h
  rfl

end Genesis

end DevGenesis

section Reachable

variable [Keccak] [Secp256k1] [Revm] [OrderedTrie]

/-- The states of a development chain. -/
inductive Reachable (genesis : DevGenesis) : FinalizedChainState → Prop
  | genesis {chain : FinalizedChainState} : genesis.chainState = .ok chain → Reachable genesis chain
  | extend {chain : FinalizedChainState} {proposal : ValidatedProposal} : Reachable genesis chain →
      Proposes chain proposal → Reachable genesis proposal.resultingState

theorem Reachable.identity {genesis : DevGenesis} {chain : FinalizedChainState}
    (h : Reachable genesis chain) :
    chain.identity = (genesis.networkId, genesis.rootDomainId, genesis.governanceAddress) := by
  induction h with
  | genesis h => exact DevGenesis.chainState_identity h
  | extend _ hproposes ih =>
    obtain ⟨batches, timestamp, proposer, _, h⟩ := hproposes.executes
    exact (ChainMachine.execute_identity h).trans ih

end Reachable

section Sample

attribute [local instance] rollingKeccak ChainMachine.sampleCurve ChainMachine.sampleTrie

def sampleGenesis (allocations : BTreeMap Address GenesisAccount) : DevGenesis where
  networkId := 5
  genesisHash := 6
  timestamp := 1700000000
  rootDomainId := 1
  rootConfig := ⟨2048, 1, 30000000, 1000000000⟩
  validatorSet := ⟨0, [⟨Crypto.validatorId 9, 9, 1⟩]⟩
  rewardAddress := 0xfee
  governanceAddress := 0xfef
  allocations := allocations

end Sample

end Arbor
