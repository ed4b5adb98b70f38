import Arbor.Chain.State

/-!
# Checkpoints of the finalized state

A checkpoint lists every domain with its configuration, header, state and descriptor.  A
state is rebuilt from one only if the domains are strictly sorted, each header goes with its
state, configuration and hash, chain IDs are distinct, and every descriptor is committed by
the root's registry and leads up to the root.
-/

namespace Arbor

open Result SystemContract

namespace FinalizedChainState

/-- The domains of a checkpoint taken in so far. -/
structure Reconstructed where
  domains : BTreeMap DomainId FinalizedDomain
  descriptors : BTreeMap DomainId DomainDescriptor
  chainIds : BTreeSet U64

section Checkpoints

variable [Keccak]

def checkpoint (chain : FinalizedChainState) : FinalizedChainCheckpoint where
  networkId := chain.networkId
  height := chain.height
  consensusHash := chain.consensusHash
  timestamp := chain.timestamp
  validatorSetHash := chain.validatorSetHash
  nextValidatorSetHash := chain.nextValidatorSetHash
  rootDomainId := chain.rootDomainId
  governanceAddress := chain.governanceAddress
  domainHeadsRoot := chain.domainHeadsRoot
  domains := chain.domains.toList.map fun domain =>
    ⟨domain.1, domain.2.config, domain.2.header, domain.2.blockHash, domain.2.state,
      chain.descriptors[domain.1]?⟩

def validateCheckpointDescriptor (networkId : NetworkId) (domainId : DomainId)
    (config : DomainConfig) (descriptor : DomainDescriptor) : Except ChainError Unit :=
  rejectIf (descriptor.domainId ≠ domainId ∨ descriptor.status ≠ .active ∨
      descriptor.evmChainId ≠ config.chainId ∨
      descriptor.protocolRevision ≠ config.protocolRevision ∨
      descriptor.gasLimit ≠ config.gasLimit ∨
      descriptor.initialBaseFee ≠ config.initialBaseFeePerGas ∨
      Crypto.deriveDomainId networkId descriptor.parentDomainId descriptor.createTxHash ≠ domainId)
    (.checkpoint "runtime domain descriptor mismatch")

/-- The root has no descriptor, and every other domain has one. -/
def addDescriptor (networkId : NetworkId) (rootDomainId : DomainId)
    (descriptors : BTreeMap DomainId DomainDescriptor) (entry : FinalizedDomainCheckpoint) :
    Except ChainError (BTreeMap DomainId DomainDescriptor) :=
  match decide (entry.domainId = rootDomainId), entry.descriptor with
  | true, none => .ok descriptors
  | true, some _ => .error (.checkpoint "root domain must not have a runtime descriptor")
  | false, some descriptor => do
    validateCheckpointDescriptor networkId entry.domainId entry.config descriptor
    return descriptors.insert entry.domainId descriptor
  | false, none => .error (.checkpoint "runtime domain descriptor is missing")

def reconstructDomain (networkId : NetworkId) (rootDomainId : DomainId) (height : ConsensusHeight)
    (done : Reconstructed) (entry : FinalizedDomainCheckpoint) :
    Except ChainError Reconstructed := do
  entry.config.validate
  rejectIf (entry.header.domainId ≠ entry.domainId ∨
      entry.header.stateRoot ≠ entry.state.stateRoot ∨
      height < entry.header.consensusHeight ∨
      entry.header.gasLimit ≠ entry.config.gasLimit)
    (.checkpoint "domain header, state, config, or hash mismatch")
  let blockHash ← ChainError.ofCrypto (Crypto.domainHeaderHash entry.header)
  rejectIf (blockHash ≠ entry.blockHash)
    (.checkpoint "domain header, state, config, or hash mismatch")
  rejectIf (entry.config.chainId ∈ done.chainIds) (.checkpoint "duplicate checkpoint chain ID")
  let descriptors ← addDescriptor networkId rootDomainId done.descriptors entry
  return { domains := done.domains.insert entry.domainId
             ⟨entry.config, entry.header, entry.blockHash, entry.state⟩
           descriptors
           chainIds := done.chainIds.insert entry.config.chainId }

def reconstructCheckpointDomains (networkId : NetworkId) (rootDomainId : DomainId)
    (height : ConsensusHeight) (entries : List FinalizedDomainCheckpoint) :
    Except ChainError Reconstructed :=
  entries.foldlM (reconstructDomain networkId rootDomainId height) ⟨∅, ∅, ∅⟩

/-- A descriptor must have its hash in the root's registry and its parent among the domains. -/
def validateCommittedDescriptor (root : FinalizedDomain)
    (domains : BTreeMap DomainId FinalizedDomain)
    (descriptor : DomainId × DomainDescriptor) : Except ChainError Unit := do
  rejectIf (descriptor.2.parentDomainId ∉ domains) (.checkpoint "descriptor parent is missing")
  let encoded ← ChainError.ofCodec (Canonical.encodeDomainDescriptor descriptor.2)
  let committed ← ChainError.ofEvm
    (root.state.storage CHAIN_REGISTRY_ADDRESS (descriptorSlot descriptor.1))
  rejectIf (committed ≠ keccak256 encoded)
    (.checkpoint "descriptor is not committed by root ChainRegistry")

def validateCheckpointDescriptors (root : FinalizedDomain)
    (domains : BTreeMap DomainId FinalizedDomain)
    (descriptors : BTreeMap DomainId DomainDescriptor) : Except ChainError Unit :=
  checkAll (validateCommittedDescriptor root domains) descriptors.toList

/-- The state a checkpoint describes, with given domains and descriptors. -/
def restored (checkpoint : FinalizedChainCheckpoint) (done : Reconstructed) :
    FinalizedChainState where
  networkId := checkpoint.networkId
  height := checkpoint.height
  consensusHash := checkpoint.consensusHash
  timestamp := checkpoint.timestamp
  validatorSetHash := checkpoint.validatorSetHash
  nextValidatorSetHash := checkpoint.nextValidatorSetHash
  rootDomainId := checkpoint.rootDomainId
  governanceAddress := checkpoint.governanceAddress
  domains := done.domains
  descriptors := done.descriptors

def validateRestored (checkpoint : FinalizedChainCheckpoint) (chain : FinalizedChainState) :
    Except ChainError Unit := do
  rejectIf (chain.domainHeadsRoot ≠ checkpoint.domainHeadsRoot)
    (.checkpoint "domain-head root mismatch")
  checkAll (fun domainId => do
    let _ ← chain.genealogy domainId
    return ()) chain.descriptors.keys

def fromCheckpoint (checkpoint : FinalizedChainCheckpoint) :
    Except ChainError FinalizedChainState := do
  rejectIf (checkpoint.height = 0) (.checkpoint "checkpoint height must be non-zero")
  rejectIf (checkpoint.domains = []) (.checkpoint "checkpoint has no domains")
  rejectIf (Canonical.strictlySorted (checkpoint.domains.map (·.domainId)) = false)
    (.checkpoint "checkpoint domains are not strictly sorted")
  let done ← reconstructCheckpointDomains checkpoint.networkId checkpoint.rootDomainId
    checkpoint.height checkpoint.domains
  match done.domains[checkpoint.rootDomainId]? with
  | none => throw (.checkpoint "root domain is missing")
  | some root => do
    validateCheckpointDescriptors root done.domains done.descriptors
    validateRestored checkpoint (restored checkpoint done)
    return restored checkpoint done

/-! ## What a rebuilt state satisfies -/

/-- One entry adds its own domain, which is consistent. -/
theorem reconstructDomain_eq_ok {networkId : NetworkId} {rootDomainId : DomainId}
    {height : ConsensusHeight} {done done' : Reconstructed} {entry : FinalizedDomainCheckpoint}
    (h : reconstructDomain networkId rootDomainId height done entry = .ok done') :
    entry.config.validate = .ok () ∧ FinalizedDomain.Consistent height entry.domainId
        ⟨entry.config, entry.header, entry.blockHash, entry.state⟩ ∧
      done'.domains = done.domains.insert entry.domainId
        ⟨entry.config, entry.header, entry.blockHash, entry.state⟩ := by
  obtain ⟨hconfig, h⟩ := check_bind_eq_ok.mp h
  obtain ⟨hheader, h⟩ := check_bind_eq_ok.mp h
  obtain ⟨blockHash, hhash, h⟩ := bind_eq_ok.mp h
  obtain ⟨hblock, h⟩ := check_bind_eq_ok.mp h
  obtain ⟨_, h⟩ := check_bind_eq_ok.mp h
  obtain ⟨descriptors, _, h⟩ := bind_eq_ok.mp h
  cases h
  rw [rejectIf_eq_ok, not_or, not_or, not_or, not_not, not_not, not_not] at hheader
  rw [rejectIf_eq_ok, not_not] at hblock
  obtain ⟨hdomain, hroot, hheight, hgas⟩ := hheader
  subst hblock
  exact ⟨hconfig, ⟨hdomain, hroot, BitVec.not_lt.mp hheight, hgas, mapError_eq_ok.mp hhash⟩, rfl⟩

theorem fromCheckpoint_eq_ok {checkpoint : FinalizedChainCheckpoint} {chain : FinalizedChainState}
    (h : fromCheckpoint checkpoint = .ok chain) : checkpoint.height ≠ 0 ∧
      (∃ done, chain = restored checkpoint done ∧ checkpoint.rootDomainId ∈ done.domains) ∧
      chain.domainHeadsRoot = checkpoint.domainHeadsRoot ∧
      ∀ (domainId : DomainId) (domain : FinalizedDomain), chain.domains[domainId]? = some domain →
        domain.config.validate = .ok () ∧ domain.Consistent chain.height domainId := by
  obtain ⟨hheight, h⟩ := check_bind_eq_ok.mp h
  obtain ⟨_, h⟩ := check_bind_eq_ok.mp h
  obtain ⟨_, h⟩ := check_bind_eq_ok.mp h
  obtain ⟨done, hdone, h⟩ := bind_eq_ok.mp h
  rcases hroot : done.domains[checkpoint.rootDomainId]? with _ | root
  · rw [hroot] at h
    cases h
  rw [hroot] at h
  obtain ⟨_, h⟩ := check_bind_eq_ok.mp h
  obtain ⟨hvalid, h⟩ := check_bind_eq_ok.mp h
  cases h
  obtain ⟨hheads, _⟩ := check_bind_eq_ok.mp hvalid
  rw [rejectIf_eq_ok, not_not] at hheads
  refine ⟨rejectIf_eq_ok.mp hheight, ⟨done, rfl, OrdMap.mem_iff_exists.mpr ⟨root, hroot⟩⟩, hheads,
    ?_⟩
  refine foldlM_invariant (I := fun _ done => ∀ (domainId : DomainId) (domain : FinalizedDomain),
    done.domains[domainId]? = some domain → domain.config.validate = .ok () ∧
      domain.Consistent checkpoint.height domainId) ?_ [] (by simp) hdone
  intro _ entry before after hbefore hstep domainId domain hget
  obtain ⟨hconfig, hentry, hdomains⟩ := reconstructDomain_eq_ok hstep
  rw [hdomains, Std.ExtTreeMap.getElem?_insert] at hget
  split at hget
  · rename_i heq
    rw [← Std.LawfulEqCmp.compare_eq_iff_eq.mp heq, ← Option.some.inj hget]
    exact ⟨hconfig, hentry⟩
  · exact hbefore domainId domain hget

end Checkpoints

end FinalizedChainState

end Arbor
