import Arbor.Chain.Machine

/-!
# What a block does to the domains

A block replaces the domains of its batches and adds the domains they create, in order, and
changes no other: the domains after it are those before it with a list of updates inserted
(`execute_updates`).  Each update carries a header of the block's height that goes with its
state, configuration and hash.
-/

namespace Arbor

open Result List

namespace ChainMachine

section Updates

/-- The domains an execution changes, with the height and the state each ends with. -/
def touched (height : ConsensusHeight) (executed : DomainBlockHeader × DomainExecutionResult) :
    List (DomainId × ConsensusHeight × ExecutionState) :=
  (executed.1.domainId, executed.1.consensusHeight, executed.2.state) ::
    executed.2.createdDomains.map fun created =>
      (created.descriptor.domainId, height, created.genesisState)

variable [Keccak]

variable {height : ConsensusHeight} {parent : FinalizedChainState} {timestamp : U64}
  {proposer : Address} {batches : List DomainBatch}

/-- The states before and after a list of updates at a height. -/
structure Updates (height : ConsensusHeight) (before after : FinalizedChainState)
    (updates : List (DomainId × FinalizedDomain)) : Prop where
  domains : after.domains = before.domains.insertMany updates
  consistent : ∀ update ∈ updates, update.2.Consistent height update.1

/-- Domain, height and state of an update. -/
def outcome (update : DomainId × FinalizedDomain) : DomainId × ConsensusHeight × ExecutionState :=
  (update.1, update.2.header.consensusHeight, update.2.state)

theorem Updates.nil (height : ConsensusHeight) (chain : FinalizedChainState) :
    Updates height chain chain [] :=
  ⟨Std.ExtTreeMap.insertMany_nil.symm, by simp⟩

theorem Updates.append {first second third : FinalizedChainState}
    {updates updates' : List (DomainId × FinalizedDomain)} (h : Updates height first second updates)
    (h' : Updates height second third updates') :
    Updates height first third (updates ++ updates') where
  domains := by rw [h'.domains, h.domains, Std.ExtTreeMap.insertMany_append]
  consistent update hupdate := by
    rcases mem_append.mp hupdate with hfirst | hsecond
    · exact h.consistent update hfirst
    · exact h'.consistent update hsecond

variable [OrderedTrie]

theorem insertCreatedDomain_updates {chain after : FinalizedChainState} {created : CreatedDomain}
    (h : chain.insertCreatedDomain created height = .ok after) :
    ∃ update, Updates height chain after [update] ∧
      outcome update = (created.descriptor.domainId, height, created.genesisState) := by
  obtain ⟨_, blockHash, hhash, rfl⟩ := FinalizedChainState.insertCreatedDomain_eq_ok h
  refine ⟨(created.descriptor.domainId, ⟨FinalizedChainState.descriptorConfig created.descriptor,
    FinalizedChainState.createdHeader created height, blockHash, created.genesisState⟩),
    ⟨Std.ExtTreeMap.insertMany_list_singleton.symm, ?_⟩, rfl⟩
  intro update hupdate
  rw [mem_singleton.mp hupdate]
  exact ⟨rfl, rfl, BitVec.le_refl _, rfl, hhash⟩

theorem insertCreatedDomains_updates {created : List CreatedDomain} :
    ∀ {chain after : FinalizedChainState},
      FinalizedChainState.insertCreatedDomains height created chain = .ok after →
      ∃ updates, Updates height chain after updates ∧ updates.map outcome
        = created.map fun created =>
          (created.descriptor.domainId, height, created.genesisState) := by
  induction created with
  | nil =>
    intro chain after h
    cases h
    exact ⟨[], Updates.nil height _, rfl⟩
  | cons domain rest ih =>
    intro chain after h
    obtain ⟨next, hnext, hrest⟩ := bind_eq_ok.mp h
    obtain ⟨update, hupdate, houtcome⟩ := insertCreatedDomain_updates hnext
    obtain ⟨updates, hupdates, houtcomes⟩ := ih hrest
    exact ⟨[update] ++ updates, hupdate.append hupdates, by simp [houtcome, houtcomes]⟩

variable [Secp256k1] [Revm]

theorem executeBatch_updates {batch : DomainBatch} {before after : Executing}
    (h : executeBatch parent height timestamp proposer batch before = .ok after) :
    ∃ header execution updates, after.domainBlocks = before.domainBlocks ++ [header] ∧
      after.executions = before.executions ++ [execution] ∧
      Updates height before.state after.state updates ∧
      updates.map outcome = touched height (header, execution) := by
  obtain ⟨finalized, execution, header, blockHash, hrun⟩ := executeBatch_eq_ok h
  obtain ⟨updates, hcreated, houtcomes⟩ := insertCreatedDomains_updates hrun.admitted
  have hheader := hrun.header_eq
  have hown : Updates height before.state
      { before.state with
        domains := before.state.domains.insert batch.domainId
          ⟨finalized.config, header, blockHash, execution.state⟩ }
      [(batch.domainId, ⟨finalized.config, header, blockHash, execution.state⟩)] := by
    refine ⟨Std.ExtTreeMap.insertMany_list_singleton.symm, fun update hupdate => ?_⟩
    rw [mem_singleton.mp hupdate]
    refine ⟨?_, ?_, ?_, ?_, hrun.hashed⟩ <;> rw [hheader]
    · rfl
    · rfl
    · exact BitVec.le_refl height
    · rfl
  refine ⟨header, execution, _, hrun.domainBlocks, hrun.executions, hown.append hcreated, ?_⟩
  rw [map_append, houtcomes, touched, hheader]
  rfl

theorem executeBatches_updates : ∀ {before after : Executing},
      executeBatches parent height timestamp proposer batches before = .ok after →
      ∃ headers executions updates, headers.length = executions.length ∧
        after.domainBlocks = before.domainBlocks ++ headers ∧
        after.executions = before.executions ++ executions ∧
        Updates height before.state after.state updates ∧
        updates.map outcome = (headers.zip executions).flatMap (touched height) := by
  induction batches with
  | nil =>
    intro before after h
    cases h
    exact ⟨[], [], [], rfl, (append_nil _).symm, (append_nil _).symm,
      Updates.nil height _, rfl⟩
  | cons batch rest ih =>
    intro before after h
    obtain ⟨next, hnext, hrest⟩ := bind_eq_ok.mp h
    obtain ⟨header, execution, updates, hblocks, hexecutions, hupdates, houtcomes⟩ :=
      executeBatch_updates hnext
    obtain ⟨headers, executions, updates', hlength, hblocks', hexecutions', hupdates',
      houtcomes'⟩ :=
      ih hrest
    refine ⟨header :: headers, execution :: executions, updates ++ updates', by simp [hlength],
      ?_, ?_, hupdates.append hupdates', ?_⟩
    · rw [hblocks', hblocks, append_assoc, singleton_append]
    · rw [hexecutions', hexecutions, append_assoc, singleton_append]
    · rw [map_append, houtcomes, houtcomes', zip_cons_cons, flatMap_cons]

variable {proposal : ValidatedProposal}

section

variable (h : execute parent batches timestamp proposer = .ok proposal)
include h

/-- **The domains after a block.** -/
theorem execute_updates : proposal.block.domainBlocks.length = proposal.executions.length ∧
      ∃ updates, Updates proposal.block.header.height parent proposal.resultingState updates ∧
        updates.map outcome = (proposal.block.domainBlocks.zip proposal.executions).flatMap
          (touched proposal.block.header.height) := by
  obtain ⟨executed, hrun⟩ := execute_eq_ok h
  obtain ⟨headers, executions, updates, hlength, hblocks, hexecutions, hupdates, houtcomes⟩ :=
    executeBatches_updates hrun.ran
  obtain ⟨_, _, _, hblock, hexecuted, _, _, hresulting⟩ := sealBlock_eq_ok hrun.sealed
  rw [nil_append] at hblocks hexecutions
  rw [hblock, hexecuted, hresulting]
  subst hblocks
  subst hexecutions
  exact ⟨hlength, updates, ⟨hupdates.domains, hupdates.consistent⟩, houtcomes⟩

theorem execute_head :
    Crypto.consensusHeaderHash proposal.block.header = .ok proposal.resultingState.consensusHash ∧
      proposal.resultingState.height = proposal.block.header.height ∧
      proposal.resultingState.domainHeadsRoot = proposal.block.header.domainHeadsRoot := by
  obtain ⟨executed, hrun⟩ := execute_eq_ok h
  obtain ⟨_, _, _, hblock, _, _, hhash, hresulting⟩ := sealBlock_eq_ok hrun.sealed
  rw [ConsensusBlock.hash, ChainError.ofCrypto, mapError_eq_ok] at hhash
  rw [hresulting]
  refine ⟨hhash, ?_, ?_⟩ <;> rw [hblock]
  rfl

end

end Updates

end ChainMachine

end Arbor
