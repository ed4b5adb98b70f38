import Arbor.Chain.Machine

/-!
# What a block does to each domain

A domain without a batch is left as it was.  A domain with a batch becomes what executing the
batch on its parent state makes of it, whatever other batches the block has.  A domain that
was not there is created by a transaction of the root's batch on the head its parent had
before the block.  All three are one invariant of the loop over batches (`Placed`).
-/

namespace Arbor

open Result SystemContract OrdMap

namespace ChainMachine

section Frame

variable {batches others : List DomainBatch}

theorem pairwise_sortedBatches (batches : List DomainBatch) :
    (batches.mergeSort fun a b => a.domainId ≤ b.domainId).Pairwise
      fun a b => decide (a.domainId ≤ b.domainId) = true := by
  refine List.pairwise_mergeSort (fun a b c hab hbc => ?_) (fun a b => ?_) batches
  · rw [decide_eq_true_eq] at hab hbc ⊢
    exact BitVec.le_trans hab hbc
  · rw [Bool.or_eq_true, decide_eq_true_eq, decide_eq_true_eq]
    exact BitVec.le_total _ _

/-- Batches of distinct domains are sorted in one way. -/
theorem eq_of_batchesSorted (h : batchesSorted batches = true)
    (hsorted : others.Pairwise fun a b => decide (a.domainId ≤ b.domainId) = true)
    (hperm : batches.Perm others) : batches = others := by
  refine List.Perm.eq_of_pairwise ?_ ?_ hsorted hperm
  · intro a b ha hb hab hba
    rw [decide_eq_true_eq] at hab hba
    exact List.inj_on_of_nodup_map (nodup_of_batchesSorted h) ha (hperm.mem_iff.mpr hb)
      (BitVec.le_antisymm hab hba)
  · exact (pairwise_of_batchesSorted h).imp fun hlt => decide_eq_true_eq.mpr (BitVec.le_of_lt hlt)

variable [Keccak] [Secp256k1] [Revm] [OrderedTrie]

variable {parent : FinalizedChainState} {timestamp : U64} {proposer : Address} {batch : DomainBatch}
  {finalized : FinalizedDomain} {execution : DomainExecutionResult} {header : DomainBlockHeader}
  {proposal : ValidatedProposal}

/-- A domain new in a block: a transaction of the root's batch created it, its first block is
number zero at the block's height, and it is joined to the head its parent had before. -/
structure CreatedIn (parent : FinalizedChainState) (batches : List DomainBatch)
    (domain : FinalizedDomain) (descriptor : DomainDescriptor) : Prop where
  transaction : ∃ batch ∈ batches, batch.domainId = parent.rootDomainId ∧
    ∃ envelope ∈ batch.transactions, ∃ transaction,
      Ethereum.decodeEip1559 envelope = .ok transaction ∧
      transaction.recipient = some CHAIN_REGISTRY_ADDRESS ∧
      Crypto.eip1559TransactionHash transaction = .ok descriptor.createTxHash
  number : domain.header.number = 0
  height : domain.header.consensusHeight = parent.height + 1
  joint : ∃ head, parent.domains[descriptor.parentDomainId]? = some head ∧
    descriptor.jointDomainBlockHash = head.blockHash

/-- A domain's next block and state, from its batch, its own finalized block and state, and
what the proposal fixes for all domains. -/
def advance (parent : FinalizedChainState) (timestamp : U64) (proposer : Address)
    (finalized : FinalizedDomain) (batch : DomainBatch) :
    Except ChainError (DomainBlockHeader × DomainExecutionResult × FinalizedDomain) :=
  executeDomain parent.consensusHash finalized batch (parent.height + 1) timestamp proposer
    (registryContext parent (parent.height + 1) batch.domainId)

/-- The domains of a block after some of its batches. -/
structure Placed (parent : FinalizedChainState) (timestamp : U64) (proposer : Address)
    (batches done : List DomainBatch) (chain : FinalizedChainState) : Prop where
  idle : ∀ domainId ∈ parent.domains, domainId ∉ done.map (·.domainId) →
    chain.domains[domainId]? = parent.domains[domainId]?
  advanced : ∀ batch ∈ done, ∃ finalized header execution next,
    parent.domains[batch.domainId]? = some finalized ∧
      advance parent timestamp proposer finalized batch = .ok (header, execution, next) ∧
      chain.domains[batch.domainId]? = some next
  created : ∀ domainId domain, chain.domains[domainId]? = some domain → domainId ∉ parent.domains →
    ∃ descriptor, chain.descriptors[domainId]? = some descriptor ∧
      CreatedIn parent batches domain descriptor

theorem BatchRun.advance_eq {before after : Executing} {blockHash : B256}
    (run : BatchRun parent (parent.height + 1) timestamp proposer batch before after finalized
      execution header blockHash) : advance parent timestamp proposer finalized batch
      = .ok (header, execution, ⟨finalized.config, header, blockHash, execution.state⟩) := by
  obtain ⟨spec, hspec, hexecuted⟩ := run.executed
  have hhash := run.hashed
  rw [run.header_eq] at hhash
  unfold advance executeDomain
  rw [rejectIf_neg (not_le.mpr run.number), hspec]
  simp only [ok_bind, ChainError.ofEvm, ChainError.ofCrypto, mapError_ok, hexecuted, hhash]
  rw [run.header_eq]
  rfl

/-- A domain created by a batch. -/
theorem createdIn_of_createdBy {spec : ProtocolSpec} {env : DomainEnv} {new : CreatedDomain}
    {domain : FinalizedDomain} (hbatch : batch ∈ batches)
    (hnew : Executor.CreatedBy spec env (some (registryContext parent (parent.height + 1)
      batch.domainId)) batch.transactions new)
    (hheader : domain.header = FinalizedChainState.createdHeader new (parent.height + 1)) :
    CreatedIn parent batches domain new.descriptor := by
  obtain ⟨index, envelope, _, _, run, henvelope, prepared, hcreation, hdescriptor⟩ := hnew
  have hprepares := run.prepares
  rw [Executor.ExecutedEnvelope.prepared_of_creation hcreation] at hprepares
  obtain ⟨context, request, joint, hpreparation⟩ :=
    Executor.prepareRegistryCreation_eq_some hprepares
  obtain ⟨originHash, hfrom⟩ := prepareChainCreation_eq_ok hpreparation.prepares
  have hcontext := Option.some.inj hpreparation.context_eq
  have hdecoded := Executor.decodeEnvelope_eq_ok run.decoded
  have hroot := hpreparation.root
  have hhead := hpreparation.parent
  rw [← hcontext] at hroot hhead
  rw [registryContext, Std.ExtTreeMap.getElem?_map, Option.map_eq_some_iff] at hhead
  obtain ⟨head, hhead, hjoint⟩ := hhead
  rw [hdescriptor, hfrom.descriptor]
  refine ⟨⟨batch, hbatch, hroot, envelope, henvelope, run.transaction, hdecoded.decodes,
    hpreparation.recipient, hdecoded.hashes⟩, ?_, ?_, head, ?_, hjoint.symm⟩
  · rw [hheader]
    rfl
  · rw [hheader]
    rfl
  · rw [requestDescriptor, hfrom.parent]
    exact hhead

variable {done : List DomainBatch}

/-- One batch more. -/
theorem Placed.step {before after : Executing}
    (h : Placed parent timestamp proposer batches done before.state) (hbatch : batch ∈ batches)
    (hfresh : batch.domainId ∉ done.map (·.domainId))
    (hrun : executeBatch parent (parent.height + 1) timestamp proposer batch before = .ok after) :
    Placed parent timestamp proposer batches (done ++ [batch]) after.state := by
  obtain ⟨finalized, execution, header, blockHash, run⟩ := executeBatch_eq_ok hrun
  obtain ⟨hkept, hdescriptors, hnew⟩ :=
    FinalizedChainState.insertCreatedDomains_frame run.admitted
  have hpresent : batch.domainId ∈ parent.domains :=
    mem_iff_exists.mpr ⟨finalized, run.found⟩
  -- a domain that was there before this batch and is not its own is as it was
  have hother : ∀ domainId ∈ before.state.domains, batch.domainId ≠ domainId →
      after.state.domains[domainId]? = before.state.domains[domainId]? := by
    intro domainId hmem hne
    rw [hkept domainId (Std.ExtTreeMap.mem_insert.mpr (.inr hmem)), getElem?_insert, if_neg hne]
  have hown : after.state.domains[batch.domainId]?
      = some ⟨finalized.config, header, blockHash, execution.state⟩ := by
    rw [hkept batch.domainId Std.ExtTreeMap.mem_insert_self, getElem?_insert, if_pos rfl]
  refine ⟨fun domainId hmem hidle => ?_, fun other hdone => ?_,
    fun domainId domain hdomain habsent => ?_⟩
  · rw [List.map_append, List.mem_append, not_or, List.map_singleton, List.mem_singleton] at hidle
    have hidle' := h.idle domainId hmem hidle.1
    rw [← hidle']
    refine hother domainId ?_ (Ne.symm hidle.2)
    rwa [Std.ExtTreeMap.mem_iff_isSome_getElem?, hidle', ← Std.ExtTreeMap.mem_iff_isSome_getElem?]
  · rcases List.mem_append.mp hdone with hold | hself
    · obtain ⟨finalized', header', execution', next, hfound, hadvance, hplaced⟩ :=
        h.advanced other hold
      have hne : batch.domainId ≠ other.domainId := fun heq =>
        hfresh (heq ▸ List.mem_map_of_mem hold)
      refine ⟨finalized', header', execution', next, hfound, hadvance, ?_⟩
      rw [hother other.domainId (mem_iff_exists.mpr ⟨next, hplaced⟩) hne, hplaced]
    · rw [List.mem_singleton.mp hself]
      exact ⟨finalized, header, execution, _, run.found, run.advance_eq, hown⟩
  · have hne : batch.domainId ≠ domainId := fun heq => habsent (heq ▸ hpresent)
    by_cases hbefore : domainId ∈ before.state.domains
    · rw [hother domainId hbefore hne] at hdomain
      obtain ⟨descriptor, hdescriptor, hcreated⟩ := h.created domainId domain hdomain habsent
      refine ⟨descriptor, ?_, hcreated⟩
      rw [hdescriptors domainId (mem_iff_exists.mpr ⟨descriptor, hdescriptor⟩)]
      exact hdescriptor
    · have hnot : domainId ∉ before.state.domains.insert batch.domainId
          ⟨finalized.config, header, blockHash, execution.state⟩ := by
        rw [Std.ExtTreeMap.mem_insert, not_or]
        exact ⟨fun heq => hne (Std.LawfulEqCmp.compare_eq_iff_eq.mp heq), hbefore⟩
      obtain ⟨new, hmem, _, hdescriptor, _, hheader, _⟩ := hnew domainId domain hdomain hnot
      obtain ⟨spec, _, hexecuted⟩ := run.executed
      obtain ⟨_, progress, hprogress, _, _, hcreated, _⟩ :=
        Executor.executeBatchWithRegistry_eq_ok hexecuted
      rw [hcreated] at hmem
      exact ⟨new.descriptor, hdescriptor, createdIn_of_createdBy hbatch
        (Executor.executeEnvelopes_created hprogress rfl new hmem) hheader⟩

theorem Placed.run {rest : List DomainBatch} :
    ∀ {done : List DomainBatch} {before after : Executing},
      (∀ batch ∈ rest, batch ∈ batches) → ((done ++ rest).map (·.domainId)).Nodup →
      Placed parent timestamp proposer batches done before.state →
      executeBatches parent (parent.height + 1) timestamp proposer rest before = .ok after →
      Placed parent timestamp proposer batches (done ++ rest) after.state := by
  induction rest with
  | nil =>
    intro done before after _ _ h hrun
    cases hrun
    rw [List.append_nil]
    exact h
  | cons batch rest ih =>
    intro done before after hsub hdistinct h hrun
    obtain ⟨next, hnext, hrest⟩ := bind_eq_ok.mp hrun
    rw [List.append_cons] at hdistinct ⊢
    refine ih (fun b hb => hsub b (List.mem_cons_of_mem _ hb)) hdistinct ?_ hrest
    refine h.step (hsub batch List.mem_cons_self) ?_ hnext
    rw [List.map_append, List.map_append, List.append_assoc, List.nodup_append] at hdistinct
    intro hmem
    exact hdistinct.2.2 _ hmem batch.domainId (by simp) rfl

/-- **The domains after a block**, batches of distinct domains. -/
theorem execute_placed (hdistinct : (batches.map (·.domainId)).Nodup)
    (h : execute parent batches timestamp proposer = .ok proposal) :
    Placed parent timestamp proposer batches batches proposal.resultingState := by
  obtain ⟨executed, run⟩ := execute_eq_ok h
  obtain ⟨consensusHash, _, hresulting⟩ := run.resulting
  have hstart : Placed parent timestamp proposer batches [] parent :=
    ⟨fun _ _ _ => rfl, by simp, fun domainId domain hdomain habsent =>
      absurd (mem_iff_exists.mpr ⟨domain, hdomain⟩) habsent⟩
  have hplaced := Placed.run (fun _ hb => hb) (by simpa using hdistinct) hstart run.ran
  rw [hresulting]
  exact ⟨hplaced.idle, hplaced.advanced, hplaced.created⟩

/-- No domain is lost. -/
theorem Placed.keeps {chain : FinalizedChainState}
    (h : Placed parent timestamp proposer batches done chain) {domainId : DomainId}
    (hmem : domainId ∈ parent.domains) : ∃ domain, chain.domains[domainId]? = some domain := by
  by_cases hbatch : domainId ∈ done.map (·.domainId)
  · obtain ⟨batch, hdone, rfl⟩ := List.mem_map.mp hbatch
    obtain ⟨_, _, _, next, _, _, hnext⟩ := h.advanced batch hdone
    exact ⟨next, hnext⟩
  · rw [h.idle domainId hmem hbatch]
    exact mem_iff_exists.mp hmem

/-- What the virtual machine is given for the transactions a block runs in a domain. -/
def Runs (parent : FinalizedChainState) (block : ConsensusBlock) (domainId : DomainId)
    (input : RevmInput) : Prop :=
  ∃ batch ∈ block.batches, batch.domainId = domainId ∧ ∃ finalized spec,
    parent.domains[domainId]? = some finalized ∧
    ProtocolSpec.resolve finalized.config.protocolRevision = .ok spec ∧
    Executor.Runs spec (domainEnv parent.consensusHash finalized (finalized.header.number + 1)
        (parent.height + 1) block.header.timestamp block.header.proposer)
      (some (registryContext parent (parent.height + 1) domainId)) 0 batch.transactions
      ⟨finalized.state, 0, 0, [], [], [], []⟩ input

theorem advance_executed {next : FinalizedDomain}
    (h : advance parent timestamp proposer finalized batch = .ok (header, execution, next)) :
    next.state = execution.state ∧
      ∃ spec, ProtocolSpec.resolve finalized.config.protocolRevision = .ok spec ∧
        Executor.executeBatchWithRegistry spec (domainEnv parent.consensusHash finalized
            (finalized.header.number + 1) (parent.height + 1) timestamp proposer) finalized.state
          batch.transactions (some (registryContext parent (parent.height + 1) batch.domainId))
        = .ok execution := by
  obtain ⟨_, h⟩ := check_bind_eq_ok.mp h
  obtain ⟨spec, hspec, h⟩ := bind_eq_ok.mp h
  obtain ⟨result, hresult, h⟩ := bind_eq_ok.mp h
  obtain ⟨blockHash, _, h⟩ := bind_eq_ok.mp h
  cases h
  exact ⟨rfl, spec, mapError_eq_ok.mp hspec, mapError_eq_ok.mp hresult⟩

/-- The execution of every batch is reported. -/
theorem executeBatches_included : ∀ {before after : Executing},
      executeBatches parent (parent.height + 1) timestamp proposer batches before = .ok after →
      (∀ execution ∈ before.executions, execution ∈ after.executions) ∧
        ∀ batch ∈ batches, ∃ finalized header execution next,
          parent.domains[batch.domainId]? = some finalized ∧
            advance parent timestamp proposer finalized batch = .ok (header, execution, next) ∧
            execution ∈ after.executions := by
  induction batches with
  | nil =>
    intro before after h
    cases h
    exact ⟨fun _ hmem => hmem, fun batch hmem => by cases hmem⟩
  | cons batch rest ih =>
    intro before after h
    obtain ⟨next, hnext, hrest⟩ := bind_eq_ok.mp h
    obtain ⟨finalized, execution, header, blockHash, run⟩ := executeBatch_eq_ok hnext
    obtain ⟨hkept, hincluded⟩ := ih hrest
    have hexecutions := run.executions
    refine ⟨fun reported hmem => hkept reported ?_, fun other hmem => ?_⟩
    · rw [hexecutions]
      exact List.mem_append_left _ hmem
    · rcases List.mem_cons.mp hmem with rfl | hmem
      · refine ⟨finalized, header, execution, _, run.found, run.advance_eq, hkept execution ?_⟩
        rw [hexecutions]
        exact List.mem_append_right _ (List.mem_singleton_self execution)
      · exact hincluded other hmem

theorem execute_included (h : execute parent batches timestamp proposer = .ok proposal) :
    ∀ batch ∈ batches, ∃ finalized header execution next,
      parent.domains[batch.domainId]? = some finalized ∧
        advance parent timestamp proposer finalized batch = .ok (header, execution, next) ∧
        execution ∈ proposal.executions := by
  obtain ⟨executed, run⟩ := execute_eq_ok h
  obtain ⟨_, _, _, _, hexecutions, _⟩ := sealBlock_eq_ok run.sealed
  rw [hexecutions]
  exact (executeBatches_included run.ran).2

/-- The block a batch makes: the next number on its domain's head, at the block's height. -/
structure Advanced (parent : FinalizedChainState) (finalized next : FinalizedDomain) : Prop where
  number : next.header.number.toNat = finalized.header.number.toNat + 1
  parentHash : next.header.parentHash = finalized.blockHash
  height : next.header.consensusHeight = parent.height + 1
  config : next.config = finalized.config

theorem advanced_of_advance {next : FinalizedDomain}
    (h : advance parent timestamp proposer finalized batch = .ok (header, execution, next)) :
    Advanced parent finalized next := by
  obtain ⟨hnumber, h⟩ := check_bind_eq_ok.mp h
  obtain ⟨spec, _, h⟩ := bind_eq_ok.mp h
  obtain ⟨result, _, h⟩ := bind_eq_ok.mp h
  obtain ⟨blockHash, _, h⟩ := bind_eq_ok.mp h
  cases h
  rw [rejectIf_eq_ok, not_le] at hnumber
  exact ⟨BitVec.toNat_add_of_lt hnumber, rfl, rfl, rfl⟩

/-! ## Vacant blocks -/

/-- A domain's block number changes only with a transaction of its own; without one it keeps
its head; and a new domain is one the block creates. -/
structure NoVacantBlocks (parent : FinalizedChainState) (candidate : ConsensusBlock)
    (chain : FinalizedChainState) : Prop where
  number : ∀ domainId before after, parent.domains[domainId]? = some before →
    chain.domains[domainId]? = some after → after.header.number ≠ before.header.number →
    ∃ batch ∈ candidate.batches, batch.domainId = domainId ∧ batch.transactions ≠ []
  head : ∀ domainId before, parent.domains[domainId]? = some before →
    (∀ batch ∈ candidate.batches, batch.domainId = domainId → batch.transactions = []) →
    chain.domains[domainId]? = some before
  created : ∀ domainId after, chain.domains[domainId]? = some after → domainId ∉ parent.domains →
    ∃ descriptor, chain.descriptors[domainId]? = some descriptor ∧
      CreatedIn parent candidate.batches after descriptor

/-- **Vacant blocks.**  An accepted block makes no vacant domain block exactly if none of its
batches is empty. -/
theorem no_vacant_blocks_iff {parent : FinalizedChainState} {candidate : ConsensusBlock}
    {proposal : ValidatedProposal} (h : validateProposal parent candidate = .ok proposal) :
    NoVacantBlocks parent candidate proposal.resultingState ↔
      ∀ batch ∈ candidate.batches, batch.transactions ≠ [] := by
  obtain ⟨horder, _, hexecuted, _⟩ := validateProposal_eq_ok h
  have hdistinct := nodup_of_batchesSorted horder
  have hplaced := execute_placed hdistinct hexecuted
  constructor
  · intro hvacant batch hbatch hempty
    obtain ⟨finalized, _, _, next, hfound, hadvance, hnext⟩ := hplaced.advanced batch hbatch
    have hnumber := (advanced_of_advance hadvance).number
    obtain ⟨other, hother, hsame, hsome⟩ :=
      hvacant.number batch.domainId finalized next hfound hnext
      (fun heq => by rw [heq] at hnumber; omega)
    rw [List.inj_on_of_nodup_map hdistinct hother hbatch hsame] at hsome
    exact hsome hempty
  · intro hfull
    refine ⟨fun domainId before after hbefore hafter hchanged => ?_,
      fun domainId before hbefore hnone => ?_, hplaced.created⟩
    · by_contra hnone
      have hidle := hplaced.idle domainId (mem_iff_exists.mpr ⟨before, hbefore⟩) (by
        intro hmem
        obtain ⟨batch, hbatch, hid⟩ := List.mem_map.mp hmem
        exact hnone ⟨batch, hbatch, hid, hfull batch hbatch⟩)
      rw [hidle, hbefore, Option.some.injEq] at hafter
      exact hchanged (hafter ▸ rfl)
    · rw [hplaced.idle domainId (mem_iff_exists.mpr ⟨before, hbefore⟩) ?_, hbefore]
      intro hmem
      obtain ⟨batch, hbatch, hid⟩ := List.mem_map.mp hmem
      exact hfull batch hbatch (hnone batch hbatch hid)

/-! ## Order of batches -/

theorem buildProposal_perm (h : batches.Perm others)
    (parent : FinalizedChainState) (timestamp : U64) (proposer : Address) :
    buildProposal parent batches timestamp proposer
      = buildProposal parent others timestamp proposer := by
  have hperm : (batches.mergeSort fun a b => a.domainId ≤ b.domainId).Perm
      (others.mergeSort fun a b => a.domainId ≤ b.domainId) :=
    ((List.mergeSort_perm _ _).trans h).trans (List.mergeSort_perm _ _).symm
  unfold buildProposal
  simp only
  by_cases hfirst : batchesSorted (batches.mergeSort fun a b => a.domainId ≤ b.domainId) = true
  · rw [eq_of_batchesSorted hfirst (pairwise_sortedBatches others) hperm]
  · by_cases hsecond : batchesSorted (others.mergeSort fun a b => a.domainId ≤ b.domainId) = true
    · rw [eq_of_batchesSorted hsecond (pairwise_sortedBatches batches) hperm.symm]
    · rw [ensureBatchOrder, ensureBatchOrder, Bool.eq_false_iff.mpr hfirst,
        Bool.eq_false_iff.mpr hsecond]
      rfl

/-! ## The frame of a proposal -/

/-- What a proposal does to the domains of its parent, and where new ones come from. -/
structure FrameOf (parent : FinalizedChainState) (proposal : ValidatedProposal) : Prop where
  idle : ∀ domainId before, parent.domains[domainId]? = some before →
    (∀ batch ∈ proposal.block.batches, batch.domainId ≠ domainId) →
    proposal.resultingState.domains[domainId]? = some before
  advanced : ∀ batch ∈ proposal.block.batches, ∃ before after,
    parent.domains[batch.domainId]? = some before ∧
      proposal.resultingState.domains[batch.domainId]? = some after ∧ Advanced parent before after
  created : ∀ domainId after, proposal.resultingState.domains[domainId]? = some after →
    domainId ∉ parent.domains →
    ∃ descriptor, proposal.resultingState.descriptors[domainId]? = some descriptor ∧
      CreatedIn parent proposal.block.batches after descriptor

/-- Two proposals that a domain cannot tell apart: they have the same batch for it on the
same block, state and configuration, at the same height and time, with the same proposer,
parent hash and frozen heads, on one chain. -/
structure Alike (parent parent' : FinalizedChainState) (proposal proposal' : ValidatedProposal)
    (batch : DomainBatch) : Prop where
  included : batch ∈ proposal.block.batches ∧ batch ∈ proposal'.block.batches
  domain : parent.domains[batch.domainId]? = parent'.domains[batch.domainId]?
  height : parent.height = parent'.height
  timestamp : proposal.block.header.timestamp = proposal'.block.header.timestamp
  proposer : proposal.block.header.proposer = proposal'.block.header.proposer
  consensusHash : parent.consensusHash = parent'.consensusHash
  heads : (parent.domains.map fun _ domain => domain.blockHash)
    = parent'.domains.map fun _ domain => domain.blockHash
  identity : parent.identity = parent'.identity

theorem advance_congr {parent' : FinalizedChainState} {proposal' : ValidatedProposal}
    (h : Alike parent parent' proposal proposal' batch) (finalized : FinalizedDomain) :
    advance parent proposal.block.header.timestamp proposal.block.header.proposer finalized batch
      = advance parent' proposal'.block.header.timestamp proposal'.block.header.proposer finalized
        batch := by
  have hidentity := h.identity
  rw [FinalizedChainState.identity, FinalizedChainState.identity, Prod.mk.injEq,
    Prod.mk.injEq] at hidentity
  unfold advance registryContext
  rw [h.height, h.timestamp, h.proposer, h.consensusHash, h.heads, hidentity.1, hidentity.2.1,
    hidentity.2.2]

/-- **Execution frame.**  A proposal leaves every domain without a batch as it was, advances
those with a batch by one block that depends on nothing of other domains but their frozen
heads, and adds only domains that the root creates, joined to their parents' old heads.  The
order in which batches are handed to the builder has no effect. -/
theorem execution_frame : (∀ parent proposal, Proposes parent proposal → FrameOf parent proposal) ∧
      (∀ parent parent' proposal proposal' batch, Proposes parent proposal →
        Proposes parent' proposal' → Alike parent parent' proposal proposal' batch →
        proposal.resultingState.domains[batch.domainId]?
          = proposal'.resultingState.domains[batch.domainId]?) ∧
      ∀ parent timestamp proposer, ∀ batches others : List DomainBatch, batches.Perm others →
        buildProposal parent batches timestamp proposer
          = buildProposal parent others timestamp proposer := by
  have hplaced : ∀ {parent proposal}, Proposes parent proposal →
      Placed parent proposal.block.header.timestamp proposal.block.header.proposer
        proposal.block.batches proposal.block.batches proposal.resultingState := by
    intro parent proposal h
    obtain ⟨hsorted, hexecuted⟩ := h.executes_block
    exact execute_placed (nodup_of_batchesSorted hsorted) hexecuted
  refine ⟨fun parent proposal h => ⟨fun domainId before hbefore hnone => ?_, fun batch hbatch => ?_,
    (hplaced h).created⟩, fun parent parent' proposal proposal' batch h h' halike => ?_,
    fun parent timestamp proposer batches others hperm =>
      buildProposal_perm hperm parent timestamp proposer⟩
  · rw [(hplaced h).idle domainId (mem_iff_exists.mpr ⟨before, hbefore⟩) ?_, hbefore]
    intro hmem
    obtain ⟨batch, hbatch, hid⟩ := List.mem_map.mp hmem
    exact hnone batch hbatch hid
  · obtain ⟨before, _, _, after, hbefore, hadvance, hafter⟩ := (hplaced h).advanced batch hbatch
    exact ⟨before, after, hbefore, hafter, advanced_of_advance hadvance⟩
  · obtain ⟨before, _, _, after, hbefore, hadvance, hafter⟩ :=
      (hplaced h).advanced batch halike.included.1
    obtain ⟨before', _, _, after', hbefore', hadvance', hafter'⟩ :=
      (hplaced h').advanced batch halike.included.2
    rw [halike.domain, hbefore', Option.some.injEq] at hbefore
    subst hbefore
    rw [advance_congr halike, hadvance', Except.ok.injEq, Prod.mk.injEq, Prod.mk.injEq] at hadvance
    rw [hafter, hafter', hadvance.2.2]

end Frame

section Vacant

attribute [local instance] sampleKeccak sampleCurve sampleRevm sampleTrie

/-- A block whose only batch has no transactions is accepted, and the number of the domain
goes up. -/
theorem empty_batch_advances :
    ∃ proposal before after, validateProposal sampleParent proposal.block = .ok proposal ∧
      proposal.block.batches = [sampleBatch] ∧ sampleBatch.transactions = [] ∧
      sampleParent.domains[sampleBatch.domainId]? = some before ∧
      proposal.resultingState.domains[sampleBatch.domainId]? = some after ∧
      after.header.number ≠ before.header.number ∧
      ¬NoVacantBlocks sampleParent proposal.block proposal.resultingState := by
  obtain ⟨proposal, hexecuted⟩ :
    ∃ proposal, execute sampleParent [sampleBatch] 101 4 = .ok proposal :=
    ⟨_, eq_ok_of_isOk sample_executes ⟨⟨⟨0, 0, 0, 0, 0, 0, 0, 0, 0, 0, 0⟩, [], []⟩, sampleParent,
      []⟩⟩
  have hbatches := (execute_extends hexecuted).batches
  have hplaced := execute_placed (by simp) hexecuted
  obtain ⟨before, _, _, after, hbefore, hadvance, hafter⟩ :=
    hplaced.advanced sampleBatch List.mem_cons_self
  have hnumber := (advanced_of_advance hadvance).number
  have hchanged : after.header.number ≠ before.header.number := fun heq => by
    rw [heq] at hnumber
    omega
  refine ⟨proposal, before, after, validateProposal_of_execute rfl hexecuted, hbatches, rfl,
    hbefore,
    hafter, hchanged, fun hvacant => ?_⟩
  obtain ⟨batch, hbatch, _, hsome⟩ := hvacant.number _ before after hbefore hafter hchanged
  rw [hbatches, List.mem_singleton] at hbatch
  exact hsome (hbatch ▸ rfl)

end Vacant

section Governed

attribute [local instance] rollingKeccak namingCurve payingRevm sampleTrie

/-- A registry that holds a locked deposit for domain 7, and an account that pays fees. -/
def depositAllocation : BTreeMap Address GenesisAccount :=
  payer.insert CHAIN_REGISTRY_ADDRESS
      ⟨1, 5, [], ((∅ : BTreeMap U256 U256).insert (depositSlot 7) 5).insert (depositStatusSlot 7) 1⟩

def depositChain : Except ChainError FinalizedChainState := do
  let state ← ChainError.ofEvm (ExecutionState.fromGenesis depositAllocation)
  FinalizedChainState.genesis ⟨5, 6, 1700000000, 9, 1, 0xfef, ⟨2048, 1, 30000000, 1000000000⟩,
    state⟩

def regoverned (chain : FinalizedChainState) (governance : Address) : FinalizedChainState :=
  { chain with governanceAddress := governance }

def governedParent (governance : Address) : FinalizedChainState :=
  regoverned (depositChain.toOption.getD sampleParent) governance

theorem regoverned_governedParent (governance other : Address) :
    regoverned (governedParent governance) other = governedParent other := by
  unfold governedParent
  generalize depositChain.toOption.getD sampleParent = chain
  rfl

def rootHead : B256 :=
  (((governedParent 0).domains[(1 : DomainId)]?).map (·.blockHash)).getD 0

def burnBatch : DomainBatch :=
  ⟨1, rootHead, [(Ethereum.encodeEip1559 ⟨2048, 0, 0, 2000000000, 100000,
    some CHAIN_REGISTRY_ADDRESS, 0, encodeBurnDepositCall 7, [], false, 0xfef, 1⟩).toOption.getD
    []]⟩

def burnProposal (governance : Address) : Except ChainError ValidatedProposal :=
  execute (governedParent governance) [burnBatch] 1700000001 0xfee

def burnRoot (governance : Address) : Option B256 :=
  (burnProposal governance).toOption.bind fun proposal =>
    (proposal.resultingState.domains[(1 : DomainId)]?).map (·.header.stateRoot)

theorem burnRoot_ne :
    (burnRoot 0xfef).isSome ∧ (burnRoot 0xfed).isSome ∧ burnRoot 0xfef ≠ burnRoot 0xfed := by
  decide +kernel

theorem burn_proposes {governance : Address} (h : (burnRoot governance).isSome) :
    ∃ proposal after, burnProposal governance = .ok proposal ∧
      Proposes (governedParent governance) proposal ∧ proposal.block.batches = [burnBatch] ∧
      proposal.resultingState.domains[burnBatch.domainId]? = some after ∧
      burnRoot governance = some after.header.stateRoot := by
  unfold burnRoot at h ⊢
  cases hproposal : burnProposal governance with
  | error e =>
    rw [hproposal] at h
    cases h
  | ok proposal =>
    rw [hproposal] at h
    obtain ⟨after, hafter⟩ := Option.isSome_iff_exists.mp (Option.isSome_map.symm.trans h)
    refine ⟨proposal, after, rfl, .validated _ (validateProposal_of_execute rfl hproposal),
      (execute_extends hproposal).batches, hafter, ?_⟩
    change Option.map _ (proposal.resultingState.domains[(1 : DomainId)]?) = _
    rw [show proposal.resultingState.domains[(1 : DomainId)]? = some after from hafter]
    rfl

theorem burn_stateRoot {governance : Address} {proposal : ValidatedProposal}
    {after : FinalizedDomain} (h : burnProposal governance = .ok proposal)
    (hafter : proposal.resultingState.domains[burnBatch.domainId]? = some after) :
    after.header.stateRoot = after.state.stateRoot := by
  obtain ⟨_, _, _, next, _, hadvance, hnext⟩ :=
    (execute_placed (by simp) h).advanced burnBatch List.mem_cons_self
  rw [hafter, Option.some.injEq] at hnext
  subst hnext
  obtain ⟨_, hadvance⟩ := check_bind_eq_ok.mp hadvance
  obtain ⟨spec, _, hadvance⟩ := bind_eq_ok.mp hadvance
  obtain ⟨result, _, hadvance⟩ := bind_eq_ok.mp hadvance
  obtain ⟨blockHash, _, hadvance⟩ := bind_eq_ok.mp hadvance
  cases hadvance
  rfl

/-- Two parents that differ in the governance address alone lead to different states of the
same domain, with the same batch, height, time, proposer, parent hash and heads: for one the
deposit is burned, for the other the call is refused. -/
theorem state_depends_on_governance : ∃ parent proposal proposal' batch after after',
      Proposes parent proposal ∧ Proposes (regoverned parent 0xfed) proposal' ∧
      proposal.block.batches = [batch] ∧ proposal'.block.batches = [batch] ∧
      proposal.block.header.timestamp = proposal'.block.header.timestamp ∧
      proposal.block.header.proposer = proposal'.block.header.proposer ∧
      proposal.resultingState.domains[batch.domainId]? = some after ∧
      proposal'.resultingState.domains[batch.domainId]? = some after' ∧
      after.state ≠ after'.state := by
  obtain ⟨hfirst, hsecond, hne⟩ := burnRoot_ne
  obtain ⟨proposal, after, hburn, hproposes, hbatches, hafter, hroot⟩ := burn_proposes hfirst
  obtain ⟨proposal', after', hburn', hproposes', hbatches', hafter', hroot'⟩ :=
    burn_proposes hsecond
  have hextends := execute_extends hburn
  have hextends' := execute_extends hburn'
  rw [← regoverned_governedParent 0xfef 0xfed] at hproposes'
  refine ⟨governedParent 0xfef, proposal, proposal', burnBatch, after, after', hproposes,
    hproposes',
    hbatches, hbatches', hextends.timestamp.trans hextends'.timestamp.symm,
    hextends.proposer.trans hextends'.proposer.symm, hafter, hafter', fun hsame => hne ?_⟩
  rw [hroot, hroot', burn_stateRoot hburn hafter, burn_stateRoot hburn' hafter', hsame]

theorem execution_frame_burn : ∃ proposal, Proposes (governedParent 0xfef) proposal ∧
      FrameOf (governedParent 0xfef) proposal ∧
      buildProposal (governedParent 0xfef) [burnBatch, ⟨2, 0, []⟩] 1700000001 0xfee
        = buildProposal (governedParent 0xfef) [⟨2, 0, []⟩, burnBatch] 1700000001 0xfee := by
  obtain ⟨proposal, _, _, hproposes, _⟩ := burn_proposes burnRoot_ne.1
  exact ⟨proposal, hproposes, execution_frame.1 _ _ hproposes,
    execution_frame.2.2 _ _ _ _ _ (List.Perm.swap _ _ _)⟩

/-- A block with a transaction in its batch makes no vacant block. -/
theorem no_vacant_blocks_burn :
    ∃ proposal, validateProposal (governedParent 0xfef) proposal.block = .ok proposal ∧
      NoVacantBlocks (governedParent 0xfef) proposal.block proposal.resultingState := by
  obtain ⟨proposal, _, hburn, _, hbatches, _⟩ := burn_proposes burnRoot_ne.1
  have hvalid := validateProposal_of_execute rfl hburn
  refine ⟨proposal, hvalid, (no_vacant_blocks_iff hvalid).mpr fun batch hbatch => ?_⟩
  rw [hbatches, List.mem_singleton] at hbatch
  rw [hbatch]
  exact List.cons_ne_nil _ _

end Governed

end ChainMachine

end Arbor
