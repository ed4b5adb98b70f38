import Arbor.Chain.Updates
import Arbor.Consensus.Engine
import Arbor.Storage.Commit

/-!
# Commits are all or nothing

The durable marker, the write-ahead record and the stored heads are those of the finalized
state in memory (`Durable`).  Opening establishes this, a commit that returns re-establishes
it for the new state and sends one event, and an operation that commits and fails leaves
everything as it was (`commit_all_or_nothing`).
-/

namespace Arbor

open Result Device Consensus Database ChainMachine List

namespace SingleValidatorEngine

variable {height : U64} {commit commit' : CommitBatch}

section Durable

variable [Keccak]

/-- The durable records are those of a finalized state. -/
structure Durable (tables : Tables Column) (chain : FinalizedChainState) : Prop where
  marker : value finalizedMarker tables = .ok (some (markerOf chain))
  wal : value (index KEY_DEV_WAL) tables = .ok (some (encodeDevWal (markerOf chain)))
  heads : ∀ (domainId : DomainId) (domain : FinalizedDomain),
    chain.domains[domainId]? = some domain → value (latestHead domainId) tables
      = .ok (some (domain.header.consensusHeight, domain.header.stateRoot))

/-- A batch records a finalized state if it has its marker and its write-ahead record, and for
every domain either its head or nothing, where the head is stored already. -/
structure Describes (tables : Tables Column) (batch : CommitBatch) (chain : FinalizedChainState) :
    Prop where
  marker : batch.marker = markerOf chain
  wal : ⟨KEY_DEV_WAL, encodeDevWal batch.marker⟩ ∈ batch.indexes
  heads : ∀ (domainId : DomainId) (domain : FinalizedDomain),
    chain.domains[domainId]? = some domain →
      (∃ state ∈ batch.states, state.domainId = domainId ∧
        state.consensusHeight = domain.header.consensusHeight ∧
        state.snapshot.root = domain.header.stateRoot)
      ∨ (∀ state ∈ batch.states, state.domainId ≠ domainId) ∧
        value (latestHead domainId) tables
          = .ok (some (domain.header.consensusHeight, domain.header.stateRoot))

/-- A written batch makes the state it describes durable. -/
theorem Describes.durable {tables tables' : Tables Column} {batch : CommitBatch}
    {chain : FinalizedChainState} {transaction : DbTransaction}
    (h : Describes tables batch chain) (hwritten : Database.Written tables batch transaction)
    (hstanding : Standing (apply tables transaction) tables') : Durable tables' chain where
  marker := by
    rw [value_finalizedMarker, hstanding.marker, hwritten.look_marker, decoded,
      decodeMarker_encodeMarker, ← h.marker]
    rfl
  wal := by
    rw [index, Database.value_get, hstanding.others _ _ (by decide) (by decide), ← h.marker]
    exact congrArg Except.ok (hwritten.look_index h.wal)
  heads domainId domain hdomain := by
    rw [value_latestHead, hstanding.heads, hwritten.look_head]
    rcases h.heads domainId domain hdomain with ⟨state, hstate, hid, hheight, hroot⟩
      | ⟨hidle, hstored⟩
    · rw [(stateOf_eq_some hwritten.domains).mpr ⟨hstate, hid⟩]
      rw [decoded, decodeHead_encodeHead, hheight, hroot]
      rfl
    · rw [stateOf_eq_none.mpr hidle]
      rw [value_latestHead] at hstored
      exact hstored

end Durable

/-! ## The batch of a proposal -/

/-- The commit of a domain that ends with a height and a state. -/
def commitOf (update : DomainId × ConsensusHeight × ExecutionState) : DomainStateCommit :=
  ⟨update.1, update.2.1, update.2.2.accounts⟩

/-- What the loop over the batches of a block keeps. -/
structure Gathered (height : U64) (head : FinalizedMarker)
    (done : List ((DomainBlockHeader × DomainExecutionResult) × DomainBatch))
    (commit : CommitBatch) : Prop where
  marker : commit.marker = head
  wal : ⟨KEY_DEV_WAL, encodeDevWal head⟩ ∈ commit.indexes
  states : commit.states
    = ((done.map (·.1)).flatMap (ChainMachine.touched height)).map commitOf

theorem appendHistory_keeps {domainId : DomainId}
    {items : List ((ExecutedTransaction × Bytes) × Nat)}
    (h : items.foldlM (appendHistory height domainId) commit = .ok commit') :
    commit'.marker = commit.marker ∧ commit'.states = commit.states ∧
      ∀ record ∈ commit.indexes, record ∈ commit'.indexes := by
  refine foldlM_invariant (I := fun _ after => after.marker = commit.marker ∧
    after.states = commit.states ∧ ∀ record ∈ commit.indexes, record ∈ after.indexes)
    ?_ [] ⟨rfl, rfl, fun _ hrecord => hrecord⟩ h
  rintro _ item before after ⟨hmarker, hstates, hindexes⟩ hstep
  obtain ⟨_, hstep⟩ := check_bind_eq_ok.mp hstep
  cases hstep
  exact ⟨hmarker, hstates, fun record hrecord => mem_append_left _ (hindexes record hrecord)⟩

theorem appendCreated_keeps {created : List CreatedDomain}
    (h : created.foldlM (appendCreated height) commit = .ok commit') :
    commit'.marker = commit.marker ∧ commit'.indexes = commit.indexes ∧
      commit'.states = commit.states ++ created.map fun created =>
        commitOf (created.descriptor.domainId, height, created.genesisState) := by
  refine foldlM_invariant (I := fun done after => after.marker = commit.marker ∧
    after.indexes = commit.indexes ∧ after.states = commit.states ++ done.map fun created =>
      commitOf (created.descriptor.domainId, height, created.genesisState))
    ?_ [] ⟨rfl, rfl, (append_nil _).symm⟩ h
  rintro done domain before after ⟨hmarker, hindexes, hstates⟩ hstep
  obtain ⟨_, _, hstep⟩ := bind_eq_ok.mp hstep
  cases hstep
  refine ⟨hmarker, hindexes, ?_⟩
  rw [hstates, map_append, append_assoc]
  rfl

theorem Gathered.step {retention : DomainHistoryRetention} {marker : FinalizedMarker}
    {done : List ((DomainBlockHeader × DomainExecutionResult) × DomainBatch)}
    {executed : (DomainBlockHeader × DomainExecutionResult) × DomainBatch}
    (hI : Gathered height marker done commit)
    (h : appendExecution retention height commit executed = .ok commit') :
    Gathered height marker (done ++ [executed]) commit' := by
  obtain ⟨middle, hmiddle, hcreated⟩ := bind_eq_ok.mp h
  obtain ⟨hmarker', hindexes', hstates'⟩ := appendCreated_keeps hcreated
  have hkept : middle.marker = marker ∧ ⟨KEY_DEV_WAL, encodeDevWal marker⟩ ∈ middle.indexes ∧
      middle.states = commit.states ++ [commitOf (executed.1.1.domainId,
        executed.1.1.consensusHeight, executed.1.2.state)] := by
    unfold appendHistories at hmiddle
    split at hmiddle
    · obtain ⟨hmarker, hstates, hindexes⟩ := appendHistory_keeps hmiddle
      exact ⟨hmarker.trans hI.marker, hindexes _ hI.wal, hstates⟩
    · cases hmiddle
      exact ⟨hI.marker, hI.wal, rfl⟩
  obtain ⟨hmarker, hwal, hstates⟩ := hkept
  refine ⟨hmarker'.trans hmarker, hindexes' ▸ hwal, ?_⟩
  rw [hstates', hstates, hI.states]
  simp [touched, append_assoc]

section Proposal

variable [Keccak] {retention : DomainHistoryRetention} {proposal : ValidatedProposal}

theorem proposalCommitBatch_eq_ok
    {commit : CommitBatch} (h : proposalCommitBatch proposal retention = .ok commit) :
    ∃ consensusHash marker, Crypto.consensusHeaderHash proposal.block.header = .ok consensusHash ∧
      marker =
        ⟨proposal.block.header.height, consensusHash, proposal.block.header.domainHeadsRoot⟩ ∧
      Gathered proposal.block.header.height marker
        ((proposal.block.domainBlocks.zip proposal.executions).zip proposal.block.batches)
          commit := by
  obtain ⟨consensusHash, hhash, h⟩ := bind_eq_ok.mp h
  obtain ⟨body, _, h⟩ := bind_eq_ok.mp h
  refine ⟨consensusHash, _, mapError_eq_ok.mp hhash, rfl, ?_⟩
  refine foldlM_invariant (fun _ _ _ _ hI hstep => Gathered.step hI hstep) [] ⟨rfl, ?_, rfl⟩ h
  exact mem_cons_of_mem _ mem_cons_self

variable [Secp256k1] [Revm] [OrderedTrie]

/-- The batch of a proposal describes the state it leads to. -/
theorem describes_proposal {tables : Tables Column} {chain : FinalizedChainState}
    {commit : CommitBatch}
    {transaction : DbTransaction} (hdurable : Durable tables chain)
    (hproposes : Proposes chain proposal)
    (hcommit : proposalCommitBatch proposal retention = .ok commit)
    (hwritten : Database.Written tables commit transaction) :
    Describes tables commit proposal.resultingState := by
  obtain ⟨batches, timestamp, proposer, _, hexecute⟩ := hproposes.executes
  obtain ⟨consensusHash, marker, hhash, hmarker, hgathered⟩ := proposalCommitBatch_eq_ok hcommit
  obtain ⟨hhash', hheight, hheadsRoot⟩ := execute_head hexecute
  obtain ⟨hlength, updates, hupdates, houtcomes⟩ := execute_updates hexecute
  have hext := execute_extends hexecute
  rw [hhash] at hhash'
  have hconsensus := Except.ok.inj hhash'
  have hstates : commit.states = updates.map fun update => commitOf (outcome update) := by
    have hbatches : (proposal.block.domainBlocks.zip proposal.executions).length
        ≤ proposal.block.batches.length := by
      have haligned := congrArg length hext.aligned
      rw [length_map, length_map, ← hext.batches] at haligned
      rw [length_zip]
      omega
    rw [hgathered.states, map_fst_zip hbatches, ← houtcomes, map_map]
    rfl
  refine ⟨?_, hgathered.marker ▸ hgathered.wal, fun domainId domain hdomain => ?_⟩
  · rw [hgathered.marker, hmarker, markerOf, hheight, hheadsRoot, hconsensus]
  have hnodup : (updates.map Prod.fst).Nodup := by
    have hdomains := hwritten.domains
    rw [hstates, map_map] at hdomains
    exact hdomains
  rw [hupdates.domains] at hdomain
  by_cases hupdated : domainId ∈ updates.map Prod.fst
  · obtain ⟨⟨_, updated⟩, hmem, rfl⟩ := mem_map.mp hupdated
    rw [OrdMap.getElem?_insertMany_of_mem _ hnodup hmem] at hdomain
    cases hdomain
    refine .inl ⟨_, by rw [hstates]; exact mem_map_of_mem hmem, rfl, rfl, ?_⟩
    exact (hupdates.consistent _ hmem).stateRoot.symm
  · rw [OrdMap.getElem?_insertMany_of_not_mem _ hupdated] at hdomain
    refine .inr ⟨fun state hstate hid => hupdated ?_, hdurable.heads domainId domain hdomain⟩
    rw [hstates] at hstate
    obtain ⟨update, hmem, rfl⟩ := mem_map.mp hstate
    exact hid ▸ mem_map_of_mem hmem

end Proposal

/-! ## Operations that commit -/

/-- Nothing has changed but the coming failures of the device. -/
def Unmoved (engine engine' : SingleValidatorEngine) : Prop :=
  ∃ faults, engine' = { engine with database := ⟨engine.database.tables, faults⟩ }

theorem Unmoved.refl (engine : SingleValidatorEngine) : Unmoved engine engine :=
  ⟨engine.database.faults, rfl⟩

section Outcomes

variable [Keccak] {α β : Type} {engine : SingleValidatorEngine}

/-- All or nothing: an error leaves everything as it was, and on success the new finalized state
is durable, nothing is pending and one event has been sent. -/
inductive Outcome (engine : SingleValidatorEngine) :
    EStateM.Result ConsensusError SingleValidatorEngine α → Prop
  | failed {error : ConsensusError} {engine' : SingleValidatorEngine} :
      Unmoved engine engine' → Outcome engine (.error error engine')
  | committed {a : α} {engine' : SingleValidatorEngine} :
      Durable engine'.database.tables engine'.finalized → engine'.pending = none →
      engine'.events = engine.events ++ [eventOf engine'.finalized] → Outcome engine (.ok a engine')

omit [Keccak] in
theorem run_check (result : Except ConsensusError α) (f : α → Operation β) :
    (check result >>= f) engine = match result with
      | .ok a => f a engine
      | .error error => .error error engine := by
  cases result <;> rfl

omit [Keccak] in
theorem run_get (f : SingleValidatorEngine → Operation β) : (get >>= f) engine = f engine engine :=
  rfl

/-- A check fails before anything is done. -/
theorem outcome_check (engine : SingleValidatorEngine) {result : Except ConsensusError α}
    {f : α → Operation β} (h : ∀ a, result = .ok a → Outcome engine (f a engine)) :
    Outcome engine ((check result >>= f) engine) := by
  cases result with
  | error error => exact .failed (Unmoved.refl engine)
  | ok a => exact h a rfl

theorem outcome_commit {commit : CommitBatch} {chain : FinalizedChainState}
    (publish : SingleValidatorEngine → SingleValidatorEngine) {f : CommitStats → Operation β}
    (hpending : engine.pending = none)
    (hdescribes : ∀ transaction, Database.Written engine.database.tables commit transaction →
      Describes engine.database.tables commit chain)
    (hpublish : ∀ before, (publish before).database = before.database ∧
      (publish before).finalized = chain ∧ (publish before).pending = before.pending ∧
      (publish before).events = before.events ++ [eventOf chain])
    (hf : ∀ stats before, ∃ b, f stats before = .ok b (publish before)) :
    Outcome engine ((onDatabase (stored (Database.commit engine.retention commit)) >>= f)
      engine) := by
  rw [run_bind, onDatabase, stored, adapt]
  rcases commit_outcome engine.retention commit engine.database with
    ⟨error, faults, hrun⟩ | ⟨stats, transaction, disk, hrun, hwritten, hstanding⟩
  · rw [hrun]
    exact .failed ⟨faults, rfl⟩
  · rw [hrun]
    dsimp only
    obtain ⟨b, hf⟩ := hf stats { engine with database := disk }
    obtain ⟨hdatabase, hfinalized, hkept, hevents⟩ := hpublish { engine with database := disk }
    rw [hf]
    refine .committed ?_ (hkept.trans hpending) (hfinalized ▸ hevents)
    rw [hdatabase, hfinalized]
    exact (hdescribes transaction hwritten).durable hwritten hstanding

/-- The batch of a checkpoint describes its state. -/
theorem describes_checkpoint {tables : Tables Column} {checkpoint : DevelopmentCheckpoint}
    {origin : FinalizedChainCheckpoint} {commit : CommitBatch}
    (hstate : FinalizedChainState.fromCheckpoint origin = .ok checkpoint.state)
    (hcommit : checkpointBatch checkpoint = .ok commit) :
    Describes tables commit checkpoint.state := by
  obtain ⟨_, _, _, hconsistent⟩ := FinalizedChainState.fromCheckpoint_eq_ok hstate
  obtain ⟨_, _, hcommit⟩ := bind_eq_ok.mp hcommit
  obtain ⟨_, _, hcommit⟩ := bind_eq_ok.mp hcommit
  cases hcommit
  refine ⟨rfl, by simp, fun domainId domain hdomain => .inl ?_⟩
  have hmem := Std.ExtTreeMap.mem_toList_iff_getElem?_eq_some.mpr hdomain
  exact ⟨_, mem_map_of_mem hmem, rfl, rfl,
    (hconsistent domainId domain hdomain).2.stateRoot.symm⟩

variable [Secp256k1] [Revm] [OrderedTrie]

theorem outcome_commitValidated {proposal : ValidatedProposal} (hpending : engine.pending = none)
    (hdurable : Durable engine.database.tables engine.finalized)
    (hproposes : Proposes engine.finalized proposal) :
    Outcome engine (commitValidated proposal engine) := by
  refine outcome_check engine fun mempool _ => outcome_check engine fun commit hcommit => ?_
  exact outcome_commit (published proposal _) hpending
    (fun transaction hwritten => describes_proposal hdurable hproposes hcommit hwritten)
    (fun before => ⟨rfl, rfl, rfl, rfl⟩) fun stats before => ⟨stats, rfl⟩

/-- A pending proposal stays pending if its commit fails. -/
theorem outcome_commitProposal (id : ProposalId)
    (hdurable : Durable engine.database.tables engine.finalized)
    (hproposes : ∀ pending, engine.pending = some pending →
      Proposes engine.finalized pending.proposal) : Outcome engine (commitProposal id engine) := by
  rw [commitProposal, run_get]
  rcases hpending : engine.pending with _ | pending
  · exact .failed (Unmoved.refl engine)
  dsimp only
  split
  · exact .failed (Unmoved.refl engine)
  have hcommit : Outcome { engine with pending := none } (commitValidated pending.proposal
      { engine with pending := none }) :=
    outcome_commitValidated rfl hdurable (hproposes pending hpending)
  show Outcome engine (onFailure (commitValidated pending.proposal)
    _ { engine with pending := none })
  rw [onFailure]
  rcases hrun : commitValidated pending.proposal { engine with pending := none } with
    ⟨stats, engine'⟩ | ⟨error, engine'⟩
  · rw [hrun] at hcommit
    obtain ⟨⟩ | ⟨hdurable', hidle, hevent⟩ := hcommit
    exact .committed hdurable' hidle hevent
  · rw [hrun] at hcommit
    obtain ⟨⟨faults, rfl⟩⟩ := hcommit
    refine .failed ⟨faults, ?_⟩
    rw [← hpending]

theorem outcome_importBlock (block : ConsensusBlock)
    (hdurable : Durable engine.database.tables engine.finalized) :
    Outcome engine (importDevelopmentFinalizedBlock block engine) := by
  refine outcome_check engine fun _ hidle => outcome_check engine fun proposal hproposal => ?_
  rw [rejectIf_eq_ok, Bool.not_eq_true, Option.isSome_eq_false_iff,
    Option.isNone_iff_eq_none] at hidle
  exact outcome_commitValidated hidle hdurable (.validated block (mapError_eq_ok.mp hproposal))

omit [Revm] [OrderedTrie] in
theorem outcome_importCheckpoint (checkpoint : DevelopmentCheckpoint) :
    Outcome engine (importDevelopmentCheckpoint checkpoint engine) := by
  refine outcome_check engine fun _ hidle => outcome_check engine fun _ _ =>
    outcome_check engine fun _ _ => outcome_check engine fun _ _ =>
      outcome_check engine fun chain hchain =>
    outcome_check engine fun mempool _ => outcome_check engine fun commit hcommit => ?_
  rw [rejectIf_eq_ok, Bool.not_eq_true, Option.isSome_eq_false_iff,
    Option.isNone_iff_eq_none] at hidle
  exact outcome_commit (restarted chain mempool) hidle
    (fun _ _ => describes_checkpoint (mapError_eq_ok.mp hchain) hcommit)
    (fun before => ⟨rfl, rfl, rfl, rfl⟩) fun stats before => ⟨(), rfl⟩

end Outcomes

/-! ## Opening -/

section Opening

variable {α : Type} {tables : Tables Column} {chain : FinalizedChainState} {genesis : DevGenesis}

/-- The error of a failed read of the engine. -/
def failed (what : String) : ConsensusError := .storage (.database what)

theorem readOnly_assert (result : Except ConsensusError α) :
    ReadOnly failed (give result : Program Column ConsensusError α) :=
  readOnly_give result

theorem readOnly_stored {program : Storage α} (h : ReadOnly .database program) :
    ReadOnly failed (stored program) :=
  h.adapt _

theorem value_stored_eq_ok {program : Storage α} {a : α} :
    value (stored program) tables = .ok a ↔ value program tables = .ok a := by
  rw [stored, value_adapt, mapError_eq_ok]

theorem readOnly_index (key : Bytes) : ReadOnly .database (index key) :=
  Database.readOnly_get _ _

theorem readOnly_verifyHead (domain : DomainId × FinalizedDomain) :
    ReadOnly failed (verifyHead domain) := by
  refine (readOnly_stored (readOnly_latestHead domain.1)).bind fun head => ?_
  cases head with
  | none => exact readOnly_assert (.error _)
  | some head => exact readOnly_assert _

theorem verifyHead_eq_ok {domain : DomainId × FinalizedDomain}
    (h : value (verifyHead domain) tables = .ok ()) : value (latestHead domain.1) tables
      = .ok (some (domain.2.header.consensusHeight, domain.2.header.stateRoot)) := by
  rw [verifyHead, value_bind (readOnly_stored (readOnly_latestHead domain.1)), bind_eq_ok] at h
  obtain ⟨head, hhead, h⟩ := h
  rw [value_stored_eq_ok] at hhead
  cases head with
  | none => cases h
  | some head =>
    rw [value_give, rejectIf_eq_ok, not_or, not_not, not_not] at h
    rw [hhead, ← h.1, ← h.2]

variable [Keccak]

theorem readOnly_verifyRecovered (chain : FinalizedChainState) (marker : FinalizedMarker) :
    ReadOnly failed (verifyRecovered chain marker) := by
  refine (readOnly_assert _).bind fun _ => (readOnly_stored (readOnly_index _)).bind fun wal => ?_
  cases wal with
  | none => exact readOnly_assert (.error _)
  | some wal => exact (readOnly_assert _).bind fun _ => ReadOnly.forM readOnly_verifyHead _

variable {marker : FinalizedMarker}

/-- What recovery verifies. -/
theorem durable_of_verifyRecovered (hmarker : value finalizedMarker tables = .ok (some marker))
    (h : value (verifyRecovered chain marker) tables = .ok ()) : Durable tables chain := by
  rw [verifyRecovered, value_bind (readOnly_assert _), value_give, check_bind_eq_ok, rejectIf_eq_ok,
    not_not] at h
  obtain ⟨rfl, h⟩ := h
  rw [value_bind (readOnly_stored (readOnly_index _)), bind_eq_ok] at h
  obtain ⟨wal, hwal, h⟩ := h
  rw [value_stored_eq_ok] at hwal
  cases wal with
  | none => cases h
  | some wal =>
    rw [value_bind (readOnly_assert _), value_give, check_bind_eq_ok, rejectIf_eq_ok, not_not,
      value_forM_eq_ok readOnly_verifyHead] at h
    obtain ⟨rfl, hheads⟩ := h
    refine ⟨hmarker, hwal, fun domainId domain hdomain => ?_⟩
    have hmem := Std.ExtTreeMap.mem_toList_iff_getElem?_eq_some.mpr hdomain
    have hhead := verifyHead_eq_ok (hheads _ hmem)
    exact hhead

theorem reading_loadState (stateRoot : B256) :
    Reading (DevelopmentCheckpoint.loadState stateRoot) :=
  (reading_query _).bind fun _ => reading_give _

theorem reading_loadDomains (count : Nat) (bytes : Bytes) :
    Reading (DevelopmentCheckpoint.loadDomains count bytes) := by
  induction count generalizing bytes with
  | zero => exact reading_give (.ok _)
  | succ count ih =>
    exact (reading_give _).bind fun entry => (reading_loadState _).bind fun _ =>
      (ih _).bind fun _ => reading_give (.ok _)

theorem reading_decode (input : Bytes) : Reading (DevelopmentCheckpoint.decode input) :=
  (reading_give _).bind fun _ => (reading_give _).bind fun _ =>
    (reading_loadDomains _ _).bind fun _ =>
    (reading_give _).bind fun _ => (reading_give _).bind fun _ => reading_give (.ok _)

variable [Secp256k1]

theorem reading_load (genesis : DevGenesis) : Reading (DevelopmentCheckpoint.load genesis) := by
  refine (readOnly_stored (readOnly_index _)).reading.bind fun bytes => ?_
  cases bytes with
  | none => exact reading_give (.ok _)
  | some bytes =>
    exact (reading_decode bytes).bind fun _ => (reading_give _).bind fun _ =>
      (reading_give _).bind fun _ => reading_give (.ok _)

theorem reading_recoveryBase (genesis : DevGenesis) (marker : FinalizedMarker)
    (chain : FinalizedChainState) : Reading (recoveryBase genesis marker chain) := by
  refine (reading_load genesis).bind fun checkpoint => ?_
  cases checkpoint with
  | none => exact reading_give (.ok _)
  | some checkpoint => exact (reading_give _).bind fun _ => reading_give (.ok _)

variable [Revm] [OrderedTrie]

theorem reading_replayBlock (chain : FinalizedChainState) (height : U64) :
    Reading (replayBlock chain height) := by
  refine (readOnly_stored (readOnly_index _)).reading.bind fun bytes => ?_
  cases bytes with
  | none => exact reading_give (.error _)
  | some bytes =>
    exact (reading_give _).bind fun _ => (reading_give _).bind fun _ => reading_give (.ok _)

/-- What is recovered is durable. -/
theorem durable_of_recover {fingerprint : B256}
    {recovered : FinalizedChainState} {disk disk' : Disk Column}
    (hmarker : value finalizedMarker disk.tables = .ok (some marker))
    (h : recover genesis fingerprint marker chain disk = .ok recovered disk') :
    Durable disk'.tables recovered := by
  obtain ⟨recorded, first, hrecorded, h⟩ := run_bind_eq_ok.mp h
  have hfirst := (readOnly_stored (readOnly_index _)).reading.of_ok hrecorded
  cases recorded with
  | none => cases h
  | some recorded =>
    obtain ⟨_, _, h⟩ := run_give_eq_ok.mp h
    obtain ⟨base, third, hbase, h⟩ := run_bind_eq_ok.mp h
    have hthird := (reading_recoveryBase _ _ _).of_ok hbase
    obtain ⟨replayed, fourth, hreplayed, h⟩ := run_bind_eq_ok.mp h
    have hfourth := (Reading.foldlM reading_replayBlock _ _).of_ok hreplayed
    obtain ⟨_, fifth, hverify, h⟩ := run_bind_eq_ok.mp h
    cases h
    obtain ⟨hvalue, hfifth⟩ := (readOnly_verifyRecovered _ _).of_ok hverify
    rw [hfifth]
    refine durable_of_verifyRecovered ?_ hvalue
    rw [hfourth, hthird, hfirst]
    exact hmarker

omit [Revm] in
/-- The first batch describes the genesis state. -/
theorem describes_genesis {root : FinalizedDomain} {fingerprint : B256}
    (hchain : genesis.chainState = .ok chain)
    (hroot : chain.domains[genesis.rootDomainId]? = some root) :
    Describes tables (initialBatch genesis chain root fingerprint) chain := by
  obtain ⟨_, _, _, _, _, _, _, rfl⟩ := DevGenesis.chainState_eq_ok hchain
  refine ⟨rfl, by simp [initialBatch], fun domainId domain hdomain => .inl ?_⟩
  rw [Std.ExtTreeMap.getElem?_insert_self] at hroot
  rw [Std.ExtTreeMap.getElem?_insert] at hdomain
  split at hdomain
  · rename_i heq
    cases hroot
    cases hdomain
    exact ⟨_, mem_singleton.mpr rfl, Std.LawfulEqCmp.compare_eq_iff_eq.mp heq, rfl, rfl⟩
  · cases hdomain

/-- The state an engine opens with is durable. -/
theorem durable_of_openFinalized {policy : RetentionPolicy} {disk disk' : Disk Column}
    (h : openFinalized policy genesis disk = .ok chain disk') : Durable disk'.tables chain := by
  obtain ⟨fingerprint, _, h⟩ := run_give_eq_ok.mp h
  obtain ⟨initial, hinitial, h⟩ := run_give_eq_ok.mp h
  obtain ⟨marker, opened, hmarker, h⟩ := run_bind_eq_ok.mp h
  obtain ⟨hvalue, htables⟩ := (readOnly_stored readOnly_finalizedMarker).of_ok hmarker
  rw [value_stored_eq_ok, ← htables] at hvalue
  cases marker with
  | some marker => exact durable_of_recover hvalue h
  | none =>
    obtain ⟨_, written, hinitialize, h⟩ := run_bind_eq_ok.mp h
    cases h
    rw [initializeDatabase] at hinitialize
    rcases hroot : chain.domains[genesis.rootDomainId]? with _ | root
    · rw [hroot] at hinitialize
      cases hinitialize
    · rw [hroot] at hinitialize
      obtain ⟨stats, _, hstored, hpure⟩ := run_bind_eq_ok.mp hinitialize
      cases hpure
      rw [stored, adapt] at hstored
      rcases commit_outcome policy (initialBatch genesis chain root fingerprint) opened with
        ⟨error, faults, hrun⟩ | ⟨stats', transaction, disk'', hrun, hwritten, hstanding⟩
      · rw [hrun] at hstored
        cases hstored
      · rw [hrun] at hstored
        cases hstored
        exact (describes_genesis hinitial hroot).durable hwritten hstanding

end Opening

/-! ## Runs of the engine -/

inductive Call where
  | submitRaw (domainId : DomainId) (envelope : Bytes)
  | buildProposal (timestamp : U64)
  | abandonProposal (id : ProposalId)
  | commitProposal (id : ProposalId)
  | importBlock (block : ConsensusBlock)
  | importCheckpoint (checkpoint : DevelopmentCheckpoint)

def Call.Commits : Call → Prop
  | .commitProposal _ => True
  | .importBlock _ => True
  | .importCheckpoint _ => True
  | _ => False

def left {α : Type} :
    EStateM.Result ConsensusError SingleValidatorEngine α → SingleValidatorEngine
  | .ok _ engine => engine
  | .error _ engine => engine

section Runs

variable [Keccak] [Secp256k1] [Revm] [OrderedTrie]

variable {α : Type} {engine : SingleValidatorEngine}

def Call.run : Call → Operation Unit
  | .submitRaw domainId envelope => do
    let _ ← SingleValidatorEngine.submitRaw domainId envelope
    return ()
  | .buildProposal timestamp => do
    let _ ← SingleValidatorEngine.buildProposal timestamp
    return ()
  | .abandonProposal id => SingleValidatorEngine.abandonProposal id
  | .commitProposal id => do
    let _ ← SingleValidatorEngine.commitProposal id
    return ()
  | .importBlock block => do
    let _ ← importDevelopmentFinalizedBlock block
    return ()
  | .importCheckpoint checkpoint => importDevelopmentCheckpoint checkpoint

/-- The engines that opening any database, under any configuration, and any calls after it
lead to, whichever of them fail. -/
inductive EngineRun : SingleValidatorEngine → Prop
  | opened {mode : EngineMode} {policy : RetentionPolicy} {genesis : DevGenesis}
      {config : MempoolConfig} {historyRetention : DomainHistoryRetention}
      {disk disk' : Disk Column} {engine : SingleValidatorEngine} :
      openWithHistory mode policy genesis config historyRetention disk = .ok engine disk' →
      EngineRun engine
  | called {engine : SingleValidatorEngine} (call : Call) : EngineRun engine →
      EngineRun (left (call.run engine))

/-- What every run keeps: the finalized state is durable, and a pending proposal is one on it. -/
structure Sound (engine : SingleValidatorEngine) : Prop where
  durable : Durable engine.database.tables engine.finalized
  proposes : ∀ pending, engine.pending = some pending → Proposes engine.finalized pending.proposal

theorem Outcome.sound (hsound : Sound engine)
    {result : EStateM.Result ConsensusError SingleValidatorEngine α} (h : Outcome engine result) :
    Sound (left result) := by
  cases h with
  | failed hsame =>
    obtain ⟨faults, rfl⟩ := hsame
    exact ⟨hsound.durable, hsound.proposes⟩
  | committed hdurable hpending _ =>
    refine ⟨hdurable, fun pending hsome => ?_⟩
    rw [left, hpending] at hsome
    cases hsome

omit [Secp256k1] [Revm] [OrderedTrie] in
theorem Outcome.discard {x : Operation α} (h : Outcome engine (x engine)) :
    Outcome engine ((do let _ ← x; return () : Operation Unit) engine) := by
  rw [run_bind]
  rcases hrun : x engine with ⟨a, engine'⟩ | ⟨error, engine'⟩
  · rw [hrun] at h
    cases h with
    | committed hdurable hpending hevent => exact .committed hdurable hpending hevent
  · rw [hrun] at h
    cases h with
    | failed hsame => exact .failed hsame

/-- The calls that commit, from a sound engine. -/
theorem Sound.outcome (hsound : Sound engine) (call : Call) (hcommits : call.Commits) :
    Outcome engine (call.run engine) := by
  cases call with
  | commitProposal id => exact (outcome_commitProposal id hsound.durable hsound.proposes).discard
  | importBlock block => exact (outcome_importBlock block hsound.durable).discard
  | importCheckpoint checkpoint => exact outcome_importCheckpoint checkpoint
  | submitRaw => exact hcommits.elim
  | buildProposal => exact hcommits.elim
  | abandonProposal => exact hcommits.elim

/-! ### The other calls -/

theorem sound_check {β : Type} (hsound : Sound engine) {result : Except ConsensusError α}
    {f : α → Operation β} (h : ∀ a, result = .ok a → Sound (left (f a engine))) :
    Sound (left ((check result >>= f) engine)) := by
  cases result with
  | error error => exact hsound
  | ok a => exact h a rfl

theorem sound_discard {x : Operation α} (h : Sound (left (x engine))) :
    Sound (left ((do let _ ← x; return () : Operation Unit) engine)) := by
  rw [run_bind]
  rcases hrun : x engine with ⟨a, engine'⟩ | ⟨error, engine'⟩
  · rw [hrun] at h
    exact h
  · rw [hrun] at h
    exact h

theorem sound_submitRaw (hsound : Sound engine) (domainId : DomainId) (envelope : Bytes) :
    Sound (left (submitRaw domainId envelope engine)) := by
  refine sound_check hsound fun transaction _ => sound_check hsound fun sender _ => ?_
  rcases engine.finalized.domains[domainId]? with _ | domain
  · exact hsound
  · exact sound_check hsound fun account _ => sound_check hsound fun inserted _ =>
      ⟨hsound.durable, hsound.proposes⟩

/-- A proposal that is built is one on the finalized state. -/
theorem sound_buildProposal (hsound : Sound engine) (timestamp : U64) :
    Sound (left (buildProposal timestamp engine)) := by
  refine sound_check hsound fun _ _ => sound_check hsound fun selected _ => ?_
  set reserved := engine.mempool.reserveHashes
    ((∅ : BTreeSet B256).insertMany (selected.map (·.transactionHash)))
  have hreserved : Sound { engine with mempool := reserved.1 } := ⟨hsound.durable, hsound.proposes⟩
  refine sound_check hreserved fun batches _ => ?_
  rcases hbuilt : ChainMachine.buildProposal engine.finalized batches timestamp
    engine.genesis.rewardAddress with error | proposal
  · exact ⟨hsound.durable, hsound.proposes⟩
  · refine sound_check hreserved fun hash _ => ⟨hsound.durable, fun pending hpending => ?_⟩
    cases hpending
    exact .built batches timestamp engine.genesis.rewardAddress hbuilt

theorem sound_abandonProposal (hsound : Sound engine) (id : ProposalId) :
    Sound (left (abandonProposal id engine)) := by
  rw [abandonProposal, run_get]
  rcases engine.pending with _ | pending
  · exact hsound
  dsimp only
  split
  · exact hsound
  · exact ⟨hsound.durable, fun pending hpending => by cases hpending⟩

/-- What opening gives: the finalized state of the database, a pool of its domains, and nothing
pending. -/
structure Opened (engine : SingleValidatorEngine) : Prop where
  finalized : ∃ policy before,
    openFinalized policy engine.genesis before = .ok engine.finalized engine.database
  registered : ∃ config, registerDomains (Mempool.new config) (engine.finalized.domains.toList.map
    fun domain => (domain.1, domain.2.config.chainId)) = .ok engine.mempool
  pending : engine.pending = none
  cursor : engine.schedulerCursor = 0

theorem opened_of_open {mode : EngineMode} {policy : RetentionPolicy} {genesis : DevGenesis}
    {config : MempoolConfig} {historyRetention : DomainHistoryRetention} {disk disk' : Disk Column}
    (h : openWithHistory mode policy genesis config historyRetention disk = .ok engine disk') :
    Opened engine := by
  obtain ⟨_, _, h⟩ := run_give_eq_ok.mp h
  obtain ⟨_, _, hfinalized, h⟩ := run_bind_eq_ok.mp h
  obtain ⟨_, hregistered, h⟩ := run_give_eq_ok.mp h
  cases h
  exact ⟨⟨policy, disk, hfinalized⟩, ⟨config, hregistered⟩, rfl, rfl⟩

theorem Opened.sound (h : Opened engine) : Sound engine := by
  obtain ⟨_, _, hfinalized⟩ := h.finalized
  refine ⟨durable_of_openFinalized hfinalized, fun pending hpending => ?_⟩
  rw [h.pending] at hpending
  cases hpending

theorem EngineRun.sound (hrun : EngineRun engine) : Sound engine := by
  induction hrun with
  | opened h => exact (opened_of_open h).sound
  | called call _ hsound =>
    cases call with
    | submitRaw domainId envelope => exact sound_discard (sound_submitRaw hsound domainId envelope)
    | buildProposal timestamp => exact sound_discard (sound_buildProposal hsound timestamp)
    | abandonProposal id => exact sound_abandonProposal hsound id
    | commitProposal id => exact (hsound.outcome (.commitProposal id) trivial).sound hsound
    | importBlock block => exact (hsound.outcome (.importBlock block) trivial).sound hsound
    | importCheckpoint checkpoint =>
      exact (hsound.outcome (.importCheckpoint checkpoint) trivial).sound hsound

theorem EngineRun.proposed {proposed : SingleValidatorEngine} {id : ProposalId} {timestamp : U64}
    (hrun : EngineRun engine) (h : buildProposal timestamp engine = .ok id proposed) :
    EngineRun proposed := by
  have hleft : left (Call.run (.buildProposal timestamp) engine) = proposed := by
    rw [Call.run, run_bind, h]
    rfl
  exact hleft ▸ hrun.called (.buildProposal timestamp)

/-- **Failed commits change nothing.**  In every run of the engine, a call that commits and fails
leaves the database, the finalized state, the pool, the cursor, the pending proposal and the
events as they were; one that returns leaves the marker, the write-ahead record and every head
of the new finalized state durable, and has sent exactly one event, for that state. -/
theorem commit_all_or_nothing (engine : SingleValidatorEngine) (hrun : EngineRun engine)
    (call : Call) (hcommits : call.Commits) : Outcome engine (call.run engine) :=
  hrun.sound.outcome call hcommits

end Runs

/-! ## A run -/

section Sample

attribute [local instance] scatteringKeccak sampleTrie namingCurve payingRevm

def returned {σ α : Type} : EStateM.Result ConsensusError σ α → Option (α × σ)
  | .ok a engine => some (a, engine)
  | .error _ _ => none

theorem returned_eq_some {σ α : Type} {result : EStateM.Result ConsensusError σ α} {pair : α × σ} :
    returned result = some pair ↔ result = .ok pair.1 pair.2 := by
  cases result with
  | ok a s => simp [returned, Prod.ext_iff]
  | error e s => simp [returned]

/-- A new engine on an empty database. -/
def newEngine [Keccak] [Secp256k1] [Revm] [OrderedTrie] (genesis : DevGenesis) :
    Option SingleValidatorEngine :=
  (returned (openWithHistory .devValidator .archive genesis ⟨100, 10, 1000, 10⟩ .all
    ⟨fun _ => ∅, never⟩)).map Prod.fst

theorem newEngine_eq_some [Keccak] [Secp256k1] [Revm] [OrderedTrie] {genesis : DevGenesis}
    {engine : SingleValidatorEngine} (h : newEngine genesis = some engine) :
    ∃ disk, openWithHistory .devValidator .archive genesis ⟨100, 10, 1000, 10⟩ .all
      ⟨fun _ => ∅, never⟩ = .ok engine disk := by
  obtain ⟨⟨_, disk⟩, hopened, rfl⟩ := Option.map_eq_some_iff.mp h
  exact ⟨disk, returned_eq_some.mp hopened⟩

def fundedGenesis : DevGenesis := sampleGenesis payer

/-- An engine that has a payment in its pool, and the engine that has proposed it. -/
def proposedPayment : Option (SingleValidatorEngine × ProposalId × SingleValidatorEngine) := do
  let opened ← newEngine fundedGenesis
  let engine := left (Call.run (.submitRaw 1 (paymentOf 0 1)) opened)
  let (id, proposed) ← returned (buildProposal 1700000001 engine)
  return (engine, id, proposed)

/-- A payment is proposed, and its proposal can be committed. -/
theorem exists_proposedPayment : ∃ engine id proposed pending, EngineRun engine ∧
    buildProposal 1700000001 engine = .ok id proposed ∧ proposed.pending = some pending ∧
    pending.reserved ≠ [] ∧ EngineRun proposed ∧
    (returned (Call.run (.commitProposal id) proposed)).isSome = true := by
  obtain ⟨⟨engine, id, proposed⟩, hsample, h⟩ : ∃ sample, proposedPayment = some sample ∧
      ((sample.2.2.pending.any fun pending => pending.reserved ≠ []) &&
        (returned (Call.run (.commitProposal sample.2.1) sample.2.2)).isSome) = true :=
    (Option.any_eq_true _ _).mp (by decide +kernel)
  rw [Bool.and_eq_true] at h
  obtain ⟨hany, hcommits⟩ := h
  obtain ⟨pending, hpending, hreserved⟩ := (Option.any_eq_true _ _).mp hany
  rw [proposedPayment] at hsample
  obtain ⟨opened, hopened, hsample⟩ := Option.bind_eq_some_iff.mp hsample
  obtain ⟨⟨built, proposed'⟩, hbuilt, hsample⟩ := Option.bind_eq_some_iff.mp hsample
  obtain ⟨_, hopened⟩ := newEngine_eq_some hopened
  rw [returned_eq_some] at hbuilt
  cases hsample
  have hrun := (EngineRun.opened hopened).called (.submitRaw 1 (paymentOf 0 1))
  exact ⟨_, id, proposed, pending, hrun, hbuilt, hpending, of_decide_eq_true hreserved,
    hrun.proposed hbuilt, hcommits⟩

theorem commit_all_or_nothing_payment : ∃ engine id pending, EngineRun engine ∧
    engine.pending = some pending ∧ pending.reserved ≠ [] ∧
    (returned (Call.run (.commitProposal id) engine)).isSome = true ∧
    Outcome engine (Call.run (.commitProposal id) engine) := by
  obtain ⟨_, id, proposed, pending, _, _, hpending, hreserved, hrun, hreturned⟩ :=
    exists_proposedPayment
  exact ⟨proposed, id, pending, hrun, hpending, hreserved, hreturned,
    commit_all_or_nothing proposed hrun (.commitProposal id) trivial⟩

end Sample

end SingleValidatorEngine

end Arbor
