import Arbor.Consensus.Durability

/-!
# What a call does to the engine

Every call either fails and leaves the engine as it was, apart from the coming failures of
its device, or makes one of a few moves (`Moved`).  Two of the moves are failures of
`buildProposal` after entries have been reserved: an invalid proposal gives them back, an
error before or after it does not.  Invariants of runs are shown move by move.
-/

namespace Arbor

open Result Device Consensus Database

namespace SingleValidatorEngine

section Moves

theorem registerDomains_invariant {I : Mempool → Prop}
    (hstep : ∀ {pool next : Mempool} {domainId : DomainId} {chainId : U64}, I pool →
      pool.registerDomain domainId chainId = .ok next → I next) {domains : List (DomainId × U64)}
    {pool next : Mempool} (hpool : I pool) (h : registerDomains pool domains = .ok next) : I next :=
  foldlM_invariant (I := fun _ pool => I pool)
    (fun _ _ _ _ hI h => hstep hI (mapError_eq_ok.mp h)) [] hpool h

variable [Keccak] {α β : Type}

theorem run_commit (engine : SingleValidatorEngine) (commit : CommitBatch)
    (f : CommitStats → Operation β) :
    (∃ error engine', Unmoved engine engine' ∧ (onDatabase (stored (Database.commit engine.retention
        commit)) >>= f) engine = .error error engine') ∨
      ∃ stats disk, (onDatabase (stored (Database.commit engine.retention commit)) >>= f) engine
        = f stats { engine with database := disk } := by
  rw [run_bind, onDatabase, stored, adapt]
  rcases commit_outcome engine.retention commit engine.database with
    ⟨error, faults, hrun⟩ | ⟨stats, transaction, disk, hrun, _, _⟩
  · rw [hrun]
    exact .inl ⟨_, _, ⟨faults, rfl⟩, rfl⟩
  · rw [hrun]
    exact .inr ⟨stats, disk, rfl⟩

theorem run_commitValidated (engine : SingleValidatorEngine) (proposal : ValidatedProposal) :
    (∃ error engine', Unmoved engine engine' ∧
        commitValidated proposal engine = .error error engine') ∨
      ∃ stats mempool disk, registerDomains engine.mempool (createdChainIds proposal)
        = .ok mempool ∧
        commitValidated proposal engine = .ok stats (published proposal
          (mempool.reserveHashes (includedHashes proposal)).1
            { engine with database := disk }) := by
  rw [commitValidated, run_get, run_check]
  rcases hregistered : registerDomains engine.mempool
    (createdChainIds proposal) with error | mempool
  · exact .inl ⟨error, engine, Unmoved.refl engine, rfl⟩
  dsimp only
  rw [run_check]
  rcases proposalCommitBatch proposal engine.historyRetention with error | commit
  · exact .inl ⟨error, engine, Unmoved.refl engine, rfl⟩
  dsimp only
  rcases run_commit engine commit _ with ⟨error, engine', hsame, hrun⟩ | ⟨stats, disk, hrun⟩
  · rw [hrun]
    exact .inl ⟨error, engine', hsame, rfl⟩
  · rw [hrun]
    exact .inr ⟨stats, mempool, disk, rfl, rfl⟩

variable [Secp256k1] [Revm] [OrderedTrie] {engine : SingleValidatorEngine} {genesis : DevGenesis}
  {disk disk' : Disk Column} {call : Call}

/-- The proposal that a call commits: the pending one, or that of a block on the finalized
state. -/
inductive Call.Includes (engine : SingleValidatorEngine) : Call → ValidatedProposal → Prop
  | pending {pending : PendingProposal} : engine.pending = some pending →
      Includes engine (.commitProposal pending.id) pending.proposal
  | block {block : ConsensusBlock} {proposal : ValidatedProposal} : engine.pending = none →
      ChainMachine.validateProposal engine.finalized block = .ok proposal →
      Includes engine (.importBlock block) proposal

inductive Moved {α : Type} (engine : SingleValidatorEngine) :
    Call → EStateM.Result ConsensusError SingleValidatorEngine α → Prop
  | failed {call : Call} {error : ConsensusError} {engine' : SingleValidatorEngine} :
      Unmoved engine engine' → Moved engine call (.error error engine')
  | submitted {a : α} {domainId : DomainId} {envelope : Bytes} {transaction : Eip1559Transaction}
      {sender : Address} {domain : FinalizedDomain} {account : Option Account} {mempool : Mempool}
      {status : QueueStatus} : Ethereum.decodeEip1559 envelope = .ok transaction →
      Crypto.recoverEip1559Sender transaction = .ok sender →
      engine.finalized.domains[domainId]? = some domain →
      domain.state.account sender = .ok account →
      engine.mempool.insert domainId envelope ((account.map (·.nonce)).getD 0)
        = .ok (mempool, status) →
      Moved engine (.submitRaw domainId envelope) (.ok a { engine with mempool })
  | kept {timestamp : U64} {error : ConsensusError} (hashes : BTreeSet B256) :
      Moved engine (.buildProposal timestamp)
        (.error error { engine with mempool := (engine.mempool.reserveHashes hashes).1 })
  | returned {timestamp : U64} {error : ConsensusError} (hashes : BTreeSet B256) :
      Moved engine (.buildProposal timestamp) (.error error { engine with
        mempool := (engine.mempool.reserveHashes hashes).1.restoreReserved
          (engine.mempool.reserveHashes hashes).2 })
  | built {a : α} {timestamp : U64} {selected : List PoolEntry} {batches : List DomainBatch}
      {proposal : ValidatedProposal} {hash : B256} (hashes : BTreeSet B256) :
      engine.pending = none → engine.selectTransactions = .ok selected →
      hashes = (∅ : BTreeSet B256).insertMany (selected.map (·.transactionHash)) →
      mapAll (batchOf engine.finalized)
        (groupByDomain (engine.mempool.reserveHashes hashes).2).toList = .ok batches →
      ChainMachine.buildProposal engine.finalized batches timestamp engine.genesis.rewardAddress
        = .ok proposal →
      Moved engine (.buildProposal timestamp) (.ok a { engine with
        mempool := (engine.mempool.reserveHashes hashes).1
        pending := some ⟨⟨hash⟩, proposal, (engine.mempool.reserveHashes hashes).2⟩ })
  | abandoned {a : α} {pending : PendingProposal} : engine.pending = some pending →
      Moved engine (.abandonProposal pending.id) (.ok a { engine with
        pending := none
        mempool := engine.mempool.restoreReserved pending.reserved })
  | committed {a : α} {call : Call} {proposal : ValidatedProposal} {mempool : Mempool}
    {disk : Disk Column} :
      call.Includes engine proposal →
      registerDomains engine.mempool (createdChainIds proposal) = .ok mempool →
      Moved engine call (.ok a (published proposal
        (mempool.reserveHashes (includedHashes proposal)).1
        { engine with database := disk, pending := none }))
  | restarted {a : α} {checkpoint : DevelopmentCheckpoint} {chain : FinalizedChainState}
    {mempool : Mempool}
      {disk : Disk Column} : engine.pending = none →
      FinalizedChainState.fromCheckpoint checkpoint.state.checkpoint = .ok chain →
      registerDomains engine.mempool
        (chain.domains.toList.map fun domain => (domain.1, domain.2.config.chainId)) = .ok mempool →
      Moved engine (.importCheckpoint checkpoint)
        (.ok a (restarted chain mempool { engine with database := disk }))

/-- A check fails before anything is done. -/
theorem moved_check {result : Except ConsensusError α} {f : α → Operation β}
    (h : ∀ a, result = .ok a → Moved engine call (f a engine)) :
    Moved engine call ((check result >>= f) engine) := by
  cases result with
  | error error => exact .failed (Unmoved.refl engine)
  | ok a => exact h a rfl

theorem Moved.discard {x : Operation α} (h : Moved engine call (x engine)) :
    Moved engine call ((do let _ ← x; return () : Operation Unit) engine) := by
  rw [run_bind]
  rcases hrun : x engine with ⟨a, engine'⟩ | ⟨error, engine'⟩
  · rw [hrun] at h
    cases h with
    | submitted hdecode hsender hdomain haccount hinsert =>
      exact .submitted hdecode hsender hdomain haccount hinsert
    | built hashes hidle hselected hhashes hbatches hbuilt =>
      exact .built hashes hidle hselected hhashes hbatches hbuilt
    | abandoned hpending => exact .abandoned hpending
    | committed hincludes hregistered => exact .committed hincludes hregistered
    | restarted hidle hchain hregistered => exact .restarted hidle hchain hregistered
  · rw [hrun] at h
    cases h with
    | failed hsame => exact .failed hsame
    | kept hashes => exact .kept hashes
    | returned hashes => exact .returned hashes

theorem moved_submitRaw (domainId : DomainId) (envelope : Bytes) :
    Moved engine (.submitRaw domainId envelope) (submitRaw domainId envelope engine) := by
  refine moved_check fun transaction hdecode => moved_check fun sender hsender => ?_
  rcases hdomain : engine.finalized.domains[domainId]? with _ | domain
  · exact .failed (Unmoved.refl engine)
  · exact moved_check fun account haccount => moved_check fun inserted hinsert =>
      .submitted (mapError_eq_ok.mp hdecode) (mapError_eq_ok.mp hsender) hdomain
        (mapError_eq_ok.mp haccount) (mapError_eq_ok.mp hinsert)

theorem moved_buildProposal (timestamp : U64) :
    Moved engine (.buildProposal timestamp) (buildProposal timestamp engine) := by
  refine moved_check fun _ hidle => moved_check fun selected hselected => ?_
  rw [rejectIf_eq_ok, Bool.not_eq_true, Option.isSome_eq_false_iff,
    Option.isNone_iff_eq_none] at hidle
  set hashes := (∅ : BTreeSet B256).insertMany (selected.map (·.transactionHash)) with hhashes
  change Moved engine _ ((check (mapAll (batchOf engine.finalized)
    (groupByDomain (engine.mempool.reserveHashes hashes).2).toList) >>= _)
      { engine with mempool := (engine.mempool.reserveHashes hashes).1 })
  rw [run_check]
  rcases hbatches : mapAll (batchOf engine.finalized)
    (groupByDomain (engine.mempool.reserveHashes hashes).2).toList with error | batches
  · exact .kept hashes
  dsimp only
  rcases hbuilt : ChainMachine.buildProposal engine.finalized batches timestamp
    engine.genesis.rewardAddress with error | proposal
  · exact .returned hashes
  · dsimp only
    rcases proposal.block.hash.mapError ConsensusError.chain with error | hash
    · exact .kept hashes
    · exact .built hashes hidle hselected hhashes hbatches hbuilt

theorem moved_abandonProposal (id : ProposalId) :
    Moved engine (.abandonProposal id) (abandonProposal id engine) := by
  rw [abandonProposal, run_get]
  rcases hpending : engine.pending with _ | pending
  · exact .failed (Unmoved.refl engine)
  dsimp only
  split
  · exact .failed (Unmoved.refl engine)
  · rename_i hid
    rw [not_not] at hid
    exact hid ▸ .abandoned hpending

theorem moved_commitProposal (id : ProposalId) :
    Moved engine (.commitProposal id) (commitProposal id engine) := by
  rw [commitProposal, run_get]
  rcases hpending : engine.pending with _ | pending
  · exact .failed (Unmoved.refl engine)
  dsimp only
  split
  · exact .failed (Unmoved.refl engine)
  rename_i hid
  rw [not_not] at hid
  show Moved engine _ (onFailure (commitValidated pending.proposal)
    _ { engine with pending := none })
  rw [onFailure]
  rcases run_commitValidated { engine with pending := none } pending.proposal with
    ⟨error, engine', ⟨faults, rfl⟩, hrun⟩ | ⟨stats, mempool, disk, hregistered, hrun⟩
  · rw [hrun]
    refine .failed ⟨faults, ?_⟩
    rw [← hpending]
  · rw [hrun, ← hid]
    exact .committed (.pending hpending) hregistered

theorem run_importBlock {block : ConsensusBlock} {proposal : ValidatedProposal}
    (hidle : engine.pending = none)
    (hvalid : ChainMachine.validateProposal engine.finalized block = .ok proposal) :
    importDevelopmentFinalizedBlock block engine = commitValidated proposal engine := by
  rw [importDevelopmentFinalizedBlock, run_get, hidle]
  rw [hvalid]
  rfl

theorem moved_importBlock (block : ConsensusBlock) :
    Moved engine (.importBlock block) (importDevelopmentFinalizedBlock block engine) := by
  refine moved_check fun _ hidle => moved_check fun proposal hproposal => ?_
  rw [rejectIf_eq_ok, Bool.not_eq_true, Option.isSome_eq_false_iff,
    Option.isNone_iff_eq_none] at hidle
  rcases run_commitValidated engine proposal with
    ⟨error, engine', hsame, hrun⟩ | ⟨stats, mempool, disk, hregistered, hrun⟩
  · rw [hrun]
    exact .failed hsame
  · rw [hrun]
    have hmoved : Moved engine (.importBlock block) (.ok stats (published proposal
        (mempool.reserveHashes (includedHashes proposal)).1
        { engine with database := disk, pending := none })) :=
      .committed (.block hidle (mapError_eq_ok.mp hproposal)) hregistered
    rw [← hidle] at hmoved
    exact hmoved

theorem moved_importCheckpoint (checkpoint : DevelopmentCheckpoint) :
    Moved engine (.importCheckpoint checkpoint)
      (importDevelopmentCheckpoint checkpoint engine) := by
  refine moved_check fun _ hidle => moved_check fun _ _ => moved_check fun _ _ =>
    moved_check fun _ _ => moved_check fun chain hchain => moved_check fun mempool hregistered =>
    moved_check fun commit _ => ?_
  rw [rejectIf_eq_ok, Bool.not_eq_true, Option.isSome_eq_false_iff,
    Option.isNone_iff_eq_none] at hidle
  rcases run_commit engine commit _ with ⟨error, engine', hsame, hrun⟩ | ⟨stats, disk, hrun⟩
  · rw [hrun]
    exact .failed hsame
  · rw [hrun]
    exact .restarted hidle (mapError_eq_ok.mp hchain) hregistered

/-- **Moves.**  What every call does. -/
theorem Call.moved (call : Call) (engine : SingleValidatorEngine) :
    Moved engine call (call.run engine) := by
  cases call with
  | submitRaw domainId envelope => exact (moved_submitRaw domainId envelope).discard
  | buildProposal timestamp => exact (moved_buildProposal timestamp).discard
  | abandonProposal id => exact moved_abandonProposal id
  | commitProposal id => exact (moved_commitProposal id).discard
  | importBlock block => exact (moved_importBlock block).discard
  | importCheckpoint checkpoint => exact moved_importCheckpoint checkpoint

/-! ## Finalized states -/

/-- Where finalized states come from: genesis, a checkpoint, or a proposal on one of them. -/
inductive Finalizes (genesis : DevGenesis) : FinalizedChainState → Prop
  | genesis {chain : FinalizedChainState} : genesis.chainState = .ok chain → Finalizes genesis chain
  | checkpoint {checkpoint : FinalizedChainCheckpoint} {chain : FinalizedChainState} :
      FinalizedChainState.fromCheckpoint checkpoint = .ok chain → Finalizes genesis chain
  | extend {chain : FinalizedChainState} {proposal : ValidatedProposal} :
      Finalizes genesis chain → Proposes chain proposal → Finalizes genesis proposal.resultingState

theorem finalizes_recoveryBase {marker : FinalizedMarker} {chain base : FinalizedChainState}
    (hchain : Finalizes genesis chain)
    (h : recoveryBase genesis marker chain disk = .ok base disk') : Finalizes genesis base := by
  obtain ⟨loaded, _, hloaded, h⟩ := run_bind_eq_ok.mp h
  cases loaded with
  | none =>
    cases h
    exact hchain
  | some checkpoint =>
    obtain ⟨_, _, h⟩ := run_give_eq_ok.mp h
    cases h
    obtain ⟨bytes, _, _, hloaded⟩ := run_bind_eq_ok.mp hloaded
    cases bytes with
    | none => cases hloaded
    | some bytes =>
      obtain ⟨decoded, _, hdecoded, hloaded⟩ := run_bind_eq_ok.mp hloaded
      obtain ⟨_, _, hloaded⟩ := run_give_eq_ok.mp hloaded
      obtain ⟨_, _, hloaded⟩ := run_give_eq_ok.mp hloaded
      cases hloaded
      obtain ⟨_, _, hdecoded⟩ := run_give_eq_ok.mp hdecoded
      obtain ⟨_, _, hdecoded⟩ := run_give_eq_ok.mp hdecoded
      obtain ⟨_, _, _, hdecoded⟩ := run_bind_eq_ok.mp hdecoded
      obtain ⟨_, _, hdecoded⟩ := run_give_eq_ok.mp hdecoded
      obtain ⟨_, hstate, hdecoded⟩ := run_give_eq_ok.mp hdecoded
      cases hdecoded
      exact .checkpoint (mapError_eq_ok.mp hstate)

theorem finalizes_replayed (heights : List U64) : ∀ {chain replayed : FinalizedChainState}
    {disk disk' : Disk Column}, Finalizes genesis chain →
      heights.foldlM replayBlock chain disk = .ok replayed disk' → Finalizes genesis replayed := by
  induction heights with
  | nil =>
    intro chain replayed disk disk' hchain h
    cases h
    exact hchain
  | cons height rest ih =>
    intro chain replayed disk disk' hchain h
    obtain ⟨next, _, hnext, h⟩ := run_bind_eq_ok.mp h
    obtain ⟨bytes, _, _, hnext⟩ := run_bind_eq_ok.mp hnext
    cases bytes with
    | none => cases hnext
    | some bytes =>
      obtain ⟨block, _, hnext⟩ := run_give_eq_ok.mp hnext
      obtain ⟨proposal, hvalid, hnext⟩ := run_give_eq_ok.mp hnext
      cases hnext
      exact ih (.extend hchain (.validated block (mapError_eq_ok.mp hvalid))) h

theorem finalizes_opened {policy : RetentionPolicy} {chain : FinalizedChainState}
    (h : openFinalized policy genesis disk = .ok chain disk') : Finalizes genesis chain := by
  obtain ⟨_, _, h⟩ := run_give_eq_ok.mp h
  obtain ⟨initial, hinitial, h⟩ := run_give_eq_ok.mp h
  obtain ⟨marker, _, _, h⟩ := run_bind_eq_ok.mp h
  cases marker with
  | none =>
    obtain ⟨_, _, _, h⟩ := run_bind_eq_ok.mp h
    cases h
    exact .genesis hinitial
  | some marker =>
    obtain ⟨recorded, _, _, h⟩ := run_bind_eq_ok.mp h
    cases recorded with
    | none => cases h
    | some recorded =>
      obtain ⟨_, _, h⟩ := run_give_eq_ok.mp h
      obtain ⟨base, _, hbase, h⟩ := run_bind_eq_ok.mp h
      obtain ⟨replayed, _, hreplayed, h⟩ := run_bind_eq_ok.mp h
      obtain ⟨_, _, _, h⟩ := run_bind_eq_ok.mp h
      cases h
      exact finalizes_replayed _ (finalizes_recoveryBase (.genesis hinitial) hbase) hreplayed

theorem EngineRun.finalizes (h : EngineRun engine) : Finalizes engine.genesis engine.finalized := by
  induction h with
  | opened h =>
    obtain ⟨_, _, hfinalized⟩ := (opened_of_open h).finalized
    exact finalizes_opened hfinalized
  | @called engine call hrun ih =>
    have hmoved := call.moved engine
    generalize call.run engine = result at hmoved
    cases hmoved with
    | failed hsame =>
      obtain ⟨_, rfl⟩ := hsame
      exact ih
    | submitted => exact ih
    | kept => exact ih
    | returned => exact ih
    | built => exact ih
    | abandoned => exact ih
    | committed hincludes =>
      cases hincludes with
      | pending hpending => exact .extend ih (hrun.sound.proposes _ hpending)
      | block _ hvalid => exact .extend ih (.validated _ hvalid)
    | restarted _ hchain => exact .checkpoint hchain

end Moves

end SingleValidatorEngine

end Arbor
