import Arbor.Consensus.Fairness
import Arbor.Mempool.Reservation

/-!
# Proposals that come to nothing

The entries of a proposal are set aside while it is pending.  A proposal that cannot be built
gives them back at once: the two error returns on the way that do not are never taken, since
the domains registered with the pool are finalized domains (`EngineRun.registered`) and the block
of a proposal has a hash.  An abandoned proposal gives its entries back to the pool that the
submissions since have made of the rest, unless a submission has taken their place
(`proposal_gives_pool_back`).
-/

namespace Arbor

open Result Device Consensus Mempool ChainMachine List

namespace SingleValidatorEngine

section Abandon

variable {engine engine' : SingleValidatorEngine} {domainId : DomainId}
  {chain : FinalizedChainState}

/-! ## The pool of a run -/

variable {domains : List (DomainId × U64)} {pending : PendingProposal}

theorem mem_of_listed {domains : BTreeMap DomainId FinalizedDomain}
    (h : domainId ∈ (domains.toList.map fun domain => (domain.1, domain.2.config.chainId)).map
      (·.1)) : domainId ∈ domains := by
  rw [map_map] at h
  obtain ⟨domain, hdomain, rfl⟩ := mem_map.mp h
  exact OrdMap.mem_iff_exists.mpr
    ⟨domain.2, Std.ExtTreeMap.mem_toList_iff_getElem?_eq_some.mp hdomain⟩

/-- The batches are for the domains of the entries. -/
theorem mem_groupByDomain {reserved : List PoolEntry} :
    domainId ∈ groupByDomain reserved ↔ ∃ entry ∈ reserved, entry.domainId = domainId := by
  induction reserved using reverseRecOn with
  | nil => simp [groupByDomain]
  | append_singleton reserved entry ih =>
    rw [groupByDomain, foldl_append, foldl_cons, foldl_nil, ← groupByDomain,
      Std.ExtTreeMap.mem_insert, Std.LawfulEqCmp.compare_eq_iff_eq, ih]
    simp [or_comm, or_and_right, exists_or]

theorem registerDomains_chainIds : ∀ {pool next : Mempool},
    registerDomains pool domains = .ok next → ∀ domainId ∈ next.chainIds,
      domainId ∈ pool.chainIds ∨ domainId ∈ domains.map (·.1) := by
  induction domains with
  | nil =>
    intro pool next h domainId hmem
    cases h
    exact .inl hmem
  | cons domain rest ih =>
    intro pool next h domainId hmem
    obtain ⟨middle, hmiddle, hrest⟩ := bind_eq_ok.mp h
    rcases ih hrest domainId hmem with hmem | hmem
    · rcases registerDomain_eq_ok (mapError_eq_ok.mp hmiddle) with rfl | ⟨_, _, rfl⟩
      · exact .inl hmem
      · rcases Std.ExtTreeMap.mem_insert.mp hmem with heq | hmem
        · rw [← Std.LawfulEqCmp.compare_eq_iff_eq.mp heq]
          exact .inr mem_cons_self
        · exact .inl hmem
    · exact .inr (mem_cons_of_mem _ hmem)

theorem run_check_eq_ok {α β : Type} {result : Except ConsensusError α} {f : α → Operation β}
    {b : β} :
    (check result >>= f) engine = .ok b engine' ↔ ∃ a, result = .ok a ∧
    f a engine = .ok b engine' := by
  rw [run_check]
  cases result with
  | error error => simp
  | ok a => simp

theorem run_abandonProposal (h : engine.pending = some pending) :
    abandonProposal pending.id engine = .ok () { engine with
      pending := none
      mempool := engine.mempool.restoreReserved pending.reserved } := by
  rw [abandonProposal, run_get, h]
  dsimp only
  rw [if_neg (not_not.mpr rfl)]
  rfl

variable [Keccak] [Secp256k1]

theorem registerDomains_accounted {pool next : Mempool}
    (hpool : pool.Accounted) (h : registerDomains pool domains = .ok next) : next.Accounted :=
  registerDomains_invariant (fun hpool h => hpool.registered h) hpool h

theorem chainIds_of_insert {pool next : Mempool} {envelope : Bytes} {stateNonce : U64}
    {status : QueueStatus} (h : pool.insert domainId envelope stateNonce = .ok (next, status)) :
    next.chainIds = pool.chainIds := by
  obtain ⟨_, _, ⟨_, rfl⟩ | ⟨_, _, _, rfl⟩⟩ := insert_eq_ok h <;> rfl

theorem importCheckpoint_eq_ok {checkpoint : DevelopmentCheckpoint}
    (hchain : FinalizedChainState.fromCheckpoint checkpoint.state.checkpoint = .ok chain)
    (h : importDevelopmentCheckpoint checkpoint engine = .ok () engine') :
    engine.finalized.height = 0 ∧ engine.genesis.rootDomainId ∈ chain.domains := by
  rw [importDevelopmentCheckpoint, run_get] at h
  obtain ⟨_, _, h⟩ := run_check_eq_ok.mp h
  obtain ⟨_, hheight, h⟩ := run_check_eq_ok.mp h
  obtain ⟨_, _, h⟩ := run_check_eq_ok.mp h
  obtain ⟨_, hidentity, h⟩ := run_check_eq_ok.mp h
  rw [rejectIf_eq_ok, not_not] at hheight
  obtain ⟨_, _, hidentity⟩ := bind_eq_ok.mp hidentity
  rw [rejectIf_eq_ok] at hidentity
  simp only [not_or, not_not] at hidentity
  obtain ⟨_, ⟨done, rfl, hroot⟩, _⟩ := FinalizedChainState.fromCheckpoint_eq_ok hchain
  rw [← hidentity.2.2.2.2.1]
  exact ⟨hheight, hroot⟩

variable [Revm] [OrderedTrie]

theorem EngineRun.accounted (h : EngineRun engine) : engine.mempool.Accounted := by
  induction h with
  | opened h =>
    obtain ⟨_, hregistered⟩ := (opened_of_open h).registered
    exact registerDomains_accounted Pooled.sound_start.accounted hregistered
  | @called engine call hrun ih =>
    have hmoved := call.moved engine
    generalize call.run engine = result at hmoved
    cases hmoved with
    | failed hsame =>
      obtain ⟨_, rfl⟩ := hsame
      exact ih
    | submitted _ _ _ _ hinsert => exact ih.inserted hinsert
    | kept hashes => exact ih.reserved hashes
    | returned hashes =>
      rw [left]
      dsimp only
      rw [restore_reserved ih]
      exact ih
    | built hashes => exact ih.reserved hashes
    | abandoned hpending =>
      exact (ih.restored fun entry hentry =>
        (hrun.holding.reserved _ hpending entry hentry).routed).1
    | committed _ hregistered => exact (registerDomains_accounted ih hregistered).reserved _
    | restarted _ _ hregistered => exact registerDomains_accounted ih hregistered

variable {proposal : ValidatedProposal}

theorem height_ne_zero (h : Proposes chain proposal) : proposal.resultingState.height ≠ 0 := by
  obtain ⟨executed, hrun⟩ := execute_eq_ok h.executes_block.2
  obtain ⟨_, _, hresulting⟩ := hrun.resulting
  have hheight := hrun.height
  rw [hresulting]
  intro hzero
  have hsum := congrArg BitVec.toNat hzero
  rw [BitVec.toNat_add] at hsum
  change (chain.height.toNat + 1) % 2 ^ 64 = 0 at hsum
  omega

theorem domains_of_proposes (h : Proposes chain proposal)
    (hmem : domainId ∈ chain.domains ∨ domainId ∈ (createdChainIds proposal).map (·.1)) :
    domainId ∈ proposal.resultingState.domains := by
  obtain ⟨hlength, updates, hupdates, houtcomes⟩ := execute_updates h.executes_block.2
  rw [hupdates.domains, Std.ExtTreeMap.mem_insertMany_list]
  refine hmem.imp_right fun hcreated => ?_
  rw [createdChainIds, map_map] at hcreated
  obtain ⟨created, hlisted, rfl⟩ := mem_map.mp hcreated
  obtain ⟨execution, hexecution, hcreated⟩ := mem_flatMap.mp hlisted
  have hsecond : (proposal.block.domainBlocks.zip proposal.executions).map Prod.snd
      = proposal.executions := map_snd_zip hlength.ge
  rw [← hsecond] at hexecution
  obtain ⟨⟨header, _⟩, hzip, rfl⟩ := mem_map.mp hexecution
  have htouched : (created.descriptor.domainId, proposal.block.header.height, created.genesisState)
      ∈ updates.map outcome := by
    rw [houtcomes]
    exact mem_flatMap.mpr ⟨_, hzip, mem_cons_of_mem _ (mem_map_of_mem hcreated)⟩
  obtain ⟨update, hupdate, houtcome⟩ := mem_map.mp htouched
  rw [contains_iff_mem]
  exact mem_map.mpr ⟨update, hupdate, congrArg Prod.fst houtcome⟩

/-- A finalized state of height zero is that of genesis. -/
theorem Finalizes.genesis_of_height {genesis : DevGenesis} (h : Finalizes genesis chain)
    (hheight : chain.height = 0) : genesis.chainState = .ok chain := by
  cases h with
  | genesis h => exact h
  | checkpoint h =>
    obtain ⟨hnonzero, ⟨_, rfl, _⟩, _⟩ := FinalizedChainState.fromCheckpoint_eq_ok h
    exact absurd hheight hnonzero
  | extend _ hproposes => exact absurd hheight (height_ne_zero hproposes)

theorem EngineRun.registered (h : EngineRun engine) (hmem : domainId ∈ engine.mempool.chainIds) :
    domainId ∈ engine.finalized.domains := by
  induction h with
  | opened h =>
    obtain ⟨_, hregistered⟩ := (opened_of_open h).registered
    rcases registerDomains_chainIds hregistered domainId hmem with hnew | hlisted
    · exact absurd hnew Std.ExtTreeMap.not_mem_empty
    · exact mem_of_listed hlisted
  | @called engine call hrun ih =>
    have hmoved := call.moved engine
    generalize hresult : call.run engine = result at hmoved hmem ⊢
    cases hmoved with
    | failed hsame =>
      obtain ⟨_, rfl⟩ := hsame
      exact ih hmem
    | submitted _ _ _ _ hinsert => exact ih (chainIds_of_insert hinsert ▸ hmem)
    | kept hashes => exact ih (reserveHashes_chainIds _ hashes ▸ hmem)
    | returned hashes =>
      refine ih ?_
      rw [← restore_reserved hrun.accounted hashes]
      exact hmem
    | built hashes => exact ih (reserveHashes_chainIds _ hashes ▸ hmem)
    | abandoned => exact ih (restoreReserved_chainIds _ _ ▸ hmem)
    | @committed _ _ proposal mempool _ hincludes hregistered =>
      have hproposes : Proposes engine.finalized proposal := by
        cases hincludes with
        | pending hpending => exact hrun.sound.proposes _ hpending
        | block _ hvalid => exact .validated _ hvalid
      have hknown : domainId ∈ mempool.chainIds := reserveHashes_chainIds _ _ ▸ hmem
      exact domains_of_proposes hproposes
        ((registerDomains_chainIds hregistered domainId hknown).imp_left ih)
    | restarted _ hchain hregistered =>
      obtain ⟨hheight, hroot⟩ := importCheckpoint_eq_ok hchain hresult
      rcases registerDomains_chainIds hregistered domainId hmem with hold | hlisted
      · have hdomain := ih hold
        obtain ⟨_, _, _, _, _, _, _, hgenesis⟩ :=
          DevGenesis.chainState_eq_ok (hrun.finalizes.genesis_of_height hheight)
        rw [hgenesis] at hdomain
        rcases Std.ExtTreeMap.mem_insert.mp hdomain with heq | hnone
        · rw [← Std.LawfulEqCmp.compare_eq_iff_eq.mp heq]
          exact hroot
        · exact absurd hnone Std.ExtTreeMap.not_mem_empty
      · exact mem_of_listed hlisted

/-! ## Building -/

theorem EngineRun.batches (hrun : EngineRun engine) (hashes : BTreeSet B256) :
    ∃ batches, mapAll (batchOf engine.finalized)
      (groupByDomain (engine.mempool.reserveHashes hashes).2).toList = .ok batches := by
  refine ⟨_, mapAll_of_ok (g := fun group => ⟨group.1,
    (engine.finalized.domains[group.1]?.map (·.blockHash)).getD 0, group.2⟩) fun group hgroup => ?_⟩
  obtain ⟨entry, hentry, hid⟩ := mem_groupByDomain.mp (OrdMap.mem_iff_exists.mpr
    ⟨_, Std.ExtTreeMap.mem_toList_iff_getElem?_eq_some.mp hgroup⟩)
  have hrouted := hrun.accounted.reserved_routed hentry
  obtain ⟨domain, hdomain⟩ := OrdMap.mem_iff_exists.mp
    (hrun.registered (OrdMap.mem_iff_exists.mpr ⟨_, hrouted.chainId⟩))
  rw [batchOf, ← hid, hdomain]
  rfl

/-- What building leaves: a pending proposal with its entries set aside, or no change. -/
inductive Built (engine : SingleValidatorEngine) :
    EStateM.Result ConsensusError SingleValidatorEngine ProposalId → Prop
  | unchanged (error : ConsensusError) : Built engine (.error error engine)
  | pending (id : ProposalId) (proposal : ValidatedProposal) (hashes : BTreeSet B256) :
      Built engine (.ok id { engine with
        mempool := (engine.mempool.reserveHashes hashes).1
        pending := some ⟨id, proposal, (engine.mempool.reserveHashes hashes).2⟩ })

theorem EngineRun.built (hrun : EngineRun engine) (timestamp : U64) :
    Built engine (buildProposal timestamp engine) := by
  rw [buildProposal, run_get, run_check]
  rcases rejectIf (engine.pending.isSome = true) ConsensusError.proposalPending with error | _
  · exact .unchanged error
  dsimp only
  rw [run_check]
  rcases engine.selectTransactions with error | selected
  · exact .unchanged error
  dsimp only
  generalize (∅ : BTreeSet B256).insertMany (selected.map (·.transactionHash)) = hashes
  obtain ⟨batches, hbatches⟩ := hrun.batches hashes
  change Built engine ((check (mapAll (batchOf engine.finalized)
    (groupByDomain (engine.mempool.reserveHashes hashes).2).toList) >>= _)
      { engine with mempool := (engine.mempool.reserveHashes hashes).1 })
  rw [run_check, hbatches]
  dsimp only
  rcases hbuilt : ChainMachine.buildProposal engine.finalized batches timestamp
    engine.genesis.rewardAddress with error | proposal
  · have hrestored := restore_reserved hrun.accounted hashes
    change Built engine (.error _ { engine with
      mempool := (engine.mempool.reserveHashes hashes).1.restoreReserved
        (engine.mempool.reserveHashes hashes).2 })
    rw [hrestored]
    exact .unchanged _
  · obtain ⟨_, hexecuted⟩ := (Proposes.built batches timestamp _ hbuilt).executes_block
    obtain ⟨_, hexecution⟩ := ChainMachine.execute_eq_ok hexecuted
    obtain ⟨hash, hhash, _⟩ := hexecution.resulting
    dsimp only
    rw [run_check, hhash]
    exact .pending _ proposal hashes

/-! ## Submissions -/

/-- The pool after a submission: with the entry at the sender's finalized nonce inserted, if
the pool accepts it. -/
def submission (chain : FinalizedChainState) (pool : Mempool) (sent : DomainId × Bytes) : Mempool :=
  (do
    let transaction ← (Ethereum.decodeEip1559 sent.2).toOption
    let sender ← (Crypto.recoverEip1559Sender transaction).toOption
    let domain ← chain.domains[sent.1]?
    let account ← (domain.state.account sender).toOption
    let inserted ← (pool.insert sent.1 sent.2 ((account.map (·.nonce)).getD 0)).toOption
    return inserted.1 : Option Mempool).getD pool

theorem submitted_eq (sent : DomainId × Bytes) : left (Call.run (.submitRaw sent.1 sent.2) engine)
      = { engine with mempool := submission engine.finalized engine.mempool sent } := by
  have hleft : left (Call.run (.submitRaw sent.1 sent.2) engine)
      = left (submitRaw sent.1 sent.2 engine) := by
    rw [Call.run, run_bind]
    cases submitRaw sent.1 sent.2 engine <;> rfl
  rw [hleft, submitRaw, run_get, run_check, submission]
  rcases Ethereum.decodeEip1559 sent.2 with _ | transaction
  · rfl
  dsimp only [Except.mapError]
  rw [run_check]
  rcases hsender : Crypto.recoverEip1559Sender transaction with _ | sender
  · simp only [Except.toOption, Option.bind_eq_bind, Option.bind_some, hsender]
    rfl
  rcases hdomain : engine.finalized.domains[sent.1]? with _ | domain
  · simp only [Except.toOption, Option.bind_eq_bind, Option.bind_some, hsender]
    rfl
  dsimp only
  rw [run_check]
  rcases haccount : domain.state.account sender with _ | account
  · simp only [Except.toOption, Option.bind_eq_bind, Option.bind_some, hsender, haccount]
    rfl
  dsimp only [ConsensusError.ofEvm, Except.mapError]
  rw [run_check]
  rcases hinsert : engine.mempool.insert sent.1 sent.2
    ((account.map (·.nonce)).getD 0) with _ | inserted
  · simp only [Except.toOption, Option.bind_eq_bind, Option.bind_some, hsender, haccount, hinsert]
    rfl
  · simp only [Except.toOption, Option.bind_eq_bind, Option.bind_some, hsender, haccount, hinsert]
    rfl

/-- The engine after submissions, whichever of them are accepted. -/
def submitAll (engine : SingleValidatorEngine) (sents : List (DomainId × Bytes)) :
    SingleValidatorEngine :=
  sents.foldl (fun engine sent => left (Call.run (.submitRaw sent.1 sent.2) engine)) engine

theorem submitAll_eq (sents : List (DomainId × Bytes)) : ∀ engine : SingleValidatorEngine,
    submitAll engine sents = { engine with
      mempool := sents.foldl (submission engine.finalized) engine.mempool } := by
  induction sents with
  | nil => exact fun _ => rfl
  | cons sent rest ih =>
    intro engine
    rw [submitAll, foldl_cons, ← submitAll, ih, submitted_eq]
    rfl

theorem EngineRun.submitAll (hrun : EngineRun engine) (sents : List (DomainId × Bytes)) :
    EngineRun (submitAll engine sents) := by
  induction sents generalizing engine with
  | nil => exact hrun
  | cons sent rest ih => exact ih (hrun.called (.submitRaw sent.1 sent.2))

/-! ## Abandoning -/

/-- A pool to which entries have been returned: each has its place unless that is taken, and
every sender has the count of its entries. -/
structure Returned (pool : Mempool) (reserved : List PoolEntry) (after : Mempool) : Prop where
  entries : ∀ key : PoolKey,
    after.entries[key]? = pool.entries[key]?.or (Mempool.entryAt reserved key)
  counts : ∀ (domainId : DomainId) (sender : Address), after.senderCounts[(domainId, sender)]?
    = Tally.positive (after.heldBy domainId sender).card
  registrations : after.chainIds = pool.chainIds ∧ after.usedChainIds = pool.usedChainIds ∧
    after.config = pool.config
  /-- Only a replacement keeps a returned entry out. -/
  kept : ∀ entry ∈ reserved, after.entries[entry.key]? = some entry ∨ entry.key ∈ pool.entries

theorem EngineRun.abandoned (hrun : EngineRun engine)
    (hpending : engine.pending = some pending) (hdistinct : ∀ entry ∈ pending.reserved,
      entryAt pending.reserved entry.key = some entry) :
    ∃ abandoned, abandonProposal pending.id engine = .ok () abandoned ∧
      Returned engine.mempool pending.reserved abandoned.mempool := by
  have habandon := run_abandonProposal hpending
  have hlast := hrun.called (.abandonProposal pending.id)
  rw [Call.run, habandon] at hlast
  have hrouted := fun entry hentry => (hrun.holding.reserved _ hpending entry hentry).routed
  have hentries := fun key => restored_entries key hrouted
  refine ⟨_, habandon, hentries, fun domainId sender => hlast.accounted.counted (domainId, sender),
    ⟨restoreReserved_chainIds _ _, restoreReserved_usedChainIds _ _,
      (hrun.accounted.restored hrouted).2.2.1⟩, fun entry hentry => ?_⟩
  rcases hplace : engine.mempool.entries[entry.key]? with _ | other
  · left
    rw [hentries, hplace, Option.none_or, hdistinct entry hentry]
  · exact .inr (OrdMap.mem_iff_exists.mpr ⟨other, hplace⟩)

/-- **Proposals give the pool back.**  A proposal that cannot be built leaves the pool as it
was.  One that is built splits the pool; after any submissions to what stays, abandoning it
returns what was set aside. -/
theorem proposal_gives_pool_back (engine : SingleValidatorEngine) (hrun : EngineRun engine)
    (timestamp : U64) : (∀ error engine', buildProposal timestamp engine = .error error engine' →
      engine'.mempool = engine.mempool) ∧
    ∀ id engine', buildProposal timestamp engine = .ok id engine' →
      ∃ proposal reserved, engine'.pending = some ⟨id, proposal, reserved⟩ ∧
        (∀ key : PoolKey, engine.mempool.entries[key]?
          = engine'.mempool.entries[key]?.or (Mempool.entryAt reserved key)) ∧
        (∀ entry ∈ reserved, engine'.mempool.entries[entry.key]? = none) ∧
        ∀ sents : List (DomainId × Bytes), ∃ abandoned,
          abandonProposal id (submitAll engine' sents) = .ok () abandoned ∧
          Returned (sents.foldl (submission engine.finalized) engine'.mempool) reserved
            abandoned.mempool := by
  have hbuilt := hrun.built timestamp
  constructor
  · intro error engine' h
    rw [h] at hbuilt
    cases hbuilt
    rfl
  · intro id engine' h
    have hproposed := hrun.proposed h
    have hall := fun sents => submitAll_eq sents engine'
    rw [h] at hbuilt
    cases hbuilt with
    | pending _ proposal hashes =>
      have hkeyed := hrun.accounted.keyed
      refine ⟨proposal, _, rfl, reserved_entries hashes hkeyed,
        fun entry hentry => (entryAt_reserved hkeyed hentry).1, fun sents => ?_⟩
      have habandoned := (hproposed.submitAll sents).abandoned
        (congrArg SingleValidatorEngine.pending (hall sents))
        fun entry hentry => (entryAt_reserved hkeyed hentry).2
      rw [congrArg SingleValidatorEngine.mempool (hall sents)] at habandoned
      exact habandoned

end Abandon

section Sample

attribute [local instance] scatteringKeccak sampleTrie namingCurve payingRevm

/-- The payment is returned after another one has been submitted. -/
theorem proposal_gives_pool_back_payment : ∃ engine id proposed pending abandoned,
    EngineRun engine ∧ buildProposal 1700000001 engine = .ok id proposed ∧
    proposed.pending = some pending ∧ pending.reserved ≠ [] ∧
    abandonProposal id (submitAll proposed [(1, paymentOf 1 1)]) = .ok () abandoned ∧
    Returned (submission engine.finalized proposed.mempool (1, paymentOf 1 1)) pending.reserved
      abandoned.mempool := by
  obtain ⟨engine, id, proposed, pending, hrun, hbuilt, hproposed, hreserved, _⟩ :=
    exists_proposedPayment
  obtain ⟨proposal, reserved, hpending, _, _, hreturned⟩ :=
    (proposal_gives_pool_back engine hrun 1700000001).2 id proposed hbuilt
  obtain ⟨abandoned, habandon, hpool⟩ := hreturned [(1, paymentOf 1 1)]
  obtain rfl := Option.some.inj (hproposed.symm.trans hpending)
  exact ⟨engine, id, proposed, _, abandoned, hrun, hbuilt, hpending, hreserved, habandon, hpool⟩

end Sample

end SingleValidatorEngine

end Arbor
