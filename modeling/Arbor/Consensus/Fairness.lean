import Arbor.Consensus.PoolNonces
import Arbor.Consensus.Rotation

/-!
# The rotation leaves no domain out

A commit moves the cursor on by one, modulo the number of domains; the rotation takes it
modulo the number of domains that are ready.  In as many selections as there are domains the
cursor passes every index, so the index of a domain that stays ready comes first in one of
them, and there its first entry is taken (`rotation_reaches_every_domain`).
-/

namespace Arbor

open Result Device Consensus ChainMachine List

namespace SingleValidatorEngine

section Fairness

/-! ## Configurations -/

def Configured (chain : FinalizedChainState) : Prop :=
  ∀ (domainId : DomainId) (domain : FinalizedDomain), chain.domains[domainId]? = some domain →
    domain.config.validate = .ok ()

variable {chain : FinalizedChainState}

theorem Configured.insert (h : Configured chain) {domainId : DomainId}
    {domain : FinalizedDomain} (hconfig : domain.config.validate = .ok ()) :
    Configured { chain with domains := chain.domains.insert domainId domain } := by
  intro id found hfound
  rw [OrdMap.getElem?_insert] at hfound
  split at hfound
  · cases hfound
    exact hconfig
  · exact h id found hfound

variable [Keccak] [Secp256k1] [Revm] [OrderedTrie] {engine engine' : SingleValidatorEngine}

theorem configured_execute {parent : FinalizedChainState} {batches : List DomainBatch}
    {timestamp : U64} {proposer : Address} {proposal : ValidatedProposal}
    (hparent : Configured parent) (h : execute parent batches timestamp proposer = .ok proposal) :
    Configured proposal.resultingState := by
  obtain ⟨executed, hrun⟩ := execute_eq_ok h
  obtain ⟨_, _, hresulting⟩ := hrun.resulting
  have hexecuted : Configured executed.state := by
    refine executeBatches_induct (P := fun executing => Configured executing.state) ?_
      hparent hrun.ran
    intro batch before after _ hbefore hstep
    obtain ⟨_, _, _, _, hran⟩ := executeBatch_eq_ok hstep
    refine FinalizedChainState.insertCreatedDomains_induct (P := Configured) ?_ ?_ hran.admitted
    · intro chain next new _ hchain hinsert
      obtain ⟨hadmissible, _, _, rfl⟩ := FinalizedChainState.insertCreatedDomain_eq_ok hinsert
      exact hchain.insert hadmissible.config
    · have hconfig := hparent _ _ hran.found
      exact hbefore.insert hconfig
  rw [hresulting]
  exact hexecuted

theorem Finalizes.configured {genesis : DevGenesis}
    (h : Finalizes genesis chain) : Configured chain := by
  induction h with
  | genesis h =>
    obtain ⟨_, _, _, _, _, hconfig, _, rfl⟩ := DevGenesis.chainState_eq_ok h
    intro domainId domain hdomain
    rw [OrdMap.getElem?_insert] at hdomain
    split at hdomain
    · cases hdomain
      exact hconfig
    · cases hdomain
  | checkpoint h =>
    obtain ⟨_, _, _, hdomains⟩ := FinalizedChainState.fromCheckpoint_eq_ok h
    exact fun domainId domain hdomain => (hdomains domainId domain hdomain).1
  | extend _ hproposes ih => exact configured_execute ih hproposes.executes_block.2

/-! ## The cursor -/

/-- A call after which no event has been sent: it has finalized nothing. -/
def Idles (engine engine' : SingleValidatorEngine) : Prop :=
  ∃ call : Call, engine' = left (call.run engine) ∧ engine'.events = engine.events

def CommitsBlock (engine engine' : SingleValidatorEngine) : Prop :=
  (∃ id, Call.run (.commitProposal id) engine = .ok () engine') ∨
    ∃ block, Call.run (.importBlock block) engine = .ok () engine'

/-- One commit, and any calls before and after it that finalize nothing. -/
def Round (engine engine' : SingleValidatorEngine) : Prop :=
  ∃ before after, Relation.ReflTransGen Idles engine before ∧ CommitsBlock before after ∧
    Relation.ReflTransGen Idles after engine'

theorem Idles.kept (h : Idles engine engine') :
    engine'.finalized = engine.finalized ∧ engine'.schedulerCursor = engine.schedulerCursor := by
  obtain ⟨call, rfl, hevents⟩ := h
  have hmoved := call.moved engine
  generalize call.run engine = result at hmoved hevents
  cases hmoved with
  | failed hsame =>
    obtain ⟨_, rfl⟩ := hsame
    exact ⟨rfl, rfl⟩
  | submitted => exact ⟨rfl, rfl⟩
  | kept => exact ⟨rfl, rfl⟩
  | returned => exact ⟨rfl, rfl⟩
  | built => exact ⟨rfl, rfl⟩
  | abandoned => exact ⟨rfl, rfl⟩
  | committed => exact absurd hevents (by simp [left, published])
  | restarted => exact absurd hevents (by simp [left, restarted])

theorem idle_kept (h : Relation.ReflTransGen Idles engine engine') :
    engine'.finalized = engine.finalized ∧ engine'.schedulerCursor = engine.schedulerCursor := by
  induction h with
  | refl => exact ⟨rfl, rfl⟩
  | tail _ hidles ih => exact ⟨hidles.kept.1.trans ih.1, hidles.kept.2.trans ih.2⟩

theorem CommitsBlock.cursor (h : CommitsBlock engine engine') :
    engine'.schedulerCursor = min (engine.schedulerCursor + 1) (2 ^ 64 - 1)
      % max engine'.finalized.domains.size 1 := by
  obtain ⟨call, hrun, hcheckpoint⟩ : ∃ call : Call, call.run engine = .ok () engine' ∧
      call.Commits ∧ ∀ checkpoint, call ≠ .importCheckpoint checkpoint := by
    rcases h with ⟨id, hrun⟩ | ⟨block, hrun⟩
    · exact ⟨_, hrun, trivial, by simp⟩
    · exact ⟨_, hrun, trivial, by simp⟩
  have hmoved := call.moved engine
  rw [hrun] at hmoved
  cases hmoved with
  | submitted => exact hcheckpoint.1.elim
  | built => exact hcheckpoint.1.elim
  | abandoned => exact hcheckpoint.1.elim
  | committed => rfl
  | restarted => exact absurd rfl (hcheckpoint.2 _)

theorem Round.cursor (h : Round engine engine') :
    engine'.schedulerCursor = min (engine.schedulerCursor + 1) (2 ^ 64 - 1)
      % max engine'.finalized.domains.size 1 := by
  obtain ⟨before, after, hbefore, hcommits, hafter⟩ := h
  rw [(idle_kept hafter).2, (idle_kept hafter).1, hcommits.cursor, (idle_kept hbefore).2]

theorem EngineRun.round (h : EngineRun engine) (hround : Round engine engine') :
    EngineRun engine' := by
  have hidle : ∀ {first last : SingleValidatorEngine}, EngineRun first →
      Relation.ReflTransGen Idles first last → EngineRun last := by
    intro first last hfirst hidles
    induction hidles with
    | refl => exact hfirst
    | tail _ hidles ih =>
      obtain ⟨call, rfl, _⟩ := hidles
      exact .called call ih
  obtain ⟨before, after, hbefore, hcommits, hafter⟩ := hround
  refine hidle ?_ hafter
  rcases hcommits with ⟨id, hrun⟩ | ⟨block, hrun⟩
  · have hcalled := EngineRun.called (.commitProposal id) (hidle h hbefore)
    rw [hrun] at hcalled
    exact hcalled
  · have hcalled := EngineRun.called (.importBlock block) (hidle h hbefore)
    rw [hrun] at hcalled
    exact hcalled

/-- The cursor of a run is below the number of domains. -/
theorem EngineRun.cursor_lt (h : EngineRun engine) :
    engine.schedulerCursor < max engine.finalized.domains.size 1 := by
  induction h with
  | opened h =>
    rw [(opened_of_open h).cursor]
    exact Nat.lt_of_lt_of_le Nat.zero_lt_one (le_max_right _ _)
  | @called engine call _ ih =>
    have hmoved := call.moved engine
    generalize call.run engine = result at hmoved
    cases hmoved with
    | failed hsame =>
      obtain ⟨_, rfl⟩ := hsame
      exact ih
    | submitted => exact ih
    | kept => exact ih
    | returned => exact ih
    | built => exact ih
    | abandoned => exact ih
    | committed => exact Nat.mod_lt _ (Nat.lt_of_lt_of_le Nat.zero_lt_one (le_max_right _ _))
    | restarted => exact Nat.lt_of_lt_of_le Nat.zero_lt_one (le_max_right _ _)

/-! ## The segment -/

/-- Engines at successive selections, one commit apart, with `n` domains each. -/
structure Segment (n : Nat) (engines : Nat → SingleValidatorEngine) : Prop where
  positive : 0 < n
  run : EngineRun (engines 0)
  rounds : ∀ i, i + 1 < n → Round (engines i) (engines (i + 1))
  domains : ∀ i < n, (engines i).finalized.domains.size = n
  /-- The number of domains is a `usize`. -/
  counted : n < 2 ^ 64

variable {n : Nat} {engines : Nat → SingleValidatorEngine}

theorem Segment.engineRun (h : Segment n engines) (i : Nat) (hi : i < n) :
    EngineRun (engines i) := by
  induction i with
  | zero => exact h.run
  | succ i ih => exact (ih (Nat.lt_of_succ_lt hi)).round (h.rounds i hi)

/-- The cursors of the segment. -/
theorem Segment.cursor (h : Segment n engines) (i : Nat) (hi : i < n) :
    (engines i).schedulerCursor = ((engines 0).schedulerCursor + i) % n := by
  have hbound : ∀ j < n, (engines j).schedulerCursor < n := fun j hj => by
    have hlt := (h.engineRun j hj).cursor_lt
    rw [h.domains j hj] at hlt
    omega
  induction i with
  | zero => exact (Nat.mod_eq_of_lt (hbound 0 hi)).symm
  | succ i ih =>
    have hlt := hbound i (Nat.lt_of_succ_lt hi)
    have hcounted := h.counted
    have hmax : max n 1 = n := by omega
    rw [(h.rounds i hi).cursor, h.domains (i + 1) hi, hmax, min_eq_left (by omega),
      ih (Nat.lt_of_succ_lt hi), Nat.mod_add_mod, Nat.add_assoc]

/-- Every index is a cursor of the segment. -/
theorem Segment.reaches (h : Segment n engines) {j : Nat} (hj : j < n) :
    ∃ i < n, (engines i).schedulerCursor = j := by
  have hn := Nat.zero_lt_of_lt hj
  have hstart : (engines 0).schedulerCursor < n := by
    have hlt := h.run.cursor_lt
    rw [h.domains 0 hn] at hlt
    omega
  refine ⟨(j + (n - (engines 0).schedulerCursor)) % n, Nat.mod_lt _ hn, ?_⟩
  rw [h.cursor _ (Nat.mod_lt _ hn), Nat.add_mod_mod,
    show (engines 0).schedulerCursor + (j + (n - (engines 0).schedulerCursor)) = j + n by omega,
    Nat.add_mod_right, Nat.mod_eq_of_lt hj]

omit [Secp256k1] [Revm] [OrderedTrie] in
/-- The domain at the cursor is the first of the rotation. -/
theorem head?_rotation {domain : DomainId × FinalizedDomain}
    (h : (readyDomains engine)[engine.schedulerCursor]? = some domain) :
    (rotation engine).head? = some domain := by
  obtain ⟨hlt, hdomain⟩ := List.getElem?_eq_some_iff.mp h
  rw [rotation, Nat.mod_eq_of_lt hlt, List.head?_rotate hlt, h]

omit [Secp256k1] [Revm] [OrderedTrie] in
/-- Engines with the same ready domains list them alike. -/
theorem readyDomains_keys {first second : SingleValidatorEngine}
    (h : ∀ domainId, domainId ∈ (readyDomains first).map (·.1) ↔
      domainId ∈ (readyDomains second).map (·.1)) :
    (readyDomains first).map (·.1) = (readyDomains second).map (·.1) := by
  have hsorted : ∀ engine : SingleValidatorEngine,
      ((readyDomains engine).map (·.1)).Pairwise fun a b => compare a b = .lt := fun engine =>
    Pairwise.map _ (fun _ _ hlt => hlt) (Std.ExtTreeMap.ordered_keys_toList.filter _)
  refine Perm.eq_of_pairwise ?_ (hsorted first) (hsorted second)
    ((perm_ext_iff_of_nodup (nodup_readyDomains first) (nodup_readyDomains second)).mpr h)
  intro a b _ _ hab hba
  have hswap : compare a b = (compare b a).swap := Std.OrientedCmp.eq_swap
  rw [hswap, hba] at hab
  cases hab

/-- **No domain is left out.**  If the same domains are ready at as many selections as there
are domains, one commit apart, and the first entry of each fits its domain, then each of them
is selected from at one of these. -/
theorem rotation_reaches_every_domain (n : Nat) (engines : Nat → SingleValidatorEngine)
    (hsegment : Segment n engines) (ready : Finset DomainId)
    (hready : ∀ i < n, ∀ domainId, domainId ∈ (readyDomains (engines i)).map (·.1) ↔
      domainId ∈ ready) (hfits : ∀ i < n, ∀ domain ∈ readyDomains (engines i), ∀ entry,
      Leads (engines i).mempool domain entry →
        entry.transaction.gasLimit.toNat ≤ domain.2.config.gasLimit.toNat)
    (hselects : ∀ i < n, ∃ selected, (engines i).selectTransactions = .ok selected)
    (domainId : DomainId) (hdomain : domainId ∈ ready) : ∃ i < n, Selects (engines i) domainId := by
  have hmem := (hready 0 hsegment.positive domainId).mpr hdomain
  obtain ⟨j, hj⟩ := List.mem_iff_getElem?.mp hmem
  have hlength : ((readyDomains (engines 0)).map (·.1)).length ≤ n := by
    rw [List.length_map, ← hsegment.domains 0 hsegment.positive, ← Std.ExtTreeMap.length_toList]
    exact List.length_filter_le _ _
  obtain ⟨hlt, _⟩ := List.getElem?_eq_some_iff.mp hj
  obtain ⟨i, hi, hcursor⟩ := hsegment.reaches (Nat.lt_of_lt_of_le hlt hlength)
  -- the domain has the same index at the selection whose cursor it is
  rw [readyDomains_keys fun id => (hready 0 hsegment.positive id).trans (hready i hi id).symm,
    List.getElem?_map, Option.map_eq_some_iff] at hj
  obtain ⟨domain, hfound, rfl⟩ := hj
  rw [← hcursor] at hfound
  have hrun := hsegment.engineRun i hi
  obtain ⟨selected, hselected⟩ := hselects i hi
  refine ⟨i, hi, (first_domain_selected_iff hrun.admitted.keyed (head?_rotation hfound)).mpr
    ⟨(selectTransactions_eq_ok_iff.mp hselected).1, fun entry hentry => ?_⟩⟩
  have hdomain := List.mem_of_getElem? hfound
  have hgas := hfits i hi domain hdomain entry hentry
  have hconfig := hrun.finalizes.configured domain.1 domain.2
    (Std.ExtTreeMap.mem_toList_iff_getElem?_eq_some.mp (List.mem_of_mem_filter hdomain))
  have hlimit := (DomainConfig.validate_eq_ok.mp hconfig).2.1.2
  exact ⟨hgas, hgas.trans (hlimit.trans (by decide))⟩

/-! ## Calls in a row -/

def callAll (calls : List Call) (engine : SingleValidatorEngine) : SingleValidatorEngine :=
  calls.foldl (fun engine call => left (call.run engine)) engine

theorem engineRun_callAll (calls : List Call) : ∀ {engine : SingleValidatorEngine},
    EngineRun engine → EngineRun (callAll calls engine) := by
  induction calls with
  | nil => exact fun h => h
  | cons call rest ih => exact fun h => ih (h.called call)

theorem idles_submitRaw (domainId : DomainId) (envelope : Bytes) (engine : SingleValidatorEngine) :
    Idles engine (left (Call.run (.submitRaw domainId envelope) engine)) := by
  refine ⟨_, rfl, ?_⟩
  have hmoved := Call.moved (.submitRaw domainId envelope) engine
  generalize Call.run (.submitRaw domainId envelope) engine = result at hmoved
  cases hmoved with
  | failed hsame =>
    obtain ⟨_, rfl⟩ := hsame
    rfl
  | submitted => rfl
  | committed hincludes => cases hincludes

end Fairness

section Sample

attribute [local instance] flatKeccak sampleTrie namingCurve payingRevm

def leafId : DomainId := Crypto.deriveDomainId 5 1 77

def leafDescriptor : DomainDescriptor :=
  ⟨leafId, 1, 0, 77, 0, "Leaf", "LEAF", 7001, 0xfef, 1, 30000000, 1000000000, 0, 0, .active⟩

def leafRegistry : GenesisAccount :=
  ⟨1, 0, [], (∅ : BTreeMap U256 U256).insert (SystemContract.descriptorSlot leafId)
    (keccak256 ((Canonical.encodeDomainDescriptor leafDescriptor).toOption.getD []))⟩

def domainOf (domainId : DomainId) (chainId : U64) (allocations : BTreeMap Address GenesisAccount) :
    Option FinalizedDomain := do
  let state ← (ExecutionState.fromGenesis allocations).toOption
  let header := firstHeader domainId 0 state.stateRoot 30000000 1000000000
  let blockHash ← (Crypto.domainHeaderHash header).toOption
  return ⟨⟨chainId, 1, 30000000, 1000000000⟩, header, blockHash, state⟩

def twoDomains : Option DevelopmentCheckpoint := do
  let start ← (sampleGenesis ∅).chainState.toOption
  let root ← domainOf 1 2048 (payer.insert CHAIN_REGISTRY_ADDRESS leafRegistry)
  let leaf ← domainOf leafId 7001 payer
  return ⟨{ start with
    height := 1
    domains := ((∅ : BTreeMap DomainId FinalizedDomain).insert 1 root).insert leafId leaf
    descriptors := (∅ : BTreeMap DomainId DomainDescriptor).insert leafId leafDescriptor },
    (sampleGenesis ∅).validatorSet, []⟩

def paymentsOf (nonce : U64) : List Call :=
  [.submitRaw 1 (paymentOn 2048 nonce 1), .submitRaw leafId (paymentOn 7001 nonce 1)]

/-- An engine with a payment for each of two domains, the block that has both, and the engine
after it. -/
def twoTurns : Option (SingleValidatorEngine × ValidatedProposal × SingleValidatorEngine) := do
  let opened ← newEngine (sampleGenesis ∅)
  let checkpoint ← twoDomains
  let first := callAll (.importCheckpoint checkpoint :: paymentsOf 0) opened
  let root ← first.finalized.domains[(1 : DomainId)]?
  let leaf ← first.finalized.domains[leafId]?
  let proposal ← (ChainMachine.execute first.finalized [⟨1, root.blockHash, [paymentOn 2048 0 1]⟩,
    ⟨leafId, leaf.blockHash, [paymentOn 7001 0 1]⟩] 1700000001 0xbee).toOption
  let (_, committed) ← returned (commitValidated proposal first)
  return (first, proposal, committed)

def bothReady (engine : SingleValidatorEngine) (height : ConsensusHeight) : Bool :=
  engine.finalized.domains.size == 2 && engine.finalized.height = height &&
  (readyDomains engine).map (·.1) = [1, leafId] &&
    engine.selectTransactions.toOption.isSome && engine.pending.isNone &&
    engine.mempool.entries.toList.all fun entry => engine.finalized.domains.toList.all fun domain =>
      entry.2.transaction.gasLimit.toNat ≤ domain.2.config.gasLimit.toNat

theorem exists_twoTurns : ∃ turns, twoTurns = some turns ∧
    (bothReady turns.1 1 && bothReady (callAll (paymentsOf 1) turns.2.2) 2) = true :=
  (Option.any_eq_true _ _).mp (by decide +kernel)

theorem twoTurns_eq_some {first committed : SingleValidatorEngine} {proposal : ValidatedProposal}
    (h : twoTurns = some (first, proposal, committed)) (hidle : first.pending = none) :
    EngineRun first ∧ Round first (callAll (paymentsOf 1) committed) := by
  rw [twoTurns] at h
  obtain ⟨opened, hopened, h⟩ := Option.bind_eq_some_iff.mp h
  obtain ⟨_, hopened⟩ := newEngine_eq_some hopened
  obtain ⟨checkpoint, _, h⟩ := Option.bind_eq_some_iff.mp h
  obtain ⟨root, _, h⟩ := Option.bind_eq_some_iff.mp h
  obtain ⟨leaf, _, h⟩ := Option.bind_eq_some_iff.mp h
  obtain ⟨executed, hexecuted, h⟩ := Option.bind_eq_some_iff.mp h
  obtain ⟨⟨stats, last⟩, hcommitted, h⟩ := Option.bind_eq_some_iff.mp h
  rw [returned_eq_some] at hcommitted
  cases h
  have hopen : EngineRun opened := .opened hopened
  refine ⟨engineRun_callAll _ hopen, _, committed, .refl, .inr ⟨proposal.block, ?_⟩, ?_⟩
  · have hsorted : ensureBatchOrder [⟨1, root.blockHash, [paymentOn 2048 0 1]⟩,
        ⟨leafId, leaf.blockHash, [paymentOn 7001 0 1]⟩] = .ok () := by
      have hlt : (1 : DomainId) < leafId := by decide +kernel
      rw [ensureBatchOrder, batchesSorted, decide_eq_true hlt]
      rfl
    have hvalid := validateProposal_of_execute hsorted (toOption_eq_some.mp hexecuted)
    rw [Call.run, run_bind, run_importBlock hidle hvalid, hcommitted]
    rfl
  · exact .tail (.tail .refl (idles_submitRaw _ _ _)) (idles_submitRaw _ _ _)

/-- Two domains that are both ready before and after a commit have their turns. -/
theorem rotation_reaches_every_domain_two : ∃ engines, Segment 2 engines ∧
    (engines 0).finalized.height = 1 ∧ (engines 1).finalized.height = 2 ∧
    ∀ domainId ∈ ({1, leafId} : Finset DomainId), ∃ i < 2, Selects (engines i) domainId := by
  obtain ⟨⟨first, proposal, committed⟩, hturns, hready⟩ := exists_twoTurns
  simp only [bothReady, Bool.and_eq_true, beq_iff_eq, decide_eq_true_eq, all_eq_true,
    Option.isNone_iff_eq_none] at hready
  obtain ⟨⟨⟨⟨⟨⟨hsize, hheight⟩, hdomains⟩, hselects⟩, hidle⟩, hfits⟩,
    ⟨⟨⟨⟨hsize', hheight'⟩, hdomains'⟩, hselects'⟩, _⟩, hfits'⟩ := hready
  obtain ⟨hrun, hround⟩ := twoTurns_eq_some hturns hidle
  let engines : Nat → SingleValidatorEngine :=
    Nat.rec first fun _ _ => callAll (paymentsOf 1) committed
  have hsegment : Segment 2 engines := by
    refine ⟨Nat.two_pos, hrun, fun i hi => ?_, fun i _ => ?_, by decide⟩
    · obtain rfl : i = 0 := by omega
      exact hround
    · cases i <;> assumption
  refine ⟨engines, hsegment, hheight, hheight', rotation_reaches_every_domain 2 engines hsegment
    {1, leafId} (fun i _ domainId => ?_) (fun i _ domain hdomain entry hleads => ?_)
    fun i _ => ?_⟩
  · have hkeys : (readyDomains (engines i)).map (·.1) = [1, leafId] := by cases i <;> assumption
    rw [hkeys, Finset.mem_insert, Finset.mem_singleton, mem_cons, mem_singleton]
  · obtain ⟨sender, hheads, _⟩ := hleads
    have hentry := Std.ExtTreeMap.mem_toList_iff_getElem?_eq_some.mpr hheads.2
    cases i with
    | zero => exact hfits _ hentry domain (mem_of_mem_filter hdomain)
    | succ i => exact hfits' _ hentry domain (mem_of_mem_filter hdomain)
  · have hsome : (engines i).selectTransactions.toOption.isSome = true := by
      cases i <;> assumption
    obtain ⟨selected, hselected⟩ := Option.isSome_iff_exists.mp hsome
    exact ⟨selected, toOption_eq_some.mp hselected⟩

end Sample

end SingleValidatorEngine

end Arbor
