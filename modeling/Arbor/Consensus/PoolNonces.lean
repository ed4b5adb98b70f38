import Arbor.Chain.Frame
import Arbor.Consensus.Moves
import Arbor.Evm.Nonces
import Arbor.Mempool.Ready

/-!
# Stale entries of the pool

After a commit the pool drops the entries whose hashes the block includes, and no others.  A
nonce that an account without code passes was used by a transaction of the block, so nothing
stale is left as long as the entry with that nonce, if there is one, is that very transaction
(`Clears`).  A checkpoint passes nonces without showing their transactions.
-/

namespace Arbor

open Result Device Consensus Mempool ChainMachine

namespace SingleValidatorEngine

theorem registerDomains_entries {domains : List (DomainId × U64)} {pool next : Mempool}
    (h : registerDomains pool domains = .ok next) : next.entries = pool.entries := by
  refine registerDomains_invariant (I := fun next => next.entries = pool.entries) ?_ rfl h
  intro middle next domainId chainId hmiddle h
  rw [← hmiddle]
  rcases registerDomain_eq_ok h with rfl | ⟨_, _, rfl⟩ <;> rfl

/-! ## Nonces a block passes -/

section Blocks

variable [Keccak] [Secp256k1] [Revm] [OrderedTrie] [LawfulRevm] [CodedRevm]

/-- **Used nonces.**  A nonce that an account without code passes in a block was used by a
transaction of the block. -/
theorem nonces_used {parent : FinalizedChainState} {proposal : ValidatedProposal}
    (h : Proposes parent proposal) {domainId : DomainId} {before after : FinalizedDomain}
    {account : Address} {nonce : U64}
    (hspares : ∀ input, Runs parent proposal.block domainId input →
      ExecutionState.Spares account input)
    (hbefore : parent.domains[domainId]? = some before)
    (hcode : before.state.readCodeHash account = KECCAK_EMPTY)
    (hafter : proposal.resultingState.domains[domainId]? = some after)
    (hle : before.state.readNonce account ≤ nonce) (hlt : nonce < after.state.readNonce account) :
    ∃ batch ∈ proposal.block.batches, batch.domainId = domainId ∧ ∃ envelope ∈ batch.transactions,
      ∃ transaction transactionHash, Executor.Decoded before.config.chainId envelope transaction
          account transactionHash ∧ transaction.nonce = nonce ∧
        transactionHash ∈ includedHashes proposal := by
  obtain ⟨hsorted, hexecuted⟩ := h.executes_block
  have hplaced := execute_placed (nodup_of_batchesSorted hsorted) hexecuted
  by_cases hbatch : domainId ∈ proposal.block.batches.map (·.domainId)
  · obtain ⟨batch, hmem, rfl⟩ := List.mem_map.mp hbatch
    obtain ⟨finalized, header, execution, next, hfound, hadvance, hincluded⟩ :=
      execute_included hexecuted batch hmem
    obtain ⟨finalized', header', execution', next', hfound', hadvance', hnext⟩ :=
      hplaced.advanced batch hmem
    rw [hbefore, Option.some.injEq] at hfound hfound'
    subst hfound hfound'
    rw [hadvance, Except.ok.injEq, Prod.mk.injEq, Prod.mk.injEq] at hadvance'
    rw [hafter, Option.some.injEq, ← hadvance'.2.2] at hnext
    obtain ⟨hstate, spec, hspec, hran⟩ := advance_executed hadvance
    obtain ⟨_, progress, hprogress, hended, hreported, _⟩ :=
      Executor.executeBatchWithRegistry_eq_ok hran
    rw [hnext, hstate, hended] at hlt
    obtain ⟨envelope, henvelope, transaction, hash, hdecoded, hnonce, hused⟩ :=
      Executor.executeEnvelopes_used hprogress
        (fun input hruns => hspares input ⟨batch, hmem, rfl, before, spec, hbefore, hspec, hruns⟩)
        hcode nonce hle hlt
    refine ⟨batch, hmem, rfl, envelope, henvelope, transaction, hash, hdecoded, hnonce, ?_⟩
    obtain ⟨executed, hexecuted, rfl⟩ := List.mem_map.mp hused
    rw [← hreported] at hexecuted
    rw [includedHashes, Std.ExtTreeSet.mem_insertMany_list]
    refine .inr (List.contains_iff_mem.mpr (List.mem_map.mpr ⟨executed, ?_, rfl⟩))
    exact List.mem_flatMap.mpr ⟨execution, hincluded, hexecuted⟩
  · -- a domain without a batch passes none
    rw [hplaced.idle domainId (OrdMap.mem_iff_exists.mpr ⟨before, hbefore⟩) hbatch, hbefore,
      Option.some.injEq] at hafter
    rw [← hafter, BitVec.lt_def] at hlt
    rw [BitVec.le_def] at hle
    omega

end Blocks

/-! ## Runs -/

/-- The block a call commits, if it gets that far. -/
def Call.block (engine : SingleValidatorEngine) : Call → Option ConsensusBlock
  | .commitProposal _ => engine.pending.map (·.proposal.block)
  | .importBlock block => some block
  | _ => none

section Runs

variable [Keccak] {entry : PoolEntry} {engine : SingleValidatorEngine}

/-- An entry whose nonce its sender has passed. -/
def Stale (chain : FinalizedChainState) (entry : PoolEntry) : Prop :=
  ∃ domain, chain.domains[entry.domainId]? = some domain ∧
    entry.transaction.nonce < domain.state.readNonce entry.sender

/-- An entry in a finalized domain, with a nonce its sender has not used. -/
def Current (chain : FinalizedChainState) (entry : PoolEntry) : Prop :=
  ∃ domain, chain.domains[entry.domainId]? = some domain ∧
    domain.state.readNonce entry.sender ≤ entry.transaction.nonce

variable {chain : FinalizedChainState}

theorem Current.not_stale (h : Current chain entry) : ¬Stale chain entry := by
  rintro ⟨domain, hdomain, hlt⟩
  obtain ⟨found, hfound, hle⟩ := h
  rw [hdomain, Option.some.injEq] at hfound
  exact BitVec.not_lt.mpr (hfound ▸ hle) hlt

/-- What a tidy run keeps, for the entries of the pool and those set aside. -/
structure Fresh (engine : SingleValidatorEngine) : Prop where
  pool : ∀ (key : PoolKey) (entry : PoolEntry), engine.mempool.entries[key]? = some entry →
    Current engine.finalized entry
  reserved : ∀ pending, engine.pending = some pending → ∀ entry ∈ pending.reserved,
    Current engine.finalized entry

variable [Secp256k1]

/-- An admitted entry is current. -/
theorem current_admitted {pool : Mempool} {domainId : DomainId}
    {envelope : Bytes} {transaction : Eip1559Transaction} {sender : Address}
    {domain : FinalizedDomain} {account : Option Account}
    (hdecode : Ethereum.decodeEip1559 envelope = .ok transaction)
    (hsender : Crypto.recoverEip1559Sender transaction = .ok sender)
    (hdomain : chain.domains[domainId]? = some domain)
    (haccount : domain.state.account sender = .ok account)
    (h : pool.admitted domainId envelope ((account.map (·.nonce)).getD 0) = .ok entry) :
    Current chain entry := by
  obtain ⟨rfl, hrouted, hdecoded, hnonce, _⟩ := admitted_eq_ok h
  rw [hdecode, Except.ok.injEq] at hdecoded
  subst hdecoded
  have hsame := hrouted.recovered
  rw [hsender, Except.ok.injEq] at hsame
  subst hsame
  refine ⟨domain, hdomain, ?_⟩
  rw [ExecutionState.readNonce, ExecutionState.readAccount, haccount]
  exact hnonce

variable [Revm] [OrderedTrie]

/-- A block that leaves an entry of the pool current or includes it: a transaction of the
entry's sender with its nonce is the entry's own, the sender has no code, and the transactions
of the block spare the sender's account. -/
structure Clears (chain : FinalizedChainState) (block : ConsensusBlock) (entry : PoolEntry) :
    Prop where
  same : ∀ batch ∈ block.batches, batch.domainId = entry.domainId →
    ∀ envelope ∈ batch.transactions, ∀ transaction,
    Ethereum.decodeEip1559 envelope = .ok transaction →
    Crypto.recoverEip1559Sender transaction = .ok entry.sender →
    transaction.nonce = entry.transaction.nonce →
    Crypto.eip1559TransactionHash transaction = .ok entry.transactionHash
  codeless : ∀ domain, chain.domains[entry.domainId]? = some domain →
    domain.state.readCodeHash entry.sender = KECCAK_EMPTY
  spares : ∀ input, Runs chain block entry.domainId input →
    ExecutionState.Spares entry.sender input

/-- A call that leaves nothing stale behind: the block it commits clears the pool, and a
checkpoint comes to an empty pool. -/
structure Tidy (engine : SingleValidatorEngine) (call : Call) : Prop where
  block : ∀ block, call.block engine = some block → ∀ (key : PoolKey) (entry : PoolEntry),
    engine.mempool.entries[key]? = some entry → Clears engine.finalized block entry
  checkpoint : ∀ checkpoint, call = .importCheckpoint checkpoint → engine.mempool.entries = ∅

/-- Engines reached by tidy calls. -/
inductive TidyRun : SingleValidatorEngine → Prop
  | opened {mode : EngineMode} {policy : RetentionPolicy} {genesis : DevGenesis}
      {config : MempoolConfig} {historyRetention : DomainHistoryRetention}
      {disk disk' : Disk Column} {engine : SingleValidatorEngine} :
      openWithHistory mode policy genesis config historyRetention disk = .ok engine disk' →
      TidyRun engine
  | called {engine : SingleValidatorEngine} (call : Call) : TidyRun engine → Tidy engine call →
      TidyRun (left (call.run engine))

theorem TidyRun.engineRun (h : TidyRun engine) : EngineRun engine := by
  induction h with
  | opened h => exact .opened h
  | called call _ _ ih => exact .called call ih

theorem Opened.fresh (h : Opened engine) : Fresh engine := by
  obtain ⟨config, hregistered⟩ := h.registered
  refine ⟨fun key entry hentry => ?_, fun pending hpending => ?_⟩
  · rw [registerDomains_entries hregistered] at hentry
    cases hentry
  · rw [h.pending] at hpending
    cases hpending

variable [LawfulRevm] [CodedRevm]

/-- **A block keeps the pool fresh**: what it passes, it includes. -/
theorem current_committed {proposal : ValidatedProposal} (hproposes : Proposes chain proposal)
    (hclears : Clears chain proposal.block entry) (hcurrent : Current chain entry)
    (hleft : entry.transactionHash ∉ includedHashes proposal) :
    Current proposal.resultingState entry := by
  obtain ⟨before, hbefore, hle⟩ := hcurrent
  obtain ⟨hsorted, hexecuted⟩ := hproposes.executes_block
  obtain ⟨after, hafter⟩ := (execute_placed
    (nodup_of_batchesSorted hsorted) hexecuted).keeps
      (OrdMap.mem_iff_exists.mpr ⟨before, hbefore⟩)
  refine ⟨after, hafter, ?_⟩
  by_contra hpassed
  rw [BitVec.not_le] at hpassed
  obtain ⟨batch, hbatch, hdomain, envelope, henvelope, transaction, hash, hdecoded, hnonce,
    hused⟩ :=
    nonces_used hproposes hclears.spares hbefore (hclears.codeless before hbefore) hafter hle
      hpassed
  have hsame := hclears.same batch hbatch hdomain envelope henvelope transaction hdecoded.decodes
    hdecoded.recovers hnonce
  rw [hdecoded.hashes, Except.ok.injEq] at hsame
  exact hleft (hsame ▸ hused)

theorem Fresh.called (hfresh : Fresh engine) (hsound : Sound engine) {call : Call}
    (htidy : Tidy engine call) : Fresh (left (call.run engine)) := by
  have hmoved := call.moved engine
  generalize call.run engine = result at hmoved
  cases hmoved with
  | failed hsame =>
    obtain ⟨faults, rfl⟩ := hsame
    exact ⟨hfresh.pool, hfresh.reserved⟩
  | submitted hdecode hsender hdomain haccount hinsert =>
    refine ⟨fun key entry hentry => ?_, hfresh.reserved⟩
    rcases entry_of_inserted hinsert hentry with hold | ⟨_, hadmitted⟩
    · exact hfresh.pool key entry hold
    · exact current_admitted hdecode hsender hdomain haccount hadmitted
  | kept hashes =>
    exact ⟨fun key entry hentry => hfresh.pool key entry (entry_of_reserved hentry).1,
      hfresh.reserved⟩
  | returned hashes =>
    refine ⟨fun key entry hentry => ?_, hfresh.reserved⟩
    rcases entry_of_restored hentry with hkept | hreserved
    · exact hfresh.pool key entry (entry_of_reserved hkept).1
    · obtain ⟨key, hheld⟩ := entry_of_mem_reserved hreserved
      exact hfresh.pool key entry hheld
  | built hashes _ _ _ _ _ =>
    refine ⟨fun key entry hentry => hfresh.pool key entry (entry_of_reserved hentry).1,
      fun pending hpending entry hentry => ?_⟩
    cases hpending
    obtain ⟨key, hheld⟩ := entry_of_mem_reserved hentry
    exact hfresh.pool key entry hheld
  | abandoned hpending =>
    refine ⟨fun key entry hentry => ?_, fun pending hnone => by cases hnone⟩
    rcases entry_of_restored hentry with hkept | hreserved
    · exact hfresh.pool key entry hkept
    · exact hfresh.reserved _ hpending entry hreserved
  | @committed _ _ proposal mempool _ hincludes hregistered =>
    refine ⟨fun key entry hentry => ?_, fun pending hnone => by cases hnone⟩
    obtain ⟨hheld, hleft⟩ := entry_of_reserved hentry
    rw [registerDomains_entries hregistered] at hheld
    have hcurrent := hfresh.pool key entry hheld
    cases hincludes with
    | pending hpending =>
      exact current_committed (hsound.proposes _ hpending)
        (htidy.block _ (by rw [Call.block, hpending]; rfl) key entry hheld) hcurrent hleft
    | block _ hvalid =>
      have hclears := htidy.block _ rfl key entry hheld
      rw [← block_of_validateProposal hvalid] at hclears
      exact current_committed (.validated _ hvalid) hclears hcurrent hleft
  | @restarted _ _ _ mempool _ hidle _ hregistered =>
    refine ⟨fun key entry hentry => ?_, fun pending hnone => ?_⟩
    · change mempool.entries[key]? = some entry at hentry
      rw [registerDomains_entries hregistered, htidy.checkpoint _ rfl] at hentry
      cases hentry
    · rw [hidle] at hnone
      cases hnone

/-- **No stale entries.**  In a tidy run no entry of the pool has a nonce that its sender has
passed in the finalized state. -/
theorem no_stale_entries (engine : SingleValidatorEngine) (hrun : TidyRun engine) (key : PoolKey)
    (entry : PoolEntry)
    (hentry : engine.mempool.entries[key]? = some entry) : ¬Stale engine.finalized entry := by
  suffices hfresh : Fresh engine from (hfresh.pool key entry hentry).not_stale
  clear hentry
  induction hrun with
  | opened h => exact (opened_of_open h).fresh
  | called call hrun htidy ih => exact ih.called hrun.engineRun.sound htidy

end Runs

/-! ## Two runs -/

section Sample

attribute [local instance] scatteringKeccak sampleTrie namingCurve payingRevm

theorem coded_payingRevm : CodedRevm where
  spares := by
    intro input script account h _ _
    change (if Payable input then _ else _) = _ at h
    split at h
    · cases h
      trivial
    · cases h

theorem scatteredKey_inj {a b : Address} (h : Trie.secureAccountKey a = Trie.secureAccountKey b) :
    a = b := by
  have hkey (x : Address) : Trie.secureAccountKey x = x.setWidth 256 * SCATTER := by
    have hlength : (toBytes x).length = 20 ∨ (toBytes x).length = 32 := .inl (length_toBytes x)
    have hscatter : scatteringKeccak.keccak256 (toBytes x) = ofBytes 256 (toBytes x) * SCATTER :=
      if_pos hlength
    rw [Trie.secureAccountKey, hscatter, ofBytes, beNat_toBytes (by decide), BitVec.ofNat_toNat]
  rw [hkey, hkey] at h
  have hsame := congrArg BitVec.toNat (scatter_injective h)
  rw [BitVec.toNat_setWidth_of_le (by decide), BitVec.toNat_setWidth_of_le (by decide)] at hsame
  exact BitVec.eq_of_toNat_eq hsame

theorem spares_payingRevm (input : RevmInput) : ExecutionState.Spares 0xfef input where
  uncreated := by
    intro script h
    change (if Payable input then _ else _) = _ at h
    split at h
    · cases h
      refine ⟨?_, trivial⟩
      unfold topInvoke
      cases input.transaction.recipient with
      | some recipient => trivial
      | none =>
        change (0 : Address) ≠ 0xfef
        decide
    · cases h
  apart _ _ _ _ hkey := scatteredKey_inj hkey

def paying : Option (SingleValidatorEngine × ValidatedProposal) := do
  let engine ← newEngine fundedGenesis
  let proposal ← (paidBlock engine.finalized [paymentOf 0 1]).toOption
  return (engine, proposal)

def submitAndCommit (engine : SingleValidatorEngine) (proposal : ValidatedProposal)
    (envelope : Bytes) : Option (SingleValidatorEngine × SingleValidatorEngine) := do
  let (_, submitted) ← returned (Call.run (.submitRaw 1 envelope) engine)
  let (_, committed) ← returned (commitValidated proposal submitted)
  return (submitted, committed)

def allCurrent (engine : SingleValidatorEngine) : Bool :=
  engine.mempool.entries.toList.all fun entry =>
    match engine.finalized.domains[entry.2.domainId]? with
    | some domain => domain.state.readNonce entry.2.sender ≤ entry.2.transaction.nonce
    | none => true

def apart (pool : Mempool) (block : ConsensusBlock) : Bool :=
  pool.entries.toList.all fun entry => entry.2.sender = 0xfef && block.batches.all fun batch =>
    batch.transactions.all fun envelope =>
      match Ethereum.decodeEip1559 envelope with
      | .ok transaction => transaction.nonce ≠ entry.2.transaction.nonce
      | .error _ => true

def keyCodeless (chain : FinalizedChainState) : Bool :=
  chain.domains.toList.all fun domain => domain.2.state.readCodeHash 0xfef = KECCAK_EMPTY

def payingChecks : Bool :=
  match paying with
  | none => false
  | some (engine, proposal) => keyCodeless engine.finalized &&
    (match submitAndCommit engine proposal (paymentOf 0 2) with
      | some (_, committed) => !allCurrent committed
      | none => false) &&
    match submitAndCommit engine proposal (paymentOf 1 1) with
      | some (submitted, committed) => apart submitted.mempool proposal.block &&
        !committed.mempool.entries.toList.isEmpty && committed.events.length == 1
      | none => false

theorem paying_checks : payingChecks = true := by decide +kernel

theorem exists_of_payingChecks (h : payingChecks = true) : ∃ engine proposal,
    paying = some (engine, proposal) ∧ keyCodeless engine.finalized = true ∧
      (∃ submitted committed, submitAndCommit engine proposal (paymentOf 0 2)
        = some (submitted, committed) ∧ allCurrent committed = false) ∧
      ∃ submitted committed, submitAndCommit engine proposal (paymentOf 1 1)
        = some (submitted, committed) ∧ apart submitted.mempool proposal.block = true ∧
          committed.mempool.entries.toList ≠ [] ∧ committed.events.length = 1 := by
  unfold payingChecks at h
  split at h
  · cases h
  rename_i engine proposal hpaying
  rw [Bool.and_eq_true, Bool.and_eq_true] at h
  obtain ⟨⟨hcode, hsame⟩, hnext⟩ := h
  refine ⟨engine, proposal, hpaying, hcode, ?_, ?_⟩
  · split at hsame
    · rename_i submitted committed hran
      exact ⟨submitted, committed, hran, by simpa using hsame⟩
    · cases hsame
  · split at hnext
    · rename_i submitted committed hran
      rw [Bool.and_eq_true, Bool.and_eq_true] at hnext
      exact ⟨submitted, committed, hran,
        hnext.1.1, by simpa using hnext.1.2, by simpa using hnext.2⟩
    · cases hnext

variable {proposal : ValidatedProposal}

theorem paying_eq_some {engine : SingleValidatorEngine}
    (h : paying = some (engine, proposal)) : TidyRun engine ∧ engine.pending = none ∧
      validateProposal engine.finalized proposal.block = .ok proposal := by
  rw [paying] at h
  obtain ⟨opened, hopened, h⟩ := Option.bind_eq_some_iff.mp h
  obtain ⟨executed, hexecuted, h⟩ := Option.bind_eq_some_iff.mp h
  obtain ⟨_, hopened⟩ := newEngine_eq_some hopened
  obtain ⟨rfl, rfl⟩ := h
  exact ⟨.opened hopened, (opened_of_open hopened).pending,
    (paidBlock_eq_ok (toOption_eq_some.mp hexecuted)).1⟩

/-- Submitting and committing are two calls of a run. -/
theorem submitAndCommit_eq_some {engine submitted committed : SingleValidatorEngine}
    {envelope : Bytes} (h : submitAndCommit engine proposal envelope = some (submitted, committed))
    (hidle : engine.pending = none)
    (hvalid : validateProposal engine.finalized proposal.block = .ok proposal) :
    Call.run (.submitRaw 1 envelope) engine = .ok () submitted ∧
      submitted.finalized = engine.finalized ∧
      Call.run (.importBlock proposal.block) submitted = .ok () committed := by
  obtain ⟨⟨_, middle⟩, hsubmitted, h⟩ := Option.bind_eq_some_iff.mp h
  obtain ⟨⟨stats, last⟩, hcommitted, h⟩ := Option.bind_eq_some_iff.mp h
  rw [returned_eq_some] at hsubmitted hcommitted
  obtain ⟨rfl, rfl⟩ := h
  have hmoved := Call.moved (.submitRaw 1 envelope) engine
  rw [hsubmitted] at hmoved
  cases hmoved with
  | @submitted _ _ _ _ _ _ _ mempool _ hdecode hsender hdomain haccount hinsert =>
    refine ⟨hsubmitted, rfl, ?_⟩
    have himported : importDevelopmentFinalizedBlock proposal.block { engine with mempool }
        = commitValidated proposal { engine with mempool } := run_importBlock hidle hvalid
    rw [Call.run, run_bind, himported, hcommitted]
    rfl
  | committed hincludes => cases hincludes

/-- A payment left in the pool although its nonce is used: the block had another one. -/
theorem replaced_payment_stays : ∃ engine call committed, ∃ (key : PoolKey) (entry : PoolEntry),
    EngineRun engine ∧ Call.Commits call ∧ Call.run call engine = .ok () committed ∧
    committed.mempool.entries[key]? = some entry ∧ Stale committed.finalized entry := by
  obtain ⟨engine, proposal, hpaying, _, ⟨submitted, committed, hran, hstale⟩, _⟩ :=
    exists_of_payingChecks paying_checks
  obtain ⟨hrun, hidle, hvalid⟩ := paying_eq_some hpaying
  obtain ⟨hsubmitted, _, hcommitted⟩ := submitAndCommit_eq_some hran hidle hvalid
  have hreached : EngineRun (left (Call.run (.submitRaw 1 (paymentOf 0 2)) engine)) :=
    .called _ hrun.engineRun
  rw [hsubmitted] at hreached
  rw [allCurrent, List.all_eq_false] at hstale
  obtain ⟨⟨key, entry⟩, hmem, hstale⟩ := hstale
  refine ⟨submitted, .importBlock proposal.block, committed, key, entry, hreached, trivial,
    hcommitted, Std.ExtTreeMap.mem_toList_iff_getElem?_eq_some.mp hmem, ?_⟩
  split at hstale
  · rename_i domain hdomain
    rw [decide_eq_true_eq, BitVec.not_le] at hstale
    exact ⟨domain, hdomain, hstale⟩
  · exact absurd rfl hstale

theorem clears_of_apart {chain : FinalizedChainState} {pool : Mempool} {block : ConsensusBlock}
    (hcode : keyCodeless chain = true) (h : apart pool block = true) {key : PoolKey}
    {entry : PoolEntry} (hentry : pool.entries[key]? = some entry) : Clears chain block entry := by
  rw [apart, List.all_eq_true] at h
  have hentries := h (key, entry) (Std.ExtTreeMap.mem_toList_iff_getElem?_eq_some.mpr hentry)
  rw [Bool.and_eq_true, List.all_eq_true] at hentries
  have hsender : entry.sender = 0xfef := of_decide_eq_true hentries.1
  refine ⟨?_, fun domain hdomain => ?_, fun input _ => hsender ▸ spares_payingRevm input⟩
  · intro batch hbatch _ envelope henvelope transaction hdecode _ hnonce
    have henvelopes := hentries.2 batch hbatch
    rw [List.all_eq_true] at henvelopes
    have hne := henvelopes envelope henvelope
    rw [hdecode] at hne
    exact absurd hnonce (of_decide_eq_true hne)
  · rw [keyCodeless, List.all_eq_true] at hcode
    rw [hsender]
    exact of_decide_eq_true
      (hcode (_, domain) (Std.ExtTreeMap.mem_toList_iff_getElem?_eq_some.mpr hdomain))

/-- The next payment of the sender stays in the pool, and is not stale. -/
theorem no_stale_entries_next_payment : ∃ engine, ∃ (key : PoolKey) (entry : PoolEntry),
    TidyRun engine ∧ engine.events.length = 1 ∧ engine.mempool.entries[key]? = some entry ∧
    ¬Stale engine.finalized entry := by
  obtain ⟨engine, proposal, hpaying, hcode, _, submitted, committed, hran, hapart, hsome, hevent⟩ :=
    exists_of_payingChecks paying_checks
  obtain ⟨hrun, hidle, hvalid⟩ := paying_eq_some hpaying
  obtain ⟨hsubmitted, hsame, hcommitted⟩ := submitAndCommit_eq_some hran hidle hvalid
  have hfirst : Tidy engine (.submitRaw 1 (paymentOf 1 1)) := by
    refine ⟨fun block hblock => ?_, fun checkpoint hcheckpoint => ?_⟩
    · cases hblock
    · cases hcheckpoint
  have hmiddle := TidyRun.called _ hrun hfirst
  rw [hsubmitted] at hmiddle
  change TidyRun submitted at hmiddle
  have hsecond : Tidy submitted (.importBlock proposal.block) := by
    refine ⟨fun block hblock key entry hentry => ?_, fun checkpoint hcheckpoint => ?_⟩
    · cases hblock
      rw [hsame]
      exact clears_of_apart hcode hapart hentry
    · cases hcheckpoint
  have hlast := TidyRun.called _ hmiddle hsecond
  rw [hcommitted] at hlast
  obtain ⟨⟨key, entry⟩, hmem⟩ := List.exists_mem_of_ne_nil _ hsome
  have hentry := Std.ExtTreeMap.mem_toList_iff_getElem?_eq_some.mp hmem
  have hlawful := lawful_plainRevm fun _ => .done true
  have hcoded := coded_payingRevm
  exact ⟨committed, key, entry, hlast, hevent, hentry,
    no_stale_entries committed hlast key entry hentry⟩

end Sample

end SingleValidatorEngine

end Arbor
