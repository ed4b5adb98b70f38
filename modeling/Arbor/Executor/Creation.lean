import Arbor.Evm.Atomicity
import Arbor.Executor.Logs
import Arbor.Executor.Preparation
import Arbor.Executor.RegistryCall

/-!
# Creations that succeed

The executor prepares a creation from calldata whose texts it normalises, the registry
compares the calldata it is called with to that of the prepared request.  On the state of a
finalized root domain a well-formed creation therefore succeeds exactly if its calldata
carries its texts in normal form (`creation_succeeds_iff`), the deposit can be paid and
unlocks at some height, and the new domain is not registered yet.
-/

namespace Arbor

open Result SystemContract List

namespace ExecutionState

section Room

theorem length_changedStorageSlots_le (change : AccountChange) :
    change.changedStorageSlots.length ≤ change.storage.size := by
  rw [AccountChange.changedStorageSlots, ← Std.ExtTreeMap.length_toList, length_map]
  exact length_filter_le _ _

variable [Keccak] {P : Set Bytes} {keys : Set B256} {state : ExecutionState}

theorem Resolvable.room_of_narrow (hash : Hashing P keys) (h : Resolvable P keys state)
    {addresses : List Address} {n : Nat} {journal : Journal}
    (hnarrow : Narrow state.database addresses n journal) (hn : n < 2 ^ 32)
    (haccounts : state.accounts.leaves.size + addresses.length < 2 ^ 32)
    (hwords : ∀ account leaves, state.account CHAIN_REGISTRY_ADDRESS = .ok (some account) →
      Trie.collectLeaves account.storageRoot state.trieNodes = .ok leaves →
      leaves.size + n < 2 ^ 32) :
    Room state journal.accounts.toList := by
  have hslots {change : Address × AccountChange} (hmem : change ∈ journal.accounts.toList) :
      change.2.changedStorageSlots.length ≤ if change.1 = CHAIN_REGISTRY_ADDRESS then n else 0 := by
    have hload : journal.load state.database change.1 = change.2 := by
      rw [Journal.load, Std.ExtTreeMap.mem_toList_iff_getElem?_eq_some.mp hmem, Option.getD_some]
    refine (length_changedStorageSlots_le change.2).trans ?_
    rw [← hload]
    split
    · rename_i hregistry
      rw [hregistry]
      exact hnarrow.words
    · rename_i hother
      rw [hnarrow.unwritten change.1 hother, Std.ExtTreeMap.size_empty]
  refine ⟨?_, fun change hmem _ _ => ?_⟩
  · have hlength : (journal.accounts.toList.map Prod.fst).length ≤ addresses.length := by
      refine (subperm_of_subset (OrdMap.nodup_keys journal.accounts)
        fun address hmem => ?_).length_le
      obtain ⟨change, hchange, rfl⟩ := mem_map.mp hmem
      exact hnarrow.listed _ (OrdMap.mem_iff_exists.mpr
        ⟨change.2, Std.ExtTreeMap.mem_toList_iff_getElem?_eq_some.mp hchange⟩)
    refine (OrdMap.sizeAfter_le _ _).trans_lt ?_
    have hfiltered := length_filter_le (fun change => Prod.snd change |>.touched)
        journal.accounts.toList
    rw [length_map] at hlength ⊢
    omega
  · refine (OrdMap.sizeAfter_le _ _).trans_lt ?_
    rw [length_map]
    refine (Nat.add_le_add_left (hslots hmem) _).trans_lt ?_
    rw [storedLeaves, readAccount]
    split
    · rw [Std.ExtTreeMap.size_empty]
      split <;> omega
    rcases h.account_cases change.1 with ⟨_, hnone⟩ | ⟨_, account, own, _, haccount, hbacked⟩
    · rw [hnone]
      change (∅ : Leaves).size + _ < _
      rw [Std.ExtTreeMap.size_empty]
      split <;> omega
    · have hcollect := hbacked.storage.collect hash
      have hsize := hbacked.storage.size
      rw [haccount]
      change ((Trie.collectLeaves account.storageRoot state.trieNodes).toOption.getD ∅).size + _ < _
      rw [hcollect]
      change own.size + _ < _
      split
      · rename_i hregistry
        exact hwords account own (hregistry ▸ haccount) hcollect
      · exact hsize

theorem read_of_open {journal : Journal} (h : Open state.database journal) {slot word : U256}
    (hword : journal.sload state.database CHAIN_REGISTRY_ADDRESS slot = .ok word) :
    (journal.load state.database CHAIN_REGISTRY_ADDRESS).read (state.storage CHAIN_REGISTRY_ADDRESS)
      slot = .ok word := by
  have hstored {value : U256}
      (hvalue : state.database.storage CHAIN_REGISTRY_ADDRESS slot = .ok value) :
      state.storage CHAIN_REGISTRY_ADDRESS slot = .ok value := mapError_eq_ok.mp hvalue
  rw [Journal.sload, h.created] at hword
  simp only [AccountChange.read, h.created]
  cases hentry : (journal.load state.database CHAIN_REGISTRY_ADDRESS).storage[slot]? with
  | none =>
    rw [hentry] at hword
    exact hstored hword
  | some entry =>
    obtain ⟨original, present⟩ := entry
    rw [hentry] at hword
    cases hword
    dsimp only
    split
    · rfl
    · rename_i hsame
      rw [not_not] at hsame
      rw [← hsame]
      exact hstored (h.originals slot original _ hentry)

end Room

end ExecutionState

namespace Executor

open ExecutionState

section Creation

variable {writes : List (U256 × U256)}

theorem overwrite_of_not_mem {slot : U256}
    (hslot : slot ∉ writes.map Prod.fst) (word : U256 → U256) :
    overwrite writes word slot = word slot := by
  induction writes generalizing word with
  | nil => rfl
  | cons write rest ih =>
    rw [map_cons, mem_cons, not_or] at hslot
    change overwrite rest (Function.update word write.1 write.2) slot = word slot
    rw [ih hslot.2, Function.update_of_ne hslot.1]

theorem overwrite_of_mem (hnodup : (writes.map Prod.fst).Nodup)
    {write : U256 × U256} (hmem : write ∈ writes) (word : U256 → U256) :
    overwrite writes word write.1 = write.2 := by
  induction writes generalizing word with
  | nil => exact absurd hmem not_mem_nil
  | cons first rest ih =>
    obtain ⟨hfirst, hrest⟩ := nodup_cons.mp hnodup
    change overwrite rest (Function.update word first.1 first.2) write.1 = write.2
    rcases mem_cons.mp hmem with rfl | hmem
    · rw [overwrite_of_not_mem hfirst, Function.update_self]
    · exact ih hrest hmem _

theorem checkedCumulativeGas_succeeds (index : Nat) {current used limit : U64}
    (h : current.toNat + used.toNat ≤ limit.toNat) :
    checkedCumulativeGas index current used limit = .ok (current + used) := by
  exact check_bind_eq_ok.mpr ⟨rejectIf_eq_ok.mpr (by omega),
    check_bind_eq_ok.mpr ⟨rejectIf_eq_ok.mpr (by omega), rfl⟩⟩

variable [Keccak] [Secp256k1] [Revm]

variable {P : Set Bytes} {keys : Set B256} {state : ExecutionState}

/-- The state of the root domain at a finalized block: it is reached by executions, the words of
the registry can be read, and every finalized domain has its descriptor there.  Loading a
persisted root does not look at storage values, so that they are words is no consequence. -/
structure FinalizedRoot (P : Set Bytes) (keys : Set B256) (context : ChainRegistryExecutionContext)
    (state : ExecutionState) : Prop where
  executed : Executed P keys state
  readable : ∀ slot, ∃ word, state.storage CHAIN_REGISTRY_ADDRESS slot = .ok word
  registered : ∀ domainId ∈ context.finalizedHeads, ∃ word, word ≠ 0 ∧
    state.storage CHAIN_REGISTRY_ADDRESS (descriptorSlot domainId) = .ok word

omit [Secp256k1] in
theorem FinalizedRoot.readableDatabase {context : ChainRegistryExecutionContext}
    (h : FinalizedRoot P keys context state) : Readable state.database := by
  intro slot
  obtain ⟨word, hword⟩ := h.readable slot
  exact ⟨word, mapError_eq_ok.mpr hword⟩

/-- The transaction as the virtual machine sees it. -/
def registryInput (spec : ProtocolSpec) (env : DomainEnv) (context : ChainRegistryExecutionContext)
    (state : ExecutionState) (transaction : Eip1559Transaction) (sender : Address)
    (prepared : Option (PreparedChainCreation × ExecutionState)) : RevmInput :=
  ⟨env, spec, transaction, sender, state.database,
    registryRuntime (some context) (prepared.map (·.1))⟩

/-- A well-formed creation: sent to the registry of the root domain, with calldata that decodes,
a sufficient deposit, a finalized parent, an unused chain ID, and enough gas and balance for the
virtual machine to run it. -/
structure WellFormed (spec : ProtocolSpec) (env : DomainEnv)
    (context : ChainRegistryExecutionContext)
    (index : Nat) (progress : Progress) (transaction : Eip1559Transaction) (sender : Address)
    (transactionHash : B256) (request : CreateChainRequest) : Prop where
  root : context.executingDomainId = context.rootDomainId
  recipient : transaction.recipient = some CHAIN_REGISTRY_ADDRESS
  decodes : decodeCreateChainCall transaction.input = .ok request
  deposit : MIN_CREATION_DEPOSIT ≤ transaction.value
  parent : request.parentDomainId ∈ context.finalizedHeads
  unused : progress.state.storage CHAIN_REGISTRY_ADDRESS (chainIdSlot request.evmChainId) = .ok 0
  environment : checkEnvironment spec env transaction = .ok ()
  gas : ∀ prepared, prepareRegistryCreation index (some context) transaction transactionHash
      = .ok prepared →
    ∃ script, Revm.script
      (registryInput spec env context progress.state transaction sender prepared)
        = .ok script ∧ script.outOfGas = false ∧
      progress.cumulativeGas.toNat + script.gasUsed.toNat ≤ env.gasLimit.toNat

/-- What a creation has to do: a receipt of status one, the seven words of the derived domain in
the registry, and one reported domain with the texts of the request. -/
structure Founds (context : ChainRegistryExecutionContext) (index : Nat)
    (transaction : Eip1559Transaction) (transactionHash : B256) (request : CreateChainRequest)
    (created : PreparedChainCreation × ExecutionState) (before after : Progress) : Prop where
  prepared : prepareRegistryCreation index (some context) transaction transactionHash
    = .ok (some created)
  receipt : ∃ receipt, after.receipts = before.receipts ++ [receipt] ∧ receipt.status = true
  domainId : created.1.descriptor.domainId
    = Crypto.deriveDomainId context.networkId request.parentDomainId transactionHash
  words : ∀ write ∈ creationStorageWrites created.1,
    after.state.storage CHAIN_REGISTRY_ADDRESS write.1 = .ok write.2
  reported : after.createdDomains = before.createdDomains ++ [⟨created.1.descriptor, created.2⟩]
  name : created.1.descriptor.name = request.name
  symbol : created.1.descriptor.symbol = request.symbol

variable {spec : ProtocolSpec} {env : DomainEnv} {context : ChainRegistryExecutionContext}
  {index : Nat} {envelope : Bytes} {progress next : Progress} {transaction : Eip1559Transaction}
  {sender : Address} {transactionHash : B256} {request : CreateChainRequest}

omit [Revm] in
theorem Decoded.decodeEnvelope (h : Decoded env.chainId envelope transaction sender transactionHash)
    (index : Nat) :
    Executor.decodeEnvelope index env.chainId envelope
      = .ok (transaction, sender, transactionHash) :=
  bind_eq_ok.mpr ⟨transaction, mapError_eq_ok.mpr h.decodes, check_bind_eq_ok.mpr
    ⟨rejectIf_eq_ok.mpr (not_not.mpr h.routed),
      bind_eq_ok.mpr ⟨sender, mapError_eq_ok.mpr h.recovers,
      bind_eq_ok.mpr ⟨transactionHash, mapError_eq_ok.mpr h.hashes, rfl⟩⟩⟩⟩

theorem receipt_of_executeEnvelope {registry : Option ChainRegistryExecutionContext}
    {prepared : Option (PreparedChainCreation × ExecutionState)}
    (h : executeEnvelope spec env registry index envelope progress = .ok next)
    (hdecoded : decodeEnvelope index env.chainId envelope
      = .ok (transaction, sender, transactionHash))
    (hprepared : prepareRegistryCreation index registry transaction transactionHash
      = .ok prepared) :
    ∃ outcome receipt, runTransaction progress.state spec env transaction sender
        (registryRuntime registry (prepared.map (·.1))) = .ok outcome ∧
      next.receipts = progress.receipts ++ [receipt] ∧ receipt.status = outcome.success := by
  obtain ⟨found, hfound, h⟩ := bind_eq_ok.mp h
  rw [hdecoded] at hfound
  cases hfound
  obtain ⟨ready, hready, h⟩ := bind_eq_ok.mp h
  rw [hprepared] at hready
  cases hready
  obtain ⟨⟨result, state⟩, hexecuted, h⟩ := bind_eq_ok.mp h
  obtain ⟨cumulativeGas, _, h⟩ := bind_eq_ok.mp h
  obtain ⟨encoded, _, h⟩ := bind_eq_ok.mp h
  obtain ⟨created, _, h⟩ := bind_eq_ok.mp h
  obtain ⟨outcome, hran, hexecuted⟩ := bind_eq_ok.mp (mapError_eq_ok.mp hexecuted)
  obtain ⟨applied, _, hexecuted⟩ := bind_eq_ok.mp hexecuted
  cases hexecuted
  cases h
  exact ⟨outcome, _, mapError_eq_ok.mp hran, rfl, rfl⟩

/-! ## What the registry is asked -/

omit [Secp256k1] [Revm] in
/-- The words a transaction starts from. -/
theorem registryWord_of_storage {slot word : U256}
    (h : state.storage CHAIN_REGISTRY_ADDRESS slot = .ok word) :
    registryWord state.database Journal.empty slot = word :=
  (narrow_empty []).word_eq (mapError_eq_ok.mpr h)

variable {created : PreparedChainCreation × ExecutionState} {joint : B256}

omit [Secp256k1] in
theorem WellFormed.creationInput
    (h : WellFormed spec env context index progress transaction sender transactionHash request)
    (hprepares : Preparation (some context) transaction transactionHash created context request
      joint)
    (hrequest : created.1.request = request) :
    CreationInput (registryInput spec env context progress.state transaction sender (some created))
      ⟨context.rootDomainId, context.executingDomainId, context.creationHeight,
        context.governanceAddress, some created.1⟩ created.1 := by
  obtain ⟨_, hfrom⟩ := prepareChainCreation_eq_ok hprepares.prepares
  obtain ⟨name, symbol, hcarries⟩ := carries_of_decode h.decodes
  obtain ⟨bytes, hbytes, _⟩ := encode_of_decode h.decodes
  refine ⟨h.recipient, rfl, h.root, rfl, ?_, ⟨bytes, hrequest ▸ hbytes⟩, ?_, fun hzero => ?_⟩
  · refine isPrefixOf_iff_prefix.mpr ?_
    change createChainSelector <+: transaction.input
    rw [hcarries.layout]
    exact prefix_append _ _
  · rw [hfrom.descriptor]
    rfl
  · have hdeposit := h.deposit
    change transaction.value = 0 at hzero
    rw [hzero] at hdeposit
    exact absurd hdeposit (by decide)

omit [Secp256k1] in
/-- **When the registry accepts** a well-formed creation. -/
theorem WellFormed.accepts_iff (hstate : FinalizedRoot P keys context progress.state)
    (h : WellFormed spec env context index progress transaction sender transactionHash request)
    (hprepares : Preparation (some context) transaction transactionHash created context request
      joint) (hrequest : created.1.request = request) :
    Accepts (registryInput spec env context progress.state transaction sender (some created))
        created.1 ↔
      carriedTexts transaction.input = some (utf8Bytes request.name, utf8Bytes request.symbol) ∧
        (sender = CHAIN_REGISTRY_ADDRESS ∨
          (progress.state.readBalance CHAIN_REGISTRY_ADDRESS).toNat + transaction.value.toNat
            < 2 ^ 256) ∧
        progress.state.storage CHAIN_REGISTRY_ADDRESS (descriptorSlot
          (Crypto.deriveDomainId context.networkId request.parentDomainId transactionHash))
            = .ok 0 := by
  obtain ⟨_, hfrom⟩ := prepareChainCreation_eq_ok hprepares.prepares
  obtain ⟨bytes, hbytes, htexts⟩ := encode_of_decode h.decodes
  obtain ⟨parent, hknown, hparent⟩ := hstate.registered _ h.parent
  obtain ⟨domain, hdomain⟩ := hstate.readable (descriptorSlot
    (Crypto.deriveDomainId context.networkId request.parentDomainId transactionHash))
  have hdescriptor := hfrom.descriptor
  rw [hrequest] at hdescriptor
  have hadmits : Admits (registryWord progress.state.database Journal.empty) created.1 ↔
      progress.state.storage CHAIN_REGISTRY_ADDRESS (descriptorSlot
        (Crypto.deriveDomainId context.networkId request.parentDomainId transactionHash))
        = .ok 0 := by
    rw [hdomain]
    constructor
    · intro hadmits
      have hfresh := hadmits.fresh
      rw [hdescriptor] at hfresh
      exact congrArg Except.ok ((registryWord_of_storage hdomain).symm.trans hfresh)
    · intro hfresh
      refine ⟨?_, ?_, ?_⟩ <;> rw [hdescriptor]
      · rw [← registryWord_of_storage hparent] at hknown
        exact hknown
      · exact (registryWord_of_storage hdomain).trans (Except.ok.inj hfresh)
      · exact registryWord_of_storage h.unused
  constructor
  · intro haccepts
    have hcalldata := haccepts.calldata
    rw [hrequest, hbytes] at hcalldata
    refine ⟨htexts.mp (Except.ok.inj hcalldata), ?_, hadmits.mp haccepts.admits⟩
    rw [← balance_empty]
    exact haccepts.payable
  · rintro ⟨hnormal, hpayable, hfresh⟩
    rw [← balance_empty] at hpayable
    refine ⟨?_, hadmits.mpr hfresh, hpayable⟩
    rw [hrequest, hbytes, htexts.mpr hnormal]
    rfl

/-! ## The envelope -/

variable {prepared : PreparedChainCreation}

omit [Secp256k1] [Revm] in
theorem nodup_creationStorageWrites
    (hapart : SlotsApart {prepared.descriptor.domainId} {prepared.descriptor.evmChainId}) :
    ((creationStorageWrites prepared).map Prod.fst).Nodup := by
  have hslots : ((creationSlots prepared).map Prod.fst).Nodup := by
    simp [creationSlots]
  have hwithin : ∀ slot ∈ (creationSlots prepared).map Prod.fst,
      RegistrySlot.Within {prepared.descriptor.domainId} {prepared.descriptor.evmChainId} slot := by
    simp [creationSlots, RegistrySlot.Within]
  change (((creationSlots prepared).map Prod.fst).map RegistrySlot.word).Nodup
  exact hslots.map_on fun a ha b hb hsame =>
    (hapart.word_inj (hwithin a ha) (hwithin b hb)).mp hsame

omit [Secp256k1] [Revm] in
/-- The registry is among the accounts that a creation changes. -/
theorem registry_changed {input : RevmInput} {journal : Journal}
    (hdatabase : input.database = state.database) (h : CreationJournal input prepared journal) :
    journal.accounts[CHAIN_REGISTRY_ADDRESS]?
      = some (journal.load state.database CHAIN_REGISTRY_ADDRESS) := by
  have htouched := h.opened.touched
  rw [hdatabase, Journal.load] at htouched
  rw [Journal.load]
  cases hentry : journal.accounts[CHAIN_REGISTRY_ADDRESS]? with
  | some account => rfl
  | none =>
    rw [hentry, stored_database] at htouched
    cases htouched

omit [Secp256k1] [Revm] in
theorem storage_of_creationJournal {input : RevmInput} {after : ExecutionState} {journal : Journal}
    (hdatabase : input.database = state.database)
    (hapart : SlotsApart {prepared.descriptor.domainId} {prepared.descriptor.evmChainId})
    (hjournal : CreationJournal input prepared journal) (hreadable : Readable state.database)
    (hplay : ∀ write ∈ creationStorageWrites prepared, toBytes write.1 ∈ P)
    (hreads : ReadsAs P state after CHAIN_REGISTRY_ADDRESS
      journal.accounts[CHAIN_REGISTRY_ADDRESS]?) :
    ∀ write ∈ creationStorageWrites prepared,
      after.storage CHAIN_REGISTRY_ADDRESS write.1 = .ok write.2 := by
  intro write hwrite
  rw [registry_changed hdatabase hjournal] at hreads
  obtain ⟨hopened, hword, hfunded, _, _⟩ := hjournal
  rw [hdatabase] at hopened hword hfunded
  cases hreads with
  | same huntouched =>
    exact absurd ((huntouched _ rfl).symm.trans hopened.touched) Bool.false_ne_true
  | removed _ hgone =>
    rcases hgone with hdestroyed | ⟨_, hempty, _⟩
    · exact absurd (hopened.selfdestructed.symm.trans hdestroyed) Bool.false_ne_true
    · exact absurd hempty hfunded
  | updated root _ _ _ _ hwords =>
    rw [hwords _ (hplay write hwrite)]
    refine read_of_open hopened ?_
    rw [hopened.sload hreadable, hword,
      overwrite_of_mem (nodup_creationStorageWrites hapart) hwrite]

omit [Keccak] [Secp256k1] [Revm] in
theorem spec_of_checkEnvironment (h : checkEnvironment spec env transaction = .ok ()) :
    spec = .V1 := by
  obtain ⟨_, h⟩ := check_bind_eq_ok.mp h
  obtain ⟨resolved, hresolved, h⟩ := bind_eq_ok.mp h
  obtain ⟨hsame, _⟩ := check_bind_eq_ok.mp h
  rw [rejectIf_eq_ok, not_not] at hsame
  unfold ProtocolSpec.resolve at hresolved
  split at hresolved
  · cases hresolved
    exact hsame.symm
  · cases hresolved

theorem executeEnvelope_creation (hash : Hashing P keys)
    (hstate : FinalizedRoot P keys context progress.state)
    (hdecoded : Decoded env.chainId envelope transaction sender transactionHash)
    (h : WellFormed spec env context index progress transaction sender transactionHash request)
    (hprepared : prepareRegistryCreation index (some context) transaction transactionHash = .ok
      (some created))
    (hprepares : Preparation (some context) transaction transactionHash created context request
      joint) (hrequest : created.1.request = request) {outcome : Transacted}
    (hran : transact (registryInput spec env context progress.state transaction sender (some
      created)) = .ok outcome) (hsuccess : outcome.success = true)
    (hgas : progress.cumulativeGas.toNat + outcome.gasUsed.toNat ≤ env.gasLimit.toNat)
    (hjournal : CreationJournal (registryInput spec env context progress.state transaction sender
      (some created)) created.1 outcome.journal)
    (hapart : SlotsApart {created.1.descriptor.domainId} {created.1.descriptor.evmChainId})
    (hplay : ∀ slot ∈ slotsOf [created.1.descriptor.domainId] [created.1.descriptor.evmChainId],
      toBytes slot.word ∈ P)
    (hconfined : runTransaction progress.state spec env transaction sender (registryRuntime (some
      context) (some created.1)) = .ok outcome → Confined P keys progress.state
      outcome.journal.accounts.toList)
    (haccounts : progress.state.accounts.leaves.size + 3 < 2 ^ 32)
    (hwords : ∀ account leaves, progress.state.account CHAIN_REGISTRY_ADDRESS = .ok (some account)
      → Trie.collectLeaves account.storageRoot progress.state.trieNodes = .ok leaves → leaves.size
      + 7 < 2 ^ 32) :
    ∃ next, executeEnvelope spec env (some context) index envelope progress = .ok next ∧
      Founds context index transaction transactionHash request created progress next := by
  have hresolvable := hstate.executed.obtained.resolvable hash
  obtain ⟨log, hlogs, htopics, hdata⟩ := hjournal.logged
  have hrun : runTransaction progress.state spec env transaction sender
      (registryRuntime (some context) (some created.1)) = .ok outcome := by
    refine check_bind_eq_ok.mpr ⟨h.environment, bind_eq_ok.mpr ⟨outcome, mapError_eq_ok.mpr hran,
      check_bind_eq_ok.mpr ⟨rejectIf_eq_ok.mpr ?_, rfl⟩⟩⟩
    rw [spec_of_checkEnvironment h.environment, hlogs, length_singleton]
    decide
  obtain ⟨after, applying, happlied, hafter, hchanges, hleaves⟩ :=
    hresolvable.applyChanges_succeeds hash (hconfined hrun) (paired_of_runTransaction hrun)
      ((hresolvable.sized_iff_room hash (hconfined hrun) (paired_of_runTransaction hrun)).mpr
        (hresolvable.room_of_narrow hash hjournal.narrow (by decide) haccounts hwords))
  have hregistry : toBytes CHAIN_REGISTRY_ADDRESS ∈ P :=
    (hconfined hrun).addresses (CHAIN_REGISTRY_ADDRESS, _)
      (Std.ExtTreeMap.mem_toList_iff_getElem?_eq_some.mpr (registry_changed rfl hjournal))
  have hwrites : ∀ write ∈ creationStorageWrites created.1, toBytes write.1 ∈ P := by
    intro write hwrite
    have hfirst : write.1 ∈ ((creationSlots created.1).map Prod.fst).map RegistrySlot.word :=
      mem_map_of_mem (f := Prod.fst) hwrite
    obtain ⟨slot, hslot, hword⟩ := mem_map.mp hfirst
    rw [← hword]
    refine hplay slot ?_
    simp only [creationSlots, map_cons, map_nil, mem_cons, not_mem_nil, or_false] at hslot
    rcases hslot with rfl | rfl | rfl | rfl | rfl | rfl | rfl <;> simp [slotsOf]
  have hreads := hresolvable.readsAs hash (hconfined hrun) hafter hchanges hleaves hregistry
  have hstored := storage_of_creationJournal rfl hapart hjournal hstate.readableDatabase hwrites
    hreads
  have hexecuted : executeTransactionWithSystem progress.state spec env transaction sender
      (registryRuntime (some context) (some created.1)) = .ok (⟨outcome.success, outcome.gasUsed,
        outcome.journal.logs, outcome.output, outcome.createdAddress, createdDomain transaction
          outcome.success (registryRuntime (some context) (some created.1))⟩, after) :=
    bind_eq_ok.mpr ⟨outcome, mapError_eq_ok.mpr hrun, bind_eq_ok.mpr ⟨after, happlied, rfl⟩⟩
  have hcreated : createdDomain transaction outcome.success
      (registryRuntime (some context) (some created.1)) = some created.1.descriptor := by
    rw [createdDomain, if_pos
      ⟨hsuccess, h.recipient, (h.creationInput hprepares hrequest).selector⟩]
    rfl
  obtain ⟨bytes, hbytes⟩ := @Ethereum.encodeReceipt_of_size ⟨outcome.success,
    progress.cumulativeGas + outcome.gasUsed, logsBloom outcome.journal.logs, outcome.journal.logs⟩
    (by simp [hlogs, MAX_LOGS]) (by simpa [hlogs] using htopics)
    (by simp [hlogs, hdata, MAX_LOG_DATA_BYTES])
    (by simp [hlogs, logDataBytes, hdata, MAX_LOG_DATA_BYTES])
  obtain ⟨next, hnext, hnextState, hreceipts, hdomains⟩ := executeEnvelope_of_receipt after
    (hdecoded.decodeEnvelope index) hprepared hexecuted
    (checkedCumulativeGas_succeeds index hgas) hbytes (by rw [hcreated]; rfl)
  obtain ⟨_, hfrom⟩ := prepareChainCreation_eq_ok hprepares.prepares
  refine ⟨next, hnext, hprepared, ⟨_, hreceipts, hsuccess⟩, ?_, ?_, hdomains, ?_, ?_⟩
  · rw [hfrom.descriptor]
    rfl
  · rw [hnextState]
    exact hstored
  · rw [hfrom.descriptor, hrequest]
    rfl
  · rw [hfrom.descriptor, hrequest]
    rfl

/-- **Well-formed creations.**  On the state of a finalized root domain, with room in its tries,
a well-formed creation succeeds exactly if its calldata carries its texts in normal form, the
deposit unlocks at some height and fits into the registry's balance, and the derived domain is
not registered. -/
theorem creation_succeeds_iff [LawfulRevm] {P : Set Bytes} {keys : Set B256} (hash : Hashing P keys)
    (hstate : FinalizedRoot P keys context progress.state)
    (hdecoded : Decoded env.chainId envelope transaction sender transactionHash)
    (h : WellFormed spec env context index progress transaction sender transactionHash request)
    (haccounts : progress.state.accounts.leaves.size + 3 < 2 ^ 32)
    (hwords : ∀ account leaves, progress.state.account CHAIN_REGISTRY_ADDRESS = .ok (some account) →
      Trie.collectLeaves account.storageRoot progress.state.trieNodes = .ok leaves →
      leaves.size + 7 < 2 ^ 32)
    (hconfined : ∀ prepared outcome, prepareRegistryCreation index (some context) transaction
      transactionHash = .ok prepared → runTransaction progress.state spec env transaction sender
      (registryRuntime (some context) (prepared.map (·.1))) = .ok outcome →
      Confined P keys progress.state outcome.journal.accounts.toList) (hapart : SlotsApart
      {Crypto.deriveDomainId context.networkId request.parentDomainId transactionHash}
      {request.evmChainId}) (hplay : ∀ slot ∈ slotsOf [Crypto.deriveDomainId context.networkId
        request.parentDomainId transactionHash] [request.evmChainId], toBytes slot.word ∈ P) :
    (∃ next created, executeEnvelope spec env (some context) index envelope progress = .ok next ∧
        Founds context index transaction transactionHash request created progress next) ↔
      carriedTexts transaction.input = some (utf8Bytes request.name, utf8Bytes request.symbol) ∧
        context.creationHeight.toNat + CREATION_DEPOSIT_LOCK_BLOCKS < 2 ^ 64 ∧
        (sender = CHAIN_REGISTRY_ADDRESS ∨
          (progress.state.readBalance CHAIN_REGISTRY_ADDRESS).toNat + transaction.value.toNat
            < 2 ^ 256) ∧
        progress.state.storage CHAIN_REGISTRY_ADDRESS (descriptorSlot
          (Crypto.deriveDomainId context.networkId request.parentDomainId transactionHash))
            = .ok 0 := by
  obtain ⟨joint, hjoint⟩ := OrdMap.mem_iff_exists.mp h.parent
  rcases prepareRegistryCreation_cases index transactionHash h.root h.recipient h.decodes hjoint
    h.deposit with
    ⟨hlate, hnone⟩ | ⟨hheight, created, hprepared, hrequest, hprepares⟩
  · refine iff_of_false ?_ fun hall => absurd hall.2.1 (Nat.not_lt_of_le hlate)
    rintro ⟨next, created, _, hfounds⟩
    have hsome := hfounds.prepared
    rw [hnone] at hsome
    cases hsome
  · obtain ⟨script, hscript, hnative, hfits⟩ := h.gas _ hprepared
    have hinput := h.creationInput hprepares hrequest
    have haccepts := h.accepts_iff hstate hprepares hrequest
    obtain ⟨outcome, hran, hused, hsuccess, hjournal⟩ :=
      transact_creation hstate.readableDatabase hinput hscript hnative
    constructor
    · rintro ⟨next, _, hnext, hfounds⟩
      obtain ⟨run, receipt, hrun, hreceipts, hstatus⟩ :=
        receipt_of_executeEnvelope hnext (hdecoded.decodeEnvelope index) hprepared
      obtain ⟨found, hfound, htrue⟩ := hfounds.receipt
      rw [hreceipts, append_cancel_left_eq, cons.injEq] at hfound
      have hsame := runTransaction_eq_ok hrun
      rw [show (⟨env, spec, transaction, sender, progress.state.database, _⟩ : RevmInput)
        = registryInput spec env context progress.state transaction sender (some created) from rfl,
        hran] at hsame
      cases hsame
      rw [← hfound.1, hstatus] at htrue
      obtain ⟨htexts, hpayable, hfresh⟩ := haccepts.mp (hsuccess.mp htrue)
      exact ⟨htexts, hheight, hpayable, hfresh⟩
    · rintro ⟨htexts, _, hpayable, hfresh⟩
      have hok := hsuccess.mpr (haccepts.mpr ⟨htexts, hpayable, hfresh⟩)
      obtain ⟨_, hfrom⟩ := prepareChainCreation_eq_ok hprepares.prepares
      have hslots : SlotsApart {created.1.descriptor.domainId}
          {created.1.descriptor.evmChainId} := by
        rw [hfrom.descriptor, hrequest]
        exact hapart
      have hplayed : ∀ slot ∈ slotsOf [created.1.descriptor.domainId]
          [created.1.descriptor.evmChainId], toBytes slot.word ∈ P := by
        rw [hfrom.descriptor, hrequest]
        exact hplay
      rw [← hused] at hfits
      obtain ⟨next, hnext, hfounds⟩ := executeEnvelope_creation hash hstate hdecoded h hprepared
        hprepares hrequest hran hok hfits (hjournal hok) hslots hplayed (hconfined _ _ hprepared)
        haccounts hwords
      exact ⟨next, created, hnext, hfounds⟩

end Creation

section Sample

attribute [local instance] scatteringKeccak

@[reducible] def founderKey : Secp256k1 :=
  ⟨fun _ => false, fun _ _ _ _ => some 0xfef, fun _ => true⟩

attribute [local instance] founderKey idleRevm

def foundingAllocations : BTreeMap Address GenesisAccount :=
  ((∅ : BTreeMap Address GenesisAccount).insert 0xfef ⟨0, 1000000000000000000000000, [], ∅⟩).insert
    CHAIN_REGISTRY_ADDRESS ⟨1, 0, [], rootRegistryGenesisStorage 1 2048⟩

def foundingState : ExecutionState :=
  (fromGenesis foundingAllocations).toOption.getD ⟨⟨0, ∅, ∅⟩, ∅, ∅, ∅⟩

def foundingJoint : B256 := 77

def foundingContext : ChainRegistryExecutionContext :=
  ⟨5, 1, 1, 1, (∅ : BTreeMap DomainId B256).insert 1 foundingJoint, 0xfef⟩

def foundingEnv : DomainEnv := ⟨2048, 1, 1700000001, 0xfee, 30000000, 1000000000, 3⟩

def foundingRequest : CreateChainRequest :=
  ⟨1, "Leaf", "LEAF", 7001, 0xabc, 30000000, 1000000000, 5, 1⟩

def foundingPayment : Eip1559Transaction :=
  ⟨2048, 0, 0, 2000000000, 300000, some CHAIN_REGISTRY_ADDRESS, MIN_CREATION_DEPOSIT, [], [], false,
    1, 1⟩

def foundingTransaction (symbol : String) : Eip1559Transaction :=
  { foundingPayment with
    input := calldata foundingRequest (utf8Bytes "Leaf") (utf8Bytes symbol) }

def foundingEnvelope (symbol : String) : Bytes :=
  (Ethereum.encodeEip1559 (foundingTransaction symbol)).toOption.getD []

def foundingHash (symbol : String) : B256 := keccak256 (foundingEnvelope symbol)

def foundingStart : Progress := ⟨foundingState, 0, 0, [], [], [], []⟩

def foundingGenesis : ExecutionState :=
  (fromGenesis (requestAllocation foundingRequest)).toOption.getD ⟨⟨0, ∅, ∅⟩, ∅, ∅, ∅⟩

def foundingRuntime : Option ChainRegistryRuntime :=
  registryRuntime (some foundingContext) (prepareChainCreation foundingRequest
    foundingContext.networkId (foundingHash "LEAF") foundingJoint foundingGenesis.stateRoot
    (foundingTransaction "LEAF").value foundingContext.creationHeight).toOption

def foundingOutcome : Transacted :=
  (runTransaction foundingState .V1 foundingEnv (foundingTransaction "LEAF") 0xfef
    foundingRuntime).toOption.getD ⟨false, 0, [], none, .empty, []⟩

def foundedState : ExecutionState :=
  (foundingState.applyChanges foundingOutcome.journal.accounts.toList).toOption.getD
    ⟨⟨0, ∅, ∅⟩, ∅, ∅, ∅⟩

def foundedDomain : DomainId :=
  Crypto.deriveDomainId foundingContext.networkId foundingRequest.parentDomainId
    (foundingHash "LEAF")

def foundingSlots : List RegistrySlot := slotsOf [1, foundedDomain] [2048, 7001]

/-- What is hashed, under its hashes. -/
def foundingStore : NodeStore :=
  Trie.storeAll (foundingState.trieNodes ∪ foundedState.trieNodes)
    ([0x80] :: ([CHAIN_REGISTRY_ADDRESS, 0xfef, 0xfee].map toBytes ++
      foundingSlots.map fun slot => toBytes slot.word))

def foundingKeys : List B256 :=
  [CHAIN_REGISTRY_ADDRESS, 0xfef, 0xfee].map Trie.secureAccountKey ++
    foundingSlots.map fun slot => Trie.secureStorageKey slot.word

def foundingApart : Bool :=
  confinedOf foundingStore foundingKeys foundingState foundingOutcome.journal.accounts.toList &&
    genesisConfinedOf foundingStore foundingKeys foundingAllocations &&
    Trie.spreadOf foundingKeys &&
    inStore foundingStore [0x80] &&
    (slotsOf [foundedDomain] [foundingRequest.evmChainId]).all
      (fun slot => inStore foundingStore (toBytes slot.word)) &&
    ((slotsOf [foundedDomain] [foundingRequest.evmChainId]).map RegistrySlot.word).Nodup

def foundingRegistry : Option Leaves :=
  ((foundingState.account CHAIN_REGISTRY_ADDRESS).toOption.bind id).bind fun account =>
    (Trie.collectLeaves account.storageRoot foundingState.trieNodes).toOption

def foundingDecodes (symbol : String) : Prop :=
  (normalizeSymbol (utf8Bytes symbol)).toOption = some "LEAF" ∧ (utf8Bytes symbol).length ≤ 16 ∧
    (decodeEnvelope 0 foundingEnv.chainId (foundingEnvelope symbol)).toOption
      = some (foundingTransaction symbol, 0xfef, foundingHash symbol)

instance (symbol : String) : Decidable (foundingDecodes symbol) :=
  inferInstanceAs (Decidable (_ ∧ _ ∧ _))

theorem founding_evaluates : (foundingApart = true ∧ (fromGenesis foundingAllocations).isOk = true ∧
      foundingRegistry.map (fun leaves => (leaves.size, leaves.toList.all fun leaf =>
        (decodeStorageTrieValue leaf.2).isOk)) = some (2, true) ∧
          foundingStart.state.accounts.leaves.size + 3 < 2 ^ 32 ∧
      (foundingStart.state.readBalance CHAIN_REGISTRY_ADDRESS).toNat
        + (foundingTransaction "LEAF").value.toNat < 2 ^ 256 ∧
      Payable (registryInput .V1 foundingEnv foundingContext foundingStart.state foundingPayment
        0xfef
        none)) ∧ (rootDomainMarker 1 ≠ 0 ∧
      (foundingState.storage CHAIN_REGISTRY_ADDRESS (descriptorSlot 1)).toOption
        = some (rootDomainMarker 1) ∧
      (foundingState.storage CHAIN_REGISTRY_ADDRESS (descriptorSlot foundedDomain)).toOption
        = some 0 ∧
      (foundingState.storage CHAIN_REGISTRY_ADDRESS (chainIdSlot 7001)).toOption = some 0) ∧
    ((normalizeName (utf8Bytes "Leaf")).toOption = some "Leaf" ∧ (utf8Bytes "Leaf").length ≤ 64 ∧
      foundingDecodes "LEAF" ∧ foundingDecodes "leaf" ∧
      (executeEnvelope .V1 foundingEnv (some foundingContext) 0 (foundingEnvelope "leaf")
        foundingStart).toOption.map
          (fun next => (next.receipts.map (·.status), next.createdDomains))
          = some ([false], [])) := by
  decide +kernel

theorem foundingApart_eq : (confinedOf foundingStore foundingKeys foundingState
        foundingOutcome.journal.accounts.toList = true ∧
      genesisConfinedOf foundingStore foundingKeys foundingAllocations = true) ∧
    Hashing (nodesOf foundingStore) {key | key ∈ foundingKeys} ∧
    (∀ slot ∈ slotsOf [foundedDomain] [foundingRequest.evmChainId],
      toBytes slot.word ∈ nodesOf foundingStore) ∧
    SlotsApart {foundedDomain} {foundingRequest.evmChainId} := by
  have h := founding_evaluates.1.1
  rw [foundingApart] at h
  obtain ⟨h, hnodup⟩ := Bool.and_eq_true_iff.mp h
  obtain ⟨h, hslots⟩ := Bool.and_eq_true_iff.mp h
  obtain ⟨h, hempty⟩ := Bool.and_eq_true_iff.mp h
  obtain ⟨h, hspread⟩ := Bool.and_eq_true_iff.mp h
  exact ⟨Bool.and_eq_true_iff.mp h, ⟨injOn_nodesOf foundingStore, inStore_iff.mp hempty,
    Trie.spread_of_spreadOf hspread⟩, fun slot hslot =>
    inStore_iff.mp (all_eq_true.mp hslots slot hslot),
    slotsApart_of_nodup (of_decide_eq_true hnodup)⟩

theorem registry_founding : ∃ account leaves,
    foundingState.account CHAIN_REGISTRY_ADDRESS = .ok (some account) ∧
      Trie.collectLeaves account.storageRoot foundingState.trieNodes = .ok leaves ∧
      leaves.size = 2 ∧
      (leaves.toList.all fun leaf => (decodeStorageTrieValue leaf.2).isOk) = true := by
  obtain ⟨leaves, hleaves, hall⟩ := Option.map_eq_some_iff.mp founding_evaluates.1.2.2.1
  obtain ⟨account, haccount, hcollect⟩ := Option.bind_eq_some_iff.mp hleaves
  obtain ⟨found, hfound, rfl⟩ := Option.bind_eq_some_iff.mp haccount
  exact ⟨account, leaves, toOption_eq_some.mp hfound, toOption_eq_some.mp hcollect,
    (Prod.mk.inj hall).1, (Prod.mk.inj hall).2⟩

theorem finalizedRoot_founding : FinalizedRoot (nodesOf foundingStore) {key | key ∈ foundingKeys}
    foundingContext foundingState := by
  have hok := founding_evaluates.1.2.1
  obtain ⟨account, leaves, haccount, hcollect, _, hwords⟩ := registry_founding
  refine ⟨.genesis (genesisConfined_of_genesisConfinedOf foundingApart_eq.1.2)
    (eq_ok_of_isOk hok _),
    readable_of_collect haccount hcollect hwords, fun domainId hmem => ?_⟩
  have hroot : domainId = 1 := by
    rcases Std.ExtTreeMap.mem_insert.mp hmem with hsame | hmem
    · exact (Std.LawfulEqCmp.compare_eq_iff_eq.mp hsame).symm
    · exact absurd hmem Std.ExtTreeMap.not_mem_empty
  obtain ⟨_, ⟨hmarker, hroots, _⟩, _⟩ := founding_evaluates
  rw [hroot]
  exact ⟨rootDomainMarker 1, hmarker, toOption_eq_some.mp hroots⟩

theorem decoded_founding {symbol : String} (h : foundingDecodes symbol) :
    Decoded foundingEnv.chainId (foundingEnvelope symbol) (foundingTransaction symbol) 0xfef
      (foundingHash symbol) :=
  decodeEnvelope_eq_ok (toOption_eq_some.mp h.2.2)

theorem payable_founding (symbol : String)
    (prepared : Option (PreparedChainCreation × ExecutionState)) :
    Payable (registryInput .V1 foundingEnv foundingContext foundingStart.state
      (foundingTransaction symbol) 0xfef prepared) := by
  obtain ⟨⟨_, _, _, _, _, hpayment⟩, _⟩ := founding_evaluates
  exact hpayment

theorem wellFormed_founding {symbol : String} (h : foundingDecodes symbol) :
    WellFormed .V1 foundingEnv foundingContext 0 foundingStart (foundingTransaction symbol) 0xfef
      (foundingHash symbol) foundingRequest := by
  obtain ⟨_, ⟨_, _, _, hchain⟩, hname, hshort, _⟩ := founding_evaluates
  obtain ⟨hsymbol, hlength, _⟩ := h
  have hunused : foundingStart.state.storage CHAIN_REGISTRY_ADDRESS
      (chainIdSlot foundingRequest.evmChainId) = .ok 0 := by
    have hstart : foundingStart.state = foundingState := by rw [foundingStart]
    rw [hstart]
    exact toOption_eq_some.mp hchain
  refine ⟨rfl, rfl, decode_calldata hshort hlength (toOption_eq_some.mp hname)
    (toOption_eq_some.mp hsymbol) (by decide), BitVec.le_refl _, ?_, hunused, ?_,
    fun prepared _ => ?_⟩
  · exact Std.ExtTreeMap.mem_insert_self
  · exact check_bind_eq_ok.mpr ⟨by decide, bind_eq_ok.mpr ⟨.V1, rfl, check_bind_eq_ok.mpr
      ⟨by decide, check_bind_eq_ok.mpr ⟨rejectIf_eq_ok.mpr fun h => Option.some_ne_none _ h.2,
        rejectIf_eq_ok.mpr (by decide)⟩⟩⟩⟩
  · exact ⟨⟨.done true, false, foundingPayment.gasLimit, [], 0, []⟩,
      if_pos (payable_founding symbol prepared), rfl, by decide⟩

theorem confined_founding {prepared : Option (PreparedChainCreation × ExecutionState)}
    {outcome : Transacted}
    (hprepared : prepareRegistryCreation 0 (some foundingContext) (foundingTransaction "LEAF")
      (foundingHash "LEAF") = .ok prepared)
    (hran : runTransaction foundingStart.state .V1 foundingEnv (foundingTransaction "LEAF") 0xfef
      (registryRuntime (some foundingContext) (prepared.map (·.1))) = .ok outcome) :
    Confined (nodesOf foundingStore) {key | key ∈ foundingKeys} foundingStart.state
      outcome.journal.accounts.toList := by
  obtain ⟨_, _, _, _, hdecodes, _⟩ := founding_evaluates
  have hcall := wellFormed_founding hdecodes
  have hjoint : foundingContext.finalizedHeads[foundingRequest.parentDomainId]?
      = some foundingJoint := by
    rw [foundingContext, foundingRequest, OrdMap.getElem?_insert, if_pos rfl]
  rcases prepareRegistryCreation_cases 0 (foundingHash "LEAF") hcall.root hcall.recipient
    hcall.decodes
    hjoint hcall.deposit with ⟨hlate, _⟩ | ⟨_, created, hcreated, _, hprepares⟩
  · exact absurd hlate (by decide)
  · rw [hcreated] at hprepared
    cases hprepared
    have hgenesis : foundingGenesis = created.2 := by
      rw [foundingGenesis, hprepares.genesis]
      rfl
    have hruntime : foundingRuntime = registryRuntime (some foundingContext) (some created.1) := by
      rw [foundingRuntime, hgenesis, hprepares.prepares, Except.toOption]
    have hstart : foundingStart.state = foundingState := by rw [foundingStart]
    have houtcome : foundingOutcome = outcome := by
      rw [hstart, Option.map_some] at hran
      rw [foundingOutcome, hruntime, hran, Except.toOption, Option.getD_some]
    have hconfined := foundingApart_eq.1.1
    rw [houtcome] at hconfined
    rw [hstart]
    exact confined_of_confinedOf hconfined

theorem creation_succeeds_iff_founding :
    ∃ next created, executeEnvelope .V1 foundingEnv (some foundingContext) 0
      (foundingEnvelope "LEAF")
        foundingStart = .ok next ∧
      Founds foundingContext 0 (foundingTransaction "LEAF") (foundingHash "LEAF") foundingRequest
        created foundingStart next := by
  obtain ⟨⟨_, _, _, hroom, hbalance, _⟩, ⟨_, _, hfresh, _⟩, _, hshort, hdecodes, _⟩ :=
    founding_evaluates
  have hstart : foundingStart.state = foundingState := by rw [foundingStart]
  have hlawful : LawfulRevm := lawful_plainRevm fun _ => .done true
  obtain ⟨_, hash, hslots, hapart⟩ := foundingApart_eq
  refine (creation_succeeds_iff hash (hstart ▸ finalizedRoot_founding)
    (decoded_founding hdecodes) (wellFormed_founding hdecodes) hroom
    (fun account leaves haccount hleaves => ?_)
    (fun prepared outcome => confined_founding) hapart hslots).mpr
      ⟨?_, by decide, .inr hbalance, ?_⟩
  · obtain ⟨found, stored, hfound, hstored, hsize, _⟩ := registry_founding
    rw [hstart, hfound] at haccount
    cases haccount
    rw [hstart, hstored] at hleaves
    cases hleaves
    omega
  · exact carriedTexts_calldata hshort hdecodes.2.1
  · rw [hstart]
    exact toOption_eq_some.mp hfresh

/-- With the symbol in small letters the same creation is well-formed, and it is reverted. -/
theorem unnormal_creation_reverts :
    ∃ P keys, Hashing P keys ∧ FinalizedRoot P keys foundingContext foundingStart.state ∧
      Decoded foundingEnv.chainId (foundingEnvelope "leaf") (foundingTransaction "leaf") 0xfef
        (foundingHash "leaf") ∧
      WellFormed .V1 foundingEnv foundingContext 0 foundingStart (foundingTransaction "leaf") 0xfef
        (foundingHash "leaf") foundingRequest ∧
      ∃ next, executeEnvelope .V1 foundingEnv (some foundingContext) 0 (foundingEnvelope "leaf")
          foundingStart = .ok next ∧
        next.receipts.map (·.status) = [false] ∧ next.createdDomains = [] := by
  obtain ⟨_, _, _, _, _, hdecodes, hreverts⟩ := founding_evaluates
  have hstart : foundingStart.state = foundingState := by rw [foundingStart]
  obtain ⟨next, hnext, hresult⟩ := Option.map_eq_some_iff.mp hreverts
  obtain ⟨hstatus, hdomains⟩ := Prod.mk.inj hresult
  exact ⟨_, _, foundingApart_eq.2.1, hstart ▸ finalizedRoot_founding, decoded_founding hdecodes,
    wellFormed_founding hdecodes, next, toOption_eq_some.mp hnext, hstatus, hdomains⟩

end Sample

end Executor

end Arbor
