import Arbor.Evm.RegistryWords
import Arbor.System.Calldata

/-!
# A creation call

A transaction to the registry is one native call.  Its sender pays for gas and for the
deposit; the registry then looks up three words, writes seven and logs the new chain.  The
words can be read, so the call is made or refused but never fails otherwise:
`transact_creation` says exactly when it is made, and what its journal then holds.
-/

namespace Arbor

open Result SystemContract ArborPrecompiles Journal

section Registry

variable [Keccak] {db : Database} {journal after : Journal}

variable {prepared : PreparedChainCreation} {calldata : Bytes} {address sender : Address}

/-- The registry account once it has been paid: it is there to stay, and it keeps the words of
the database as originals. -/
structure Open (db : Database) (journal : Journal) : Prop where
  touched : (journal.load db CHAIN_REGISTRY_ADDRESS).touched = true
  created : (journal.load db CHAIN_REGISTRY_ADDRESS).created = false
  selfdestructed : (journal.load db CHAIN_REGISTRY_ADDRESS).selfdestructed = false
  originals : ∀ (slot original present : U256),
    (journal.load db CHAIN_REGISTRY_ADDRESS).storage[slot]? = some (original, present) →
    db.storage CHAIN_REGISTRY_ADDRESS slot = .ok original

section

variable (h : Open db journal)
include h

theorem Open.of_kept (hkept : Kept (journal.load db CHAIN_REGISTRY_ADDRESS)
      (after.load db CHAIN_REGISTRY_ADDRESS)) : Open db after := by
  refine ⟨hkept.touched h.touched, hkept.created.trans h.created,
    hkept.selfdestructed.trans h.selfdestructed, ?_⟩
  rw [hkept.storage]
  exact h.originals

/-- Every slot of the registry can be read. -/
def Readable (db : Database) : Prop :=
  ∀ slot, ∃ word, db.storage CHAIN_REGISTRY_ADDRESS slot = .ok word

theorem Open.sload (hdb : Readable db) (slot : U256) :
    journal.sload db CHAIN_REGISTRY_ADDRESS slot = .ok (registryWord db journal slot) := by
  obtain ⟨word, hword⟩ : ∃ word, journal.sload db CHAIN_REGISTRY_ADDRESS slot = .ok word := by
    unfold Journal.sload
    rw [h.created]
    rcases (journal.load db CHAIN_REGISTRY_ADDRESS).storage[slot]? with _ | ⟨original, present⟩
    · exact hdb slot
    · exact ⟨present, rfl⟩
  rw [hword, registryWord_eq hword]

theorem Open.original (hdb : Readable db) (slot : U256) :
    ∃ original, journal.original db CHAIN_REGISTRY_ADDRESS slot = .ok original ∧
      db.storage CHAIN_REGISTRY_ADDRESS slot = .ok original := by
  unfold Journal.original
  rw [h.created]
  rcases hentry : (journal.load db CHAIN_REGISTRY_ADDRESS).storage[slot]? with _ | ⟨original,
    present⟩
  · obtain ⟨word, hword⟩ := hdb slot
    exact ⟨word, hword, hword⟩
  · exact ⟨original, rfl, h.originals slot original present hentry⟩

/-- A word of an open registry is written. -/
theorem Open.sstore (hdb : Readable db) (slot value : U256) :
    ∃ after, journal.sstore db CHAIN_REGISTRY_ADDRESS slot value = .ok after ∧ Open db after := by
  obtain ⟨original, horiginal, hstored⟩ := h.original hdb slot
  refine ⟨_, bind_eq_ok.mpr ⟨original, horiginal, rfl⟩, ?_⟩
  refine ⟨?_, ?_, ?_, fun other noted present hentry => ?_⟩
  · rw [load_set]
    exact h.touched
  · rw [load_set]
    exact h.created
  · rw [load_set]
    exact h.selfdestructed
  · rw [load_set, if_pos rfl, OrdMap.getElem?_insert] at hentry
    split at hentry
    · rename_i hsame
      cases hentry
      rw [← hsame]
      exact hstored
    · exact h.originals other noted present hentry

end

/-- So are several. -/
theorem Open.writes (hdb : Readable db) (what : String) (writes : List (U256 × U256)) :
    ∀ {journal : Journal}, Open db journal →
      ∃ after, writeWords db what writes journal = .ok after ∧ Open db after ∧
        after.logs = journal.logs := by
  induction writes with
  | nil => exact fun {journal} h => ⟨journal, rfl, h, rfl⟩
  | cons write rest ih =>
    intro journal h
    obtain ⟨next, hnext, hopen⟩ := h.sstore hdb write.1 write.2
    obtain ⟨after, hafter, hend, hlogs⟩ := ih hopen
    refine ⟨after, bind_eq_ok.mpr ⟨next, mapError_eq_ok.mpr hnext, hafter⟩, hend, ?_⟩
    obtain ⟨_, _, hnext⟩ := bind_eq_ok.mp hnext
    cases hnext
    exact hlogs

/-- What a creation asks of the registry's words. -/
structure Admits (word : U256 → U256) (prepared : PreparedChainCreation) : Prop where
  parent : word (descriptorSlot prepared.descriptor.parentDomainId) ≠ 0
  fresh : word (descriptorSlot prepared.descriptor.domainId) = 0
  unused : word (chainIdSlot prepared.descriptor.evmChainId) = 0

theorem logs_chainCreatedLog (journal : Journal) (prepared : PreparedChainCreation) :
    ∃ log, (chainCreatedLog journal prepared).logs = journal.logs ++ [log] ∧
      log.topics.length ≤ 4 ∧ log.data.length = 160 := by
  refine ⟨_, rfl, Nat.le_of_ble_eq_true rfl, ?_⟩
  simp only [List.length_append, length_toBytes, length_putWord (show 64 ≤ 256 by decide),
    length_putWord (show 160 ≤ 256 by decide)]

/-- What a creation does to an open registry: it writes its words and logs the new chain. -/
structure Makes (db : Database) (prepared : PreparedChainCreation) (before after : Journal) :
    Prop where
  opened : Open db after
  written : Written db (creationStorageWrites prepared) before after
  recorded : ∃ what recorded, writeWords db what (creationStorageWrites prepared) before
    = .ok recorded ∧ after.accounts = recorded.accounts
  logged : ∃ log, after.logs = before.logs ++ [log] ∧ log.topics.length ≤ 4 ∧ log.data.length = 160

theorem Open.creates (h : Open db journal) (hdb : Readable db) (prepared : PreparedChainCreation) :
    (Admits (registryWord db journal) prepared ∧
        ∃ after result, createPrepared db journal prepared = .ok (after, result) ∧
          result.success = true ∧ Makes db prepared journal after) ∨
      ¬Admits (registryWord db journal) prepared ∧
        ∃ message, createPrepared db journal prepared = registryRevert journal message := by
  have hlookup (slot : U256) (what : String) :
      lookup db journal slot what = .ok (registryWord db journal slot) :=
    lookup_eq_ok.mpr (h.sload hdb slot)
  unfold createPrepared
  rw [hlookup, ok_bind]
  by_cases hparent : registryWord db journal (descriptorSlot prepared.descriptor.parentDomainId) = 0
  · refine .inr ⟨fun hadmits => hadmits.parent hparent, "unknown parent domain", ?_⟩
    rw [if_pos hparent]
  rw [if_neg hparent, hlookup, ok_bind]
  by_cases hfresh : registryWord db journal (descriptorSlot prepared.descriptor.domainId) = 0
  · rw [if_neg (not_not.mpr hfresh), hlookup, ok_bind]
    by_cases hunused : registryWord db journal (chainIdSlot prepared.descriptor.evmChainId) = 0
    · rw [if_neg (not_not.mpr hunused)]
      obtain ⟨recorded, hrecorded, hopen, hlogs⟩ := Open.writes hdb
        "ChainRegistry storage update failed" (creationStorageWrites prepared) h
      refine .inl ⟨⟨hparent, hfresh, hunused⟩, chainCreatedLog recorded prepared, _,
        bind_eq_ok.mpr ⟨recorded, hrecorded, rfl⟩, rfl, hopen.of_kept (Kept.refl _),
        (written_writeWords hrecorded).addLog _ _, ⟨_, recorded, hrecorded, rfl⟩, ?_⟩
      rw [← hlogs]
      exact logs_chainCreatedLog recorded prepared
    · refine .inr ⟨fun hadmits => hunused hadmits.unused, "EVM chain ID already exists", ?_⟩
      rw [if_pos hunused]
  · refine .inr ⟨fun hadmits => hfresh hadmits.fresh, "domain already exists", ?_⟩
    rw [if_pos hfresh]

variable {runtime : ChainRegistryRuntime}

/-- **The registry's answer to a prepared call**: the creation if the call has the prepared
calldata and the words admit it, a revert otherwise. -/
theorem Open.answers (h : Open db journal) (hdb : Readable db)
    {frame : Frame} (hroot : runtime.executingDomainId = runtime.rootDomainId)
    (hprepared : runtime.preparedCreation = some prepared)
    (hselector : createChainSelector.isPrefixOf frame.input = true)
    (hcalldata : encodeCreateChainCall prepared.request = .ok calldata)
    (hstatic : frame.isStatic = false)
    (hvalue : frame.transferValue = some prepared.descriptor.creationDeposit) :
    ((calldata = frame.input ∧ Admits (registryWord db journal) prepared) ∧
        ∃ after result, runChainRegistry db (some runtime) frame journal = .ok (after, result) ∧
          result.success = true ∧ Makes db prepared journal after) ∨
      ¬(calldata = frame.input ∧ Admits (registryWord db journal) prepared) ∧
        ∃ message, runChainRegistry db (some runtime) frame journal
          = registryRevert journal message := by
  have hcreate : runChainRegistry db (some runtime) frame journal
      = if calldata = frame.input then createPrepared db journal prepared
        else registryRevert journal "invalid createChain call" := by
    simp only [ArborPrecompiles.runChainRegistry, runCreateChain, hroot, ne_eq, not_true_eq_false,
      if_false, if_pos hselector, hprepared, hcalldata, hstatic, hvalue, Bool.false_eq_true,
      false_or,
      or_false]
    by_cases hsame : calldata = frame.input
    · rw [if_pos hsame, if_neg (not_not.mpr hsame.symm)]
    · rw [if_neg hsame, if_pos (Ne.symm hsame)]
  rw [hcreate]
  by_cases hsame : calldata = frame.input
  · rw [if_pos hsame]
    rcases h.creates hdb prepared with ⟨hadmits, hmade⟩ | ⟨hrefused, hrevert⟩
    · exact .inl ⟨⟨hsame, hadmits⟩, hmade⟩
    · exact .inr ⟨fun hall => hrefused hall.2, hrevert⟩
  · rw [if_neg hsame]
    exact .inr ⟨fun hall => hsame hall.1, _, rfl⟩

/-! ## The journal of a call to the registry -/

/-- A journal of listed accounts, none of them created or destroyed, in which only the registry
has words, at most `n`. -/
structure Narrow (db : Database) (addresses : List Address) (n : Nat) (journal : Journal) :
    Prop where
  listed : ∀ address ∈ journal.accounts, address ∈ addresses
  created : ∀ address, (journal.load db address).created = false
  selfdestructed : ∀ address, (journal.load db address).selfdestructed = false
  unwritten : ∀ address, address ≠ CHAIN_REGISTRY_ADDRESS → (journal.load db address).storage = ∅
  words : (journal.load db CHAIN_REGISTRY_ADDRESS).storage.size ≤ n

theorem narrow_empty (addresses : List Address) : Narrow db addresses 0 empty := by
  have hload (address : Address) : empty.load db address = stored db address := by
    rfl
  have hstored (address : Address) : (stored db address).created = false ∧
      (stored db address).selfdestructed = false ∧
      (stored db address).storage = ∅ := by
    unfold stored
    split <;> exact ⟨rfl, rfl, rfl⟩
  refine ⟨fun address hmem => absurd hmem Std.ExtTreeMap.not_mem_empty, fun address => ?_,
    fun address => ?_, fun address _ => ?_, ?_⟩
  · exact (hstored address).1
  · exact (hstored address).2.1
  · exact (hstored address).2.2
  · rw [hload, (hstored _).2.2, Std.ExtTreeMap.size_empty]

variable {addresses : List Address} {n : Nat}

section

variable (h : Narrow db addresses n journal)
include h

theorem Narrow.of_accounts
    (haccounts : after.accounts = journal.accounts) : Narrow db addresses n after := by
  have hload (address : Address) : after.load db address = journal.load db address :=
    load_congr haccounts address
  refine ⟨?_, ?_, ?_, ?_, ?_⟩
  · rw [haccounts]
    exact h.listed
  · simpa only [hload] using h.created
  · simpa only [hload] using h.selfdestructed
  · simpa only [hload] using h.unwritten
  · simpa only [hload] using h.words

variable {account : AccountChange}

theorem Narrow.set {m : Nat} (hle : n ≤ m) (hlisted : address ∈ addresses)
    (hcreated : account.created = (journal.load db address).created)
    (hselfdestructed : account.selfdestructed = (journal.load db address).selfdestructed)
    (hunwritten : address ≠ CHAIN_REGISTRY_ADDRESS → account.storage = ∅)
    (hwords : address = CHAIN_REGISTRY_ADDRESS → account.storage.size ≤ m) :
    Narrow db addresses m (journal.set address account) := by
  refine ⟨fun other hmem => ?_, fun other => ?_, fun other => ?_, fun other hne => ?_, ?_⟩
  · rcases Std.ExtTreeMap.mem_insert.mp hmem with hsame | hmem
    · rw [← Std.LawfulEqCmp.compare_eq_iff_eq.mp hsame]
      exact hlisted
    · exact h.listed other hmem
  · rw [load_set]
    split
    · exact hcreated.trans (h.created address)
    · exact h.created other
  · rw [load_set]
    split
    · exact hselfdestructed.trans (h.selfdestructed address)
    · exact h.selfdestructed other
  · rw [load_set]
    split
    · rename_i hsame
      exact hunwritten (hsame ▸ hne)
    · exact h.unwritten other hne
  · rw [load_set]
    split
    · rename_i hsame
      exact hwords hsame
    · exact h.words.trans hle

theorem Narrow.keep
    (hlisted : address ∈ addresses) (hcreated : account.created = (journal.load db address).created)
    (hselfdestructed : account.selfdestructed = (journal.load db address).selfdestructed)
    (hstorage : account.storage = (journal.load db address).storage) :
    Narrow db addresses n (journal.set address account) := by
  refine h.set le_rfl hlisted hcreated hselfdestructed (fun hne => ?_) fun hsame => ?_
  · rw [hstorage]
    exact h.unwritten address hne
  · rw [hstorage, hsame]
    exact h.words

theorem Narrow.setBalance (hlisted : address ∈ addresses)
    (amount : U256) : Narrow db addresses n (journal.setBalance db address amount) :=
  h.keep hlisted rfl rfl rfl

theorem Narrow.transfer {recipient : Address} {amount : U256}
    (hsender : sender ∈ addresses) (hrecipient : recipient ∈ addresses)
    (htransfer : journal.transfer db sender recipient amount = some after) :
    Narrow db addresses n after := by
  rcases transfer_eq_some htransfer with ⟨_, rfl⟩ | ⟨_, _, _, rfl⟩
  · exact h.keep hrecipient rfl rfl rfl
  · have hdebited := h.setBalance hsender (journal.balance db sender - amount)
    have hcredited := hdebited.setBalance hrecipient
      ((journal.debited db sender amount).balance db recipient + amount)
    exact hcredited.of_accounts rfl

theorem Narrow.chargeSender (env : DomainEnv)
    (transaction : Eip1559Transaction) (hsender : sender ∈ addresses) :
    Narrow db addresses n (journal.chargeSender db env transaction sender) := by
  have hpaid := h.setBalance hsender (BitVec.ofNat 256 ((journal.balance db sender).toNat -
    transaction.gasLimit.toNat * effectiveGasPrice env transaction))
  unfold Journal.chargeSender
  split
  · exact hpaid
  · exact hpaid.keep hsender rfl rfl rfl

theorem Narrow.settle (env : DomainEnv)
    (transaction : Eip1559Transaction) (gasUsed : Nat) (hsender : sender ∈ addresses)
    (hbeneficiary : env.beneficiary ∈ addresses) :
    Narrow db addresses n (journal.settle db env transaction sender gasUsed) :=
  (h.setBalance hsender _).setBalance hbeneficiary _

end

theorem Narrow.writeWords {what : String} {writes : List (U256 × U256)}
    (hlisted : CHAIN_REGISTRY_ADDRESS ∈ addresses) :
    ∀ {n : Nat} {journal : Journal}, Narrow db addresses n journal →
      ArborPrecompiles.writeWords db what writes journal = .ok after →
      Narrow db addresses (n + writes.length) after := by
  induction writes with
  | nil =>
    intro n journal h hwrite
    cases hwrite
    exact h
  | cons write rest ih =>
    intro n journal h hwrite
    obtain ⟨next, hnext, hwrite⟩ := bind_eq_ok.mp hwrite
    obtain ⟨original, _, hnext⟩ := bind_eq_ok.mp (mapError_eq_ok.mp hnext)
    cases hnext
    rw [List.length_cons, Nat.add_comm rest.length, ← Nat.add_assoc]
    refine ih ?_ hwrite
    refine h.set (Nat.le_succ n) hlisted rfl rfl (fun hne => absurd rfl hne) fun _ => ?_
    exact Std.ExtTreeMap.size_insert_le.trans (Nat.succ_le_succ h.words)

section

variable (h : Narrow db addresses 0 journal)
include h

theorem Narrow.storage_eq : (journal.load db CHAIN_REGISTRY_ADDRESS).storage = ∅ :=
  Std.ExtTreeMap.eq_empty_iff_size_eq_zero.mpr (Nat.le_zero.mp h.words)

theorem Narrow.opened
    (htouched : (journal.load db CHAIN_REGISTRY_ADDRESS).touched = true) : Open db journal := by
  refine ⟨htouched, h.created _, h.selfdestructed _, fun slot original present hentry => ?_⟩
  rw [h.storage_eq] at hentry
  cases hentry

theorem Narrow.word_eq {slot word : U256}
    (hword : db.storage CHAIN_REGISTRY_ADDRESS slot = .ok word) :
    registryWord db journal slot = word := by
  refine registryWord_eq ?_
  rw [sload, h.storage_eq, h.created]
  exact hword

end

/-! ## Paying the registry -/

theorem balance_chargeSender (db : Database) (journal : Journal) (env : DomainEnv)
    (transaction : Eip1559Transaction) (sender address : Address) :
    (journal.chargeSender db env transaction sender).balance db address
      = if sender = address then BitVec.ofNat 256 ((journal.balance db sender).toNat -
          transaction.gasLimit.toNat * effectiveGasPrice env transaction)
        else journal.balance db address := by
  have hpaid : (journal.debit db sender
      (transaction.gasLimit.toNat * effectiveGasPrice env transaction)).balance db address
      = if sender = address then BitVec.ofNat 256 ((journal.balance db sender).toNat -
          transaction.gasLimit.toNat * effectiveGasPrice env transaction)
        else journal.balance db address := by
    rw [debit, balance, load_setBalance]
    split <;> rfl
  unfold chargeSender
  split
  · exact hpaid
  · rw [← hpaid, balance, load_set]
    split
    · rename_i hsame
      rw [hsame]
      rfl
    · rfl

theorem transfer_registry_iff (env : DomainEnv) {transaction : Eip1559Transaction}
    (hfunds : maxCost transaction ≤ (empty.balance db sender).toNat)
    (hvalue : transaction.value ≠ 0) :
    (∃ entered, (empty.chargeSender db env transaction sender).transfer db sender
        CHAIN_REGISTRY_ADDRESS transaction.value = some entered) ↔
      sender = CHAIN_REGISTRY_ADDRESS ∨
        (empty.balance db CHAIN_REGISTRY_ADDRESS).toNat + transaction.value.toNat < 2 ^ 256 := by
  have hcost : transaction.gasLimit.toNat * effectiveGasPrice env transaction
      + transaction.value.toNat ≤ maxCost transaction :=
    Nat.add_le_add_right (Nat.mul_le_mul_left _ (min_le_left _ _)) _
  generalize hcharged : empty.chargeSender db env transaction sender = charged
  have hbalance := balance_chargeSender db empty env transaction sender
  rw [hcharged] at hbalance
  have hleft : (charged.balance db sender).toNat = (empty.balance db sender).toNat -
      transaction.gasLimit.toNat * effectiveGasPrice env transaction := by
    rw [hbalance, if_pos rfl, BitVec.toNat_ofNat, Nat.mod_eq_of_lt (by omega)]
  have hcovered : ¬charged.balance db sender < transaction.value := by
    rw [BitVec.not_lt, BitVec.le_def]
    omega
  have hfits : ((charged.setBalance db sender
      (charged.balance db sender - transaction.value)).balance
      db CHAIN_REGISTRY_ADDRESS).toNat + transaction.value.toNat < 2 ^ 256 ↔
      sender = CHAIN_REGISTRY_ADDRESS ∨
        (empty.balance db CHAIN_REGISTRY_ADDRESS).toNat + transaction.value.toNat < 2 ^ 256 := by
    rw [balance, load_setBalance]
    by_cases hself : sender = CHAIN_REGISTRY_ADDRESS
    · rw [if_pos hself]
      have hle := BitVec.not_lt.mp hcovered
      refine iff_of_true ?_ (.inl hself)
      rw [BitVec.toNat_sub_of_le hle]
      omega
    · rw [if_neg hself]
      have hother := hbalance CHAIN_REGISTRY_ADDRESS
      rw [if_neg hself] at hother
      change (charged.balance db CHAIN_REGISTRY_ADDRESS).toNat + _ < _ ↔ _
      rw [hother, or_iff_right hself]
  rw [← hfits, transfer, if_neg hvalue, if_neg hcovered]
  by_cases hover : 2 ^ 256 ≤ ((charged.setBalance db sender
      (charged.balance db sender - transaction.value)).balance db CHAIN_REGISTRY_ADDRESS).toNat
      + transaction.value.toNat
  · rw [if_pos hover]
    refine iff_of_false (fun hentered => ?_) (by omega)
    obtain ⟨entered, hentered⟩ := hentered
    cases hentered
  · rw [if_neg hover]
    exact iff_of_true ⟨_, rfl⟩ (by omega)

theorem balance_transfer_registry {amount : U256} (hamount : amount ≠ 0)
    (h : journal.transfer db sender CHAIN_REGISTRY_ADDRESS amount = some after) :
    (after.load db CHAIN_REGISTRY_ADDRESS).touched = true ∧
      amount.toNat ≤ (after.balance db CHAIN_REGISTRY_ADDRESS).toNat ∧
      after.logs = journal.logs := by
  rcases transfer_eq_some h with ⟨hzero, _⟩ | ⟨_, _, hfits, rfl⟩
  · exact absurd hzero hamount
  · have hload : ((journal.debited db sender amount).credited db CHAIN_REGISTRY_ADDRESS amount).load
        db CHAIN_REGISTRY_ADDRESS
        = { (journal.debited db sender amount).load db CHAIN_REGISTRY_ADDRESS with
            balance := (journal.debited db sender amount).balance db CHAIN_REGISTRY_ADDRESS + amount
            touched := true } := by
      rw [credited, load_setBalance, if_pos rfl]
    refine ⟨?_, ?_, rfl⟩
    · exact congrArg AccountChange.touched hload
    · have hbalance := congrArg AccountChange.balance hload
      change (((journal.debited db sender amount).credited db CHAIN_REGISTRY_ADDRESS amount).load db
        CHAIN_REGISTRY_ADDRESS).balance.toNat ≥ amount.toNat
      rw [hbalance, BitVec.toNat_add_of_lt hfits]
      exact Nat.le_add_left _ _

/-! ## The transaction -/

variable {body : Frame → Journal → Except String (Machine.Outcome Frame Journal)}

variable {precompiles : ArborPrecompiles}

theorem charge_registry {value : U256} : (precompiles.machine db).charge (outerFrame sender)
      (.message .call CHAIN_REGISTRY_ADDRESS value calldata false) journal = some journal := rfl

theorem enter_registry {value : U256} : (precompiles.machine db).enter (outerFrame sender)
      (.message .call CHAIN_REGISTRY_ADDRESS value calldata false) journal
      = (journal.transfer db sender CHAIN_REGISTRY_ADDRESS value).map
          fun entered => (registryFrame sender value calldata false, entered) := rfl

theorem invoke_unpaid {value : U256}
    (htransfer : journal.transfer db sender CHAIN_REGISTRY_ADDRESS value = none) :
    (precompiles.machine db).invoke body (outerFrame sender)
      (.message .call CHAIN_REGISTRY_ADDRESS value calldata false) journal
      = .ok ⟨journal, false, []⟩ := by
  simp only [Machine.invoke, charge_registry, enter_registry, htransfer, Option.map_none]

theorem invoke_paid {value : U256} {entered : Journal} {result : NativeResult}
    (htransfer : journal.transfer db sender CHAIN_REGISTRY_ADDRESS value = some entered)
    (hrun : runChainRegistry db precompiles.registry (registryFrame sender value calldata false)
      entered = .ok (after, result)) : (precompiles.machine db).invoke body (outerFrame sender)
      (.message .call CHAIN_REGISTRY_ADDRESS value calldata false) journal
      = .ok ⟨if result.success then after else journal, result.success,
          [(registryFrame sender value calldata false, entered)]⟩ := by
  have hnative : (precompiles.machine db).native (registryFrame sender value calldata false)
      = some fun journal => runChainRegistry db precompiles.registry
          (registryFrame sender value calldata false) journal >>= fun ran =>
            pure (ran.1, ran.2.success && !false) := rfl
  simp only [Machine.invoke, charge_registry, enter_registry, htransfer, Option.map_some,
    Machine.runFrame, hnative, hrun, ok_bind, pure_eq, Bool.not_false, Bool.and_true]
  rfl

theorem kept_settle (db : Database) (guard : Address) (journal : Journal) (env : DomainEnv)
    (transaction : Eip1559Transaction) (sender : Address) (gasUsed : Nat) :
    Kept (journal.load db guard)
      ((journal.settle db env transaction sender gasUsed).load db guard) :=
  (kept_credit guard journal sender _).trans (kept_credit guard _ env.beneficiary _)

theorem logs_chargeSender (db : Database) (env : DomainEnv) (transaction : Eip1559Transaction)
    (sender : Address) : (empty.chargeSender db env transaction sender).logs = [] := by
  unfold chargeSender
  split <;> rfl

/-- When the registry accepts a prepared creation. -/
structure Accepts (input : RevmInput) (prepared : PreparedChainCreation) : Prop where
  calldata : encodeCreateChainCall prepared.request = .ok input.transaction.input
  admits : Admits (registryWord input.database Journal.empty) prepared
  payable : input.sender = CHAIN_REGISTRY_ADDRESS ∨
    (Journal.empty.balance input.database CHAIN_REGISTRY_ADDRESS).toNat
      + input.transaction.value.toNat < 2 ^ 256

/-- The journal of a transaction that has made a creation. -/
structure CreationJournal (input : RevmInput) (prepared : PreparedChainCreation)
    (journal : Journal) : Prop where
  opened : Open input.database journal
  word : registryWord input.database journal
    = overwrite (creationStorageWrites prepared) (registryWord input.database Journal.empty)
  funded : journal.balance input.database CHAIN_REGISTRY_ADDRESS ≠ 0
  logged : ∃ log, journal.logs = [log] ∧ log.topics.length ≤ 4 ∧ log.data.length = 160
  narrow : Narrow input.database [input.sender, CHAIN_REGISTRY_ADDRESS, input.env.beneficiary] 7
    journal

/-- A transaction with a prepared creation, sent to the registry. -/
structure CreationInput (input : RevmInput) (runtime : ChainRegistryRuntime)
    (prepared : PreparedChainCreation) : Prop where
  recipient : input.transaction.recipient = some CHAIN_REGISTRY_ADDRESS
  registry : input.registry = some runtime
  root : runtime.executingDomainId = runtime.rootDomainId
  prepares : runtime.preparedCreation = some prepared
  selector : createChainSelector.isPrefixOf input.transaction.input = true
  encodes : ∃ calldata, encodeCreateChainCall prepared.request = .ok calldata
  deposit : prepared.descriptor.creationDeposit = input.transaction.value
  value : input.transaction.value ≠ 0

theorem Narrow.makes (h : Narrow db addresses 0 journal)
    (hlisted : CHAIN_REGISTRY_ADDRESS ∈ addresses) (hmakes : Makes db prepared journal after) :
    Narrow db addresses 7 after := by
  obtain ⟨_, recorded, hrecorded, haccounts⟩ := hmakes.recorded
  exact (h.writeWords hlisted hrecorded).of_accounts haccounts

variable [Revm] [LawfulRevm]

/-- **A prepared creation succeeds exactly if the registry accepts it**; otherwise the
transaction is a failed one. -/
theorem transact_creation {input : RevmInput} {script : TxScript}
    (hdb : Readable input.database) (hinput : CreationInput input runtime prepared)
    (hscript : Revm.script input = .ok script) (hgas : script.outOfGas = false) :
    ∃ outcome, transact input = .ok outcome ∧ outcome.gasUsed = script.gasUsed ∧
      (outcome.success = true ↔ Accepts input prepared) ∧
      (outcome.success = true → CreationJournal input prepared outcome.journal) := by
  let precompiles : ArborPrecompiles := ⟨input.spec, input.env.chainId, input.registry⟩
  let machine := precompiles.machine input.database
  let charged := empty.chargeSender input.database input.env input.transaction input.sender
  let addresses := [input.sender, CHAIN_REGISTRY_ADDRESS, input.env.beneficiary]
  have hsender : input.sender ∈ addresses := List.mem_cons_self
  have hregistry : CHAIN_REGISTRY_ADDRESS ∈ addresses := List.mem_cons_of_mem _ List.mem_cons_self
  have hbeneficiary : input.env.beneficiary ∈ addresses :=
    List.mem_cons_of_mem _ (List.mem_cons_of_mem _ List.mem_cons_self)
  have htop : topInvoke input.transaction script
      = .message .call CHAIN_REGISTRY_ADDRESS input.transaction.value input.transaction.input
        false := by
    rw [topInvoke, hinput.recipient, hgas]
  have htransact {result : Machine.Outcome Frame Journal}
      (hresult : machine.invoke (machine.run script.tree) (outerFrame input.sender)
        (.message .call CHAIN_REGISTRY_ADDRESS input.transaction.value input.transaction.input
          false)
        charged = .ok result) :
      ∃ outcome, transact input = .ok outcome ∧ outcome.gasUsed = script.gasUsed ∧
        outcome.success = result.ok ∧ outcome.journal = result.state.settle input.database input.env
          input.transaction input.sender script.gasUsed.toNat := by
    rw [← htop] at hresult
    exact ⟨_, bind_eq_ok.mpr
      ⟨script, hscript, bind_eq_ok.mpr ⟨result, mapError_eq_ok.mpr hresult, rfl⟩⟩,
      rfl, rfl, rfl⟩
  have hcharged : Narrow input.database addresses 0 charged :=
    (narrow_empty addresses).chargeSender input.env input.transaction hsender
  have hpaid := transfer_registry_iff input.env (LawfulRevm.funded hscript) hinput.value
  by_cases hpayable : input.sender = CHAIN_REGISTRY_ADDRESS ∨
    (empty.balance input.database CHAIN_REGISTRY_ADDRESS).toNat
      + input.transaction.value.toNat < 2 ^ 256
  · obtain ⟨entered, hentered⟩ := hpaid.mpr hpayable
    obtain ⟨htouched, hbalance, hlogs⟩ := balance_transfer_registry hinput.value hentered
    have hnarrow := hcharged.transfer hsender hregistry hentered
    have hwords : registryWord input.database entered = registryWord input.database empty := by
      funext slot
      obtain ⟨word, hword⟩ := hdb slot
      rw [hnarrow.word_eq hword, (narrow_empty addresses).word_eq hword]
    obtain ⟨calldata, hcalldata⟩ := hinput.encodes
    have hvalue : (registryFrame input.sender input.transaction.value input.transaction.input
        false).transferValue = some prepared.descriptor.creationDeposit :=
      congrArg some hinput.deposit.symm
    rcases (hnarrow.opened htouched).answers hdb hinput.root hinput.prepares hinput.selector
      hcalldata
        rfl hvalue with
      ⟨⟨hsame, hadmits⟩, after, result, hrun, hsuccess, hmakes⟩ | ⟨hrefused, message, hrun⟩
    · change calldata = input.transaction.input at hsame
      rw [← hinput.registry] at hrun
      obtain ⟨outcome, houtcome, hused, hok, hjournal⟩ :=
        htransact (invoke_paid hentered hrun)
      rw [hsuccess] at hok
      rw [hsuccess, if_pos rfl] at hjournal
      have hkept := kept_settle input.database CHAIN_REGISTRY_ADDRESS after input.env
        input.transaction input.sender script.gasUsed.toNat
      rw [← hjournal] at hkept
      refine ⟨outcome, houtcome, hused, iff_of_true hok ⟨hsame ▸ hcalldata, hwords ▸ hadmits,
        hpayable⟩, fun _ => ⟨hmakes.opened.of_kept hkept, ?_, ?_, ?_, ?_⟩⟩
      · rw [← hwords, ← hmakes.written.word]
        exact funext (registryWord_of_kept hkept)
      · intro hzero
        have hpositive : 0 < input.transaction.value.toNat :=
          Nat.pos_of_ne_zero fun hzero => hinput.value (BitVec.eq_of_toNat_eq hzero)
        have hgrown := hkept.balance
        change (after.balance input.database CHAIN_REGISTRY_ADDRESS).toNat
          ≤ (outcome.journal.balance input.database CHAIN_REGISTRY_ADDRESS).toNat at hgrown
        rw [hmakes.written.balance, hzero] at hgrown
        exact absurd (hbalance.trans hgrown) (Nat.not_le_of_lt hpositive)
      · obtain ⟨log, hlog, hsmall⟩ := hmakes.logged
        rw [hlogs, logs_chargeSender] at hlog
        refine ⟨log, ?_, hsmall⟩
        rw [hjournal]
        exact hlog
      · rw [hjournal]
        exact (hnarrow.makes hregistry hmakes).settle input.env input.transaction _ hsender
          hbeneficiary
    · rw [← hinput.registry] at hrun
      obtain ⟨outcome, houtcome, hused, hok, _⟩ := htransact (invoke_paid hentered hrun)
      refine ⟨outcome, houtcome, hused, iff_of_false (fun h => ?_) fun haccepts => ?_, fun h => ?_⟩
      · rw [hok] at h
        cases h
      · have hsame := haccepts.calldata
        rw [hcalldata] at hsame
        exact hrefused ⟨Except.ok.inj hsame, hwords ▸ haccepts.admits⟩
      · rw [hok] at h
        cases h
  · have hnone : charged.transfer input.database input.sender CHAIN_REGISTRY_ADDRESS
        input.transaction.value = none :=
      Option.eq_none_iff_forall_ne_some.mpr fun entered hentered =>
        hpayable (hpaid.mp ⟨entered, hentered⟩)
    obtain ⟨outcome, houtcome, hused, hok, _⟩ := htransact (invoke_unpaid hnone)
    refine ⟨outcome, houtcome, hused, iff_of_false (fun h => ?_) fun haccepts => ?_, fun h => ?_⟩
    · rw [hok] at h
      cases h
    · exact hpayable haccepts.payable
    · rw [hok] at h
      cases h

end Registry

end Arbor
