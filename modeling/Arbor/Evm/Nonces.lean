import Arbor.Evm.RegistryWords
import Arbor.Evm.StateResolve
import Arbor.Executor

/-!
# Nonces of accounts without code

An account without code makes no contracts.  Where a transaction creates none at its address
either, nothing inside the virtual machine touches its nonce (`Journal.Steady`); only a
transaction of its own uses one up.  From this follows what a batch does to such an account:
every nonce it has passed was used by a transaction of the batch (`executeEnvelopes_used`).
-/

namespace Arbor

open Result SystemContract Trie Journal

namespace Journal

section Steady

variable [Keccak] {db : Database} {account : Address}

variable {journal after : Journal} {frame : Frame} {invoke : Invoke}

/-- A change that leaves the nonce and the code of an account alone. -/
structure Steady (db : Database) (account : Address) (before after : Journal) : Prop where
  nonce : (after.load db account).nonce = (before.load db account).nonce
  codeHash : (after.load db account).codeHash = (before.load db account).codeHash

theorem Steady.refl (journal : Journal) : Steady db account journal journal := ⟨rfl, rfl⟩

theorem Steady.trans {a b c : Journal} (hab : Steady db account a b) (hbc : Steady db account b c) :
    Steady db account a c :=
  ⟨hbc.nonce.trans hab.nonce, hbc.codeHash.trans hab.codeHash⟩

theorem steady_set {address : Address} {change : AccountChange} (h : address ≠ account) :
    Steady db account journal (journal.set address change) := by
  constructor <;> rw [load_set, if_neg h]

/-- An account with the same nonce and code. -/
structure SameCode (before after : AccountChange) : Prop where
  nonce : after.nonce = before.nonce
  codeHash : after.codeHash = before.codeHash
  code : after.code = before.code

/-- A change of balances, words and marks only. -/
def Mild (db : Database) (before after : Journal) : Prop :=
  ∀ account, SameCode (before.load db account) (after.load db account)

theorem Mild.steady (h : Mild db journal after) : Steady db account journal after :=
  ⟨(h account).nonce, (h account).codeHash⟩

theorem Mild.refl (journal : Journal) : Mild db journal journal := fun _ => ⟨rfl, rfl, rfl⟩

theorem Mild.trans {a b c : Journal} (hab : Mild db a b) (hbc : Mild db b c) : Mild db a c :=
  fun account => ⟨(hbc account).nonce.trans (hab account).nonce,
    (hbc account).codeHash.trans (hab account).codeHash, (hbc account).code.trans
      (hab account).code⟩

theorem mild_set {address : Address} {change : AccountChange}
    (h : SameCode (journal.load db address) change) :
    Mild db journal (journal.set address change) := by
  intro other
  rw [load_set]
  split
  · rename_i heq
    exact heq ▸ h
  · exact ⟨rfl, rfl, rfl⟩

theorem mild_of_accounts {before : Journal} (h : after.accounts = before.accounts) :
    Mild db before after := by
  intro account
  rw [load_congr h]
  exact ⟨rfl, rfl, rfl⟩

theorem mild_setBalance (journal : Journal) (address : Address) (amount : U256) :
    Mild db journal (journal.setBalance db address amount) :=
  mild_set ⟨rfl, rfl, rfl⟩

theorem mild_transfer {sender recipient : Address} {amount : U256}
    (h : journal.transfer db sender recipient amount = some after) : Mild db journal after := by
  rcases transfer_eq_some h with ⟨_, rfl⟩ | ⟨_, _, _, rfl⟩
  · exact mild_set ⟨rfl, rfl, rfl⟩
  · exact ((mild_setBalance journal sender _).trans (mild_setBalance _ recipient _)).trans
      (mild_of_accounts rfl)

theorem mild_sstore {address : Address} {key value : U256}
    (h : journal.sstore db address key value = .ok after) : Mild db journal after := by
  obtain ⟨original, _, h⟩ := bind_eq_ok.mp h
  cases h
  exact mild_set ⟨rfl, rfl, rfl⟩

theorem mild_selfdestruct (journal : Journal) (address beneficiary : Address) :
    Mild db journal (journal.selfdestruct db address beneficiary) := by
  refine Mild.trans ?_ (mild_set ⟨rfl, rfl, rfl⟩)
  split
  · exact Mild.refl journal
  · exact (mild_setBalance journal beneficiary _).trans (mild_of_accounts rfl)

theorem mild_act {act : Act} (h : Journal.act db frame act journal = some after) :
    Mild db journal after := by
  unfold Journal.act at h
  split at h
  · cases h
  · cases act with
    | sstore key value =>
      cases hstore : journal.sstore db frame.target key value with
      | error e => simp [hstore, Except.toOption] at h
      | ok stored =>
        simp only [hstore, Except.toOption, Option.some.injEq] at h
        rw [← h]
        exact mild_sstore hstore
    | log topics data =>
      cases h
      exact mild_of_accounts rfl
    | selfdestruct beneficiary =>
      cases h
      exact mild_selfdestruct journal frame.target beneficiary

/-! ## Calls -/

def innerFrame (frame : Frame) : Invoke → Frame
  | .message scheme address value input outOfGas =>
    messageFrame frame scheme address value input outOfGas
  | .create address value _ =>
    ⟨.create, frame.target, address, address, .transfer value, [], false, false⟩

/-- A call that does not create an account. -/
def NotCreating (account : Address) : Invoke → Prop
  | .message .. => True
  | .create address .. => address ≠ account

/-- A call of a frame that neither creates an account nor is a creation the account makes. -/
def SparesCall (account : Address) (frame : Frame) : Invoke → Prop
  | .message .. => True
  | .create address .. => frame.target ≠ account ∧ address ≠ account

omit [Keccak] in
theorem SparesCall.notCreating (h : SparesCall account frame invoke) :
    NotCreating account invoke := by
  cases invoke with
  | message scheme address value input outOfGas => trivial
  | create address value code => exact h.2

theorem steady_charge (hspares : SparesCall account frame invoke)
    (h : charge db frame invoke journal = some after) : Steady db account journal after := by
  cases invoke with
  | message scheme address value input outOfGas =>
    simp only [charge, Option.ite_none_left_eq_some, Option.some.injEq] at h
    exact h.2 ▸ Steady.refl journal
  | create address value code =>
    simp only [charge, Option.ite_none_left_eq_some, Option.some.injEq] at h
    rw [← h.2]
    exact steady_set hspares.1

theorem steady_enter {inner : Frame} {entered : Journal} (hspares : NotCreating account invoke)
    (h : enter db frame invoke journal = some (inner, entered)) :
    inner = innerFrame frame invoke ∧ Steady db account journal entered := by
  cases invoke with
  | message scheme address value input outOfGas =>
    obtain ⟨after, hafter, heq⟩ := Option.map_eq_some_iff.mp h
    cases heq
    refine ⟨rfl, ?_⟩
    unfold enterMessage at hafter
    split at hafter
    · exact (mild_transfer hafter).steady
    · cases hafter
      exact Steady.refl journal
  | create address value code =>
    obtain ⟨after, hafter, heq⟩ := Option.map_eq_some_iff.mp h
    cases heq
    refine ⟨rfl, ?_⟩
    simp only [enterCreate, Option.ite_none_left_eq_some] at hafter
    exact (steady_set hspares).trans (mild_transfer hafter.2).steady

theorem steady_leave (journal : Journal) (hspares : NotCreating account invoke) :
    Steady db account journal (leave db (innerFrame frame invoke) invoke journal) := by
  cases invoke with
  | message scheme address value input outOfGas => exact Steady.refl journal
  | create address value code => exact steady_set hspares

end Steady

end Journal

/-! ## The native contracts -/

section Native

variable [Keccak] {db : Database} {account : Address}

open ArborPrecompiles Journal

theorem mild_writeWords {what : String} {writes : List (U256 × U256)} :
    ∀ {before after : Journal}, writeWords db what writes before = .ok after →
      Mild db before after := by
  induction writes with
  | nil =>
    intro before after h
    cases h
    exact Mild.refl before
  | cons write rest ih =>
    intro before after h
    obtain ⟨next, hnext, h⟩ := bind_eq_ok.mp h
    exact (mild_sstore (mapError_eq_ok.mp hnext)).trans (ih h)

theorem mild_native {precompiles : ArborPrecompiles} {frame : Frame}
    {effect : Journal → Except String (Journal × Bool)} {before after : Journal}
    (hnative : (precompiles.machine db).native frame = some effect)
    (h : effect before = .ok (after, true)) : Mild db before after := by
  rcases native_success hnative h with rfl | ⟨result, hran, hsuccess⟩
  · exact Mild.refl after
  · obtain ⟨_, _, _, ⟨_, prepared, _, hcreated⟩ | ⟨domainId, burn, _, hsettled⟩⟩ :=
      runChainRegistry_success hran hsuccess
    · obtain ⟨_, recorded, _, _, hwritten, rfl⟩ := hcreated.written
      exact (mild_writeWords hwritten).trans (mild_of_accounts rfl)
    · obtain ⟨deposit, recipient, status, _, _, _, hpaid⟩ := hsettled.payment
      obtain ⟨paid, cleared, recorded, _, _, hmoved, hcleared, hrecorded, rfl⟩ := hpaid.moved
      exact ((mild_transfer hmoved).trans (mild_sstore hcleared)).trans
        ((mild_sstore hrecorded).trans (mild_of_accounts rfl))

theorem relates_steady (precompiles : ArborPrecompiles) (db : Database) (account : Address) :
    (precompiles.machine db).Relates innerFrame (SparesCall account) (Steady db account) where
  refl := Steady.refl
  trans := Steady.trans
  step h := (mild_act h).steady
  charge := steady_charge
  enter hspares h := steady_enter hspares.notCreating h
  native hnative h := (mild_native hnative h).steady
  leave hspares := steady_leave _ hspares.notCreating

end Native

/-! ## Transactions -/

section Transactions

variable [Keccak]

/-- What a transaction may do to an account without code: use up a nonce, if it is the
sender's. -/
structure Journal.Signed (db : Database) (sender account : Address) (before after : Journal) :
    Prop where
  nonce : (after.load db account).nonce.toNat
    ≤ (before.load db account).nonce.toNat + if sender = account then 1 else 0
  codeHash : (after.load db account).codeHash = (before.load db account).codeHash

variable {db : Database} {sender account : Address}

theorem Journal.Steady.signed {before after : Journal} (h : Steady db account before after) :
    Signed db sender account before after :=
  ⟨h.nonce ▸ Nat.le_add_right _ _, h.codeHash⟩

theorem Journal.Signed.steady {a b c : Journal} (h : Signed db sender account a b)
    (hbc : Steady db account b c) : Signed db sender account a c :=
  ⟨hbc.nonce ▸ h.nonce, hbc.codeHash.trans h.codeHash⟩

theorem Journal.Steady.then_signed {a b c : Journal} (h : Steady db account a b)
    (hbc : Signed db sender account b c) : Signed db sender account a c :=
  ⟨h.nonce ▸ hbc.nonce, hbc.codeHash.trans h.codeHash⟩

/-- The sender uses up a nonce. -/
theorem Journal.signed_set (account : Address) (journal : Journal) {change : AccountChange}
    (hnonce : change.nonce = (journal.load db sender).nonce + 1)
    (hcode : change.codeHash = (journal.load db sender).codeHash) :
    Signed db sender account journal (journal.set sender change) := by
  by_cases heq : sender = account
  · subst heq
    constructor
    · rw [load_set, if_pos rfl, if_pos rfl, hnonce]
      exact Nat.mod_le _ _
    · rw [load_set, if_pos rfl, hcode]
  · exact (steady_set heq).signed

theorem Journal.signed_charge (account : Address) {invoke : Invoke} {journal after : Journal}
    (h : charge db (outerFrame sender) invoke journal = some after) :
    Signed db sender account journal after := by
  cases invoke with
  | message scheme address value input outOfGas =>
    have hspares : SparesCall account (outerFrame sender)
      (.message scheme address value input outOfGas) := trivial
    exact (steady_charge hspares h).signed
  | create address value code =>
    simp only [charge, Option.ite_none_left_eq_some, Option.some.injEq] at h
    rw [← h.2]
    exact signed_set account journal rfl rfl

variable [Revm]

/-- A transaction that creates no contract at an address. -/
def Uncreated (account : Address) (input : RevmInput) : Prop :=
  ∀ script, Revm.script input = .ok script →
    NotCreating account (topInvoke input.transaction script) ∧
      Machine.CallsFrom innerFrame (fun _ => NotCreating account) script.tree
        (innerFrame (outerFrame input.sender) (topInvoke input.transaction script))

/-- Only code creates contracts: an account that has none, and gets none from the
transaction, makes no creation. -/
class CodedRevm : Prop where
  spares : ∀ {input script account}, Revm.script input = .ok script →
    (Journal.empty.load input.database account).codeHash = KECCAK_EMPTY →
    Uncreated account input →
    Machine.CallsFrom Journal.innerFrame (Journal.SparesCall account) script.tree
      (Journal.innerFrame (outerFrame input.sender) (topInvoke input.transaction script))

/-- **The nonces after a transaction**, of an account without code. -/
theorem transact_signed [CodedRevm] {input : RevmInput} {outcome : Transacted}
    (h : transact input = .ok outcome) (huncreated : Uncreated account input)
    (hcode : (empty.load input.database account).codeHash = KECCAK_EMPTY) :
    Signed input.database input.sender account empty outcome.journal := by
  obtain ⟨script, hscript, h⟩ := bind_eq_ok.mp h
  obtain ⟨ended, hended, h⟩ := bind_eq_ok.mp h
  cases h
  have hspares := CodedRevm.spares hscript hcode huncreated
  have hnot := (huncreated script hscript).1
  have hrelates := relates_steady
    ⟨input.spec, input.env.chainId, input.registry⟩ input.database account
  suffices hstate : Signed input.database input.sender account empty ended.state from
    hstate.steady ((mild_setBalance _ _ _).trans (mild_setBalance _ _ _)).steady
  set paid := empty.debit input.database input.sender
    (input.transaction.gasLimit.toNat * effectiveGasPrice input.env input.transaction)
  have hpaid : Steady input.database account empty paid := (mild_setBalance _ _ _).steady
  -- a message call takes its nonce with the fees, a creation when it is made
  obtain ⟨hstart, hcharged⟩ : Signed input.database input.sender account empty
        (empty.chargeSender input.database input.env input.transaction input.sender) ∧
      ∀ charged, charge input.database (outerFrame input.sender)
        (topInvoke input.transaction script)
        (empty.chargeSender input.database input.env input.transaction input.sender)
          = some charged →
        Signed input.database input.sender account empty charged := by
    unfold chargeSender topInvoke
    cases input.transaction.recipient with
    | none =>
      refine ⟨hpaid.signed, fun charged hcharge => ?_⟩
      exact hpaid.then_signed (signed_charge account hcharge)
    | some recipient =>
      have hused : Signed input.database input.sender account paid (paid.set input.sender
          { paid.load input.database input.sender with
            nonce := (paid.load input.database input.sender).nonce + 1 }) :=
        signed_set account paid rfl rfl
      have hspares : SparesCall account (outerFrame input.sender)
        (.message .call recipient input.transaction.value input.transaction.input
          script.outOfGas) := trivial
      exact ⟨hpaid.then_signed hused, fun charged hcharge =>
        (hpaid.then_signed hused).steady (steady_charge hspares hcharge)⟩
  cases Machine.invoke_eq_ok (mapError_eq_ok.mp hended) with
  | refused => exact hstart
  | unentered hmade => exact hcharged _ hmade
  | @returned charged entered inner result hmade henter hran =>
    split
    · rename_i hok
      obtain ⟨rfl, hentered⟩ := steady_enter hnot henter
      have hbody := Machine.runFrame_relates hrelates
        (fun hinner => Machine.run_relates hrelates script.tree hspares hinner) hran hok
      exact (hcharged _ hmade).steady ((hentered.trans hbody).trans (steady_leave _ hnot))
    · exact hcharged _ hmade

end Transactions

/-! ## States -/

namespace ExecutionState

section States

variable [Keccak] {state after : ExecutionState} {account : Address}

/-- The code of an account, by its hash. -/
def readCodeHash (state : ExecutionState) (address : Address) : B256 :=
  ((state.readAccount address).map (·.codeHash)).getD KECCAK_EMPTY

/-- How changes may leave the leaf of an account: alone, removed, or as one of them has it. -/
def Overwrites (changes : List (Address × AccountChange)) (account : Address)
    (before after : Option (Option Bytes)) : Prop :=
  after = before ∨ after = some none ∨ ∃ change root, (account, change) ∈ changes ∧
    after = some (some (encodeAccount (changeAccount change root)))

/-- No changed address but the account's own has its key. -/
def KeyApart (changes : List (Address × AccountChange)) (account : Address) : Prop :=
  ∀ change ∈ changes, secureAccountKey change.1 = secureAccountKey account → change.1 = account

/-- One change writes the leaf of its own account. -/
theorem applyChange_overwrites {change : Address × AccountChange} {before after : Applying}
    (hkeys : secureAccountKey change.1 = secureAccountKey account → change.1 = account)
    (h : state.applyChange before change = .ok after) :
    after.overlay.base = before.overlay.base ∧ Overwrites [change] account
      before.overlay.writes[secureAccountKey account]?
      after.overlay.writes[secureAccountKey account]? := by
  have hother : ∀ value, change.1 ≠ account →
      (before.overlay.writes.insert (secureAccountKey change.1) value)[secureAccountKey
        account]? = before.overlay.writes[secureAccountKey account]? := by
    intro value hne
    rw [OrdMap.getElem?_insert, if_neg fun heq => hne (hkeys heq)]
  unfold applyChange at h
  split at h
  · cases h
    exact ⟨rfl, .inl rfl⟩
  split at h
  · cases h
    refine ⟨rfl, ?_⟩
    by_cases hown : change.1 = account
    · refine .inr (.inl ?_)
      rw [StateOverlay.deleteAccount, OrdMap.getElem?_insert, if_pos (congrArg _ hown)]
    · exact .inl (hother none hown)
  · obtain ⟨leaves, _, h⟩ := bind_eq_ok.mp h
    obtain ⟨storage, _, h⟩ := bind_eq_ok.mp h
    obtain ⟨code, _, h⟩ := bind_eq_ok.mp h
    cases h
    refine ⟨rfl, ?_⟩
    by_cases hown : change.1 = account
    · right
      rw [StateOverlay.setAccount, OrdMap.getElem?_insert, if_pos (congrArg _ hown)]
      by_cases hempty : (changeAccount change.2 storage.root).isEmpty = true
      · exact .inl (congrArg some (if_pos hempty))
      · refine .inr ⟨change.2, storage.root, ?_, congrArg some (if_neg hempty)⟩
        rw [← hown]
        exact List.mem_singleton_self change
    · exact .inl (hother _ hown)

variable {changes : List (Address × AccountChange)}

theorem applyAll_overwrites (hkeys : KeyApart changes account) :
    ∀ {before after : Applying}, state.applyAll changes before = .ok after →
      after.overlay.base = before.overlay.base ∧ Overwrites changes account
        before.overlay.writes[secureAccountKey account]?
        after.overlay.writes[secureAccountKey account]? := by
  induction changes with
  | nil =>
    intro before after h
    cases h
    exact ⟨rfl, .inl rfl⟩
  | cons change rest ih =>
    intro before after h
    obtain ⟨next, hnext, hrest⟩ := bind_eq_ok.mp h
    obtain ⟨hbase, hstep⟩ := applyChange_overwrites (hkeys change List.mem_cons_self)
      (mapError_eq_ok.mp hnext)
    obtain ⟨hbase', hrun⟩ := ih (fun change h => hkeys change (List.mem_cons_of_mem _ h)) hrest
    refine ⟨hbase'.trans hbase, ?_⟩
    rcases hrun with hkept | hremoved | ⟨later, root, hmem, hwritten⟩
    · rw [hkept]
      rcases hstep with hkept | hremoved | ⟨own, root, hmem, hwritten⟩
      · exact .inl hkept
      · exact .inr (.inl hremoved)
      · exact .inr (.inr ⟨own, root, List.mem_cons.mpr (.inl (List.mem_singleton.mp hmem)),
          hwritten⟩)
    · exact .inr (.inl hremoved)
    · exact .inr (.inr ⟨later, root, List.mem_cons_of_mem _ hmem, hwritten⟩)

/-- **An account after changes** is as before, gone, or as one of them has it. -/
theorem applyChanges_readAccount (hkeys : KeyApart changes account)
    (h : state.applyChanges changes = .ok after) :
    after.readAccount account = state.readAccount account ∨ after.readAccount account = none ∨
      ∃ change root, (account, change) ∈ changes ∧
        after.readAccount account = some (changeAccount change root) := by
  obtain ⟨applying, happlied, h⟩ := bind_eq_ok.mp h
  obtain ⟨⟨accounts, reachable⟩, hrebuild, h⟩ := bind_eq_ok.mp h
  cases h
  obtain ⟨committed, hcommit, hrebuild⟩ := bind_eq_ok.mp (mapError_eq_ok.mp hrebuild)
  obtain ⟨nodes, _, hrebuild⟩ := bind_eq_ok.mp hrebuild
  obtain ⟨extended, hextend, hrebuild⟩ := bind_eq_ok.mp hrebuild
  cases hrebuild
  obtain ⟨rfl, _⟩ := build_eq_ok (ofState_eq_ok.mp hcommit)
  obtain ⟨_, hleaves⟩ := extendNodes_eq_ok (ofState_eq_ok.mp hextend)
  obtain ⟨hbase, hwrites⟩ := applyAll_overwrites hkeys happlied
  have hleaf : accounts.leaves[secureAccountKey account]?
      = applying.overlay.writes[secureAccountKey account]?.getD
        state.accounts.leaves[secureAccountKey account]? := by
    rw [hleaves]
    change applying.overlay.merged[secureAccountKey account]? = _
    rw [StateOverlay.getElem?_merged, hbase]
    rfl
  rcases hwrites with hkept | hremoved | ⟨change, root, hmem, hwritten⟩
  · left
    have hnone : applying.overlay.writes[secureAccountKey account]? = none :=
      hkept.trans Std.ExtTreeMap.getElem?_empty
    rw [hnone, Option.getD_none] at hleaf
    simp only [readAccount, ExecutionState.account, hleaf]
  · rw [hremoved] at hleaf
    exact .inr (.inl (readAccount_of_no_leaf hleaf))
  · rw [hwritten] at hleaf
    exact .inr (.inr ⟨change, root, hmem, readAccount_of_leaf hleaf⟩)

/-- A transaction that spares an account: it creates no contract there, and changes no other
account with the same key. -/
structure Spares [Revm] (account : Address) (input : RevmInput) : Prop where
  uncreated : Uncreated account input
  apart : ∀ outcome, transact input = .ok outcome →
    KeyApart outcome.journal.accounts.toList account

theorem signed_applied [Revm] [CodedRevm]
    {env : DomainEnv} {spec : ProtocolSpec} {transaction : Eip1559Transaction} {sender : Address}
    {registry : Option ChainRegistryRuntime} {outcome : Transacted}
    (hran : transact ⟨env, spec, transaction, sender, state.database, registry⟩ = .ok outcome)
    (happlied : state.applyChanges outcome.journal.accounts.toList = .ok after)
    (hspares : Spares account ⟨env, spec, transaction, sender, state.database, registry⟩)
    (hcode : state.readCodeHash account = KECCAK_EMPTY) :
    after.readCodeHash account = KECCAK_EMPTY ∧ (after.readNonce account).toNat
      ≤ (state.readNonce account).toNat + if sender = account then 1 else 0 := by
  have hempty := load_empty state account
  have hsigned := transact_signed hran hspares.uncreated (by rw [hempty]; exact hcode)
  rcases applyChanges_readAccount (hspares.apart outcome hran) happlied with
    hsame | hnone | ⟨change, root, hmem, haccount⟩
  · rw [readCodeHash, readNonce, hsame]
    exact ⟨hcode, Nat.le_add_right _ _⟩
  · rw [readCodeHash, readNonce, hnone]
    exact ⟨rfl, Nat.zero_le _⟩
  · have hload : outcome.journal.load state.database account = change := by
      rw [load, Std.ExtTreeMap.mem_toList_iff_getElem?_eq_some.mp hmem]
      rfl
    rw [readCodeHash, readNonce, haccount]
    constructor
    · have hkept := hsigned.codeHash
      rw [hload, hempty] at hkept
      exact hkept.trans hcode
    · have hnonce := hsigned.nonce
      rw [hload, hempty] at hnonce
      exact hnonce

end States

end ExecutionState

/-! ## Batches -/

namespace Executor

section Batches

variable [Keccak] [Secp256k1] [Revm] {spec : ProtocolSpec} {env : DomainEnv}
  {registry : Option ChainRegistryExecutionContext} {account : Address}

/-- A nonce that a transaction of a batch has used. -/
def UsedBy (chainId : U64) (envelopes : List Bytes) (executed : List ExecutedTransaction)
    (account : Address) (nonce : U64) : Prop :=
  ∃ envelope ∈ envelopes, ∃ transaction transactionHash,
    Decoded chainId envelope transaction account transactionHash ∧ transaction.nonce = nonce ∧
      transactionHash ∈ executed.map (·.transactionHash)

theorem executeEnvelopes_reported {envelopes : List Bytes} {index : Nat}
    {progress after : Progress}
    (h : executeEnvelopes spec env registry index envelopes progress = .ok after) :
    ∀ transaction ∈ progress.executed, transaction ∈ after.executed := by
  refine executeEnvelopes_induct (P := fun reached =>
    ∀ transaction ∈ progress.executed, transaction ∈ reached.executed) ?_ (fun _ h => h) h
  intro index envelope reached next _ hreached hnext transaction hmem
  obtain ⟨run, hexecuted, _⟩ := executeEnvelope_eq_ok hnext
  rw [hexecuted]
  exact List.mem_append_left _ (hreached transaction hmem)

/-- **Used nonces.**  Every nonce that an account without code passes in a batch that spares
it was used by a transaction of the batch. -/
theorem executeEnvelopes_used [LawfulRevm] [CodedRevm] {envelopes : List Bytes} :
    ∀ {index : Nat} {progress after : Progress},
      executeEnvelopes spec env registry index envelopes progress = .ok after →
      (∀ input, Runs spec env registry index envelopes progress input →
        ExecutionState.Spares account input) →
      progress.state.readCodeHash account = KECCAK_EMPTY → ∀ nonce,
      progress.state.readNonce account ≤ nonce → nonce < after.state.readNonce account →
      UsedBy env.chainId envelopes after.executed account nonce := by
  induction envelopes with
  | nil =>
    intro index progress after h _ _ nonce hle hlt
    cases h
    exact absurd hlt (BitVec.not_lt.mpr hle)
  | cons envelope rest ih =>
    intro index progress after h hspares hcode nonce hle hlt
    obtain ⟨next, hnext, hrest⟩ := bind_eq_ok.mp h
    obtain ⟨run, hexecuted, _⟩ := executeEnvelope_eq_ok hnext
    have hran := runTransaction_eq_ok run.ran
    obtain ⟨hcode', hnonce⟩ := ExecutionState.signed_applied hran run.applied
      (hspares _ (.first run.decoded run.prepares)) hcode
    by_cases hlater : next.state.readNonce account ≤ nonce
    · obtain ⟨used, hused, h⟩ :=
        ih hrest (fun input h => hspares input (.later hnext h)) hcode' nonce hlater hlt
      exact ⟨used, List.mem_cons_of_mem _ hused, h⟩
    · -- then this very transaction has used it
      rw [BitVec.not_le, BitVec.lt_def] at hlater
      rw [BitVec.le_def] at hle
      have hown : run.sender = account := by
        by_contra hne
        rw [if_neg hne] at hnonce
        omega
      rw [if_pos hown] at hnonce
      obtain ⟨script, hscript, _⟩ := bind_eq_ok.mp hran
      have hstored := (LawfulRevm.nonce_eq hscript).1
      rw [ExecutionState.load_empty] at hstored
      change progress.state.readNonce run.sender = run.transaction.nonce at hstored
      refine ⟨envelope, List.mem_cons_self, run.transaction, run.transactionHash,
        hown ▸ decodeEnvelope_eq_ok run.decoded, ?_, ?_⟩
      · rw [← hstored, hown]
        exact BitVec.eq_of_toNat_eq (by omega)
      · refine List.mem_map.mpr ⟨run.executed, executeEnvelopes_reported hrest _ ?_, rfl⟩
        rw [hexecuted]
        exact List.mem_append_right _ (List.mem_singleton_self _)

end Batches

end Executor

end Arbor
