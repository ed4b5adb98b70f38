import Arbor.Evm.Registry

/-!
# What a successful registry call has done

One inversion lemma for each native call: if it succeeds, which checks passed and how
the journal changed.  `runChainRegistry_success` is the case distinction the results
about deposits start from: a successful call is a creation, a refund or a burn.
-/

namespace Arbor

open Result SystemContract

namespace ArborPrecompiles

theorem registryRevert_eq_ok {journal after : Journal} {message : String} {result : NativeResult}
    (h : registryRevert journal message = .ok (after, result)) :
    after = journal ∧ result.success = false ∧ result.output = ascii message := by
  cases h
  exact ⟨rfl, rfl, rfl⟩

/-- No revert is a success. -/
theorem registryRevert_success {journal after : Journal} {message : String}
    {result : NativeResult} (h : registryRevert journal message = .ok (after, result))
    (hsuccess : result.success = true) : False := by
  rw [(registryRevert_eq_ok h).2.1] at hsuccess
  cases hsuccess

section Inversions

variable [Keccak] {db : Database}

variable {journal after : Journal} {frame : Frame} {runtime : ChainRegistryRuntime}
  {domainId : DomainId} {result : NativeResult}

theorem lookup_eq_ok {slot word : U256} {what : String} : lookup db journal slot what = .ok word ↔
      journal.sload db CHAIN_REGISTRY_ADDRESS slot = .ok word :=
  mapError_eq_ok

/-- Who may move a deposit, and to whom. -/
inductive Entitled (db : Database) (frame : Frame) (runtime : ChainRegistryRuntime)
    (journal : Journal) (domainId : DomainId) :
    Bool → Address → CreationDepositStatus → Prop
  | burn : frame.caller = runtime.governanceAddress →
      Entitled db frame runtime journal domainId true 0 .burned
  | refund (unlockHeight ownerWord : U256) :
      journal.sload db CHAIN_REGISTRY_ADDRESS (depositUnlockSlot domainId) = .ok unlockHeight →
      unlockHeight.toNat ≤ runtime.consensusHeight.toNat →
      journal.sload db CHAIN_REGISTRY_ADDRESS (ownerSlot domainId) = .ok ownerWord →
      frame.caller = wordAddress ownerWord →
      Entitled db frame runtime journal domainId false (wordAddress ownerWord) .refunded

variable {status : CreationDepositStatus}

theorem authorize_eq_ok {burn : Bool} {recipient : Address} {event : B256}
    (h : authorize db frame runtime journal domainId burn = .ok (.ok (recipient, status, event))) :
    Entitled db frame runtime journal domainId burn recipient status := by
  unfold authorize at h
  cases burn with
  | true =>
    by_cases hcaller : frame.caller = runtime.governanceAddress
    · simp only [hcaller, ne_eq, not_true_eq_false, if_false, if_true] at h
      cases h
      exact .burn hcaller
    · simp only [hcaller, ne_eq, not_false_eq_true, if_true] at h
      cases h
  | false =>
    obtain ⟨unlockHeight, hunlock, h⟩ := bind_eq_ok.mp h
    rw [lookup_eq_ok] at hunlock
    by_cases hheight : runtime.consensusHeight.toNat < unlockHeight.toNat
    · rw [if_pos hheight] at h
      cases h
    · rw [if_neg hheight] at h
      obtain ⟨ownerWord, howner, h⟩ := bind_eq_ok.mp h
      rw [lookup_eq_ok] at howner
      by_cases hcaller : frame.caller = wordAddress ownerWord
      · rw [if_neg (not_not.mpr hcaller)] at h
        cases h
        exact .refund unlockHeight ownerWord hunlock (by omega) howner hcaller
      · rw [if_pos hcaller] at h
        cases h

/-- The payment of a deposit: the movement of balance, the two words, the log. -/
structure Paid (db : Database) (domainId : DomainId) (deposit : U256) (recipient : Address)
    (status : CreationDepositStatus) (before after : Journal) : Prop where
  moved : ∃ paid cleared recorded topics data,
    before.transfer db CHAIN_REGISTRY_ADDRESS recipient deposit = some paid ∧
    paid.sstore db CHAIN_REGISTRY_ADDRESS (depositSlot domainId) 0 = .ok cleared ∧
    cleared.sstore db CHAIN_REGISTRY_ADDRESS (depositStatusSlot domainId) status.word
      = .ok recorded ∧
    after = addLog recorded topics data

theorem writeWords_singleton {what : String} {slot value : U256} :
    writeWords db what [(slot, value)] journal = .ok after ↔
      journal.sstore db CHAIN_REGISTRY_ADDRESS slot value = .ok after := by
  unfold writeWords
  rw [bind_eq_ok]
  constructor
  · intro h
    obtain ⟨next, hnext, hend⟩ := h
    cases hend
    exact mapError_eq_ok.mp hnext
  · intro h
    exact ⟨after, mapError_eq_ok.mpr h, rfl⟩

theorem payDeposit_success {deposit : U256} {recipient : Address} {event : B256}
    (h : payDeposit db frame journal domainId deposit recipient status event = .ok (after, result))
    (hsuccess : result.success = true) :
    Paid db domainId deposit recipient status journal after := by
  unfold payDeposit at h
  cases hmove : journal.transfer db CHAIN_REGISTRY_ADDRESS recipient deposit with
  | none =>
    rw [hmove] at h
    exact (registryRevert_success h hsuccess).elim
  | some paid =>
    rw [hmove] at h
    obtain ⟨cleared, hcleared, h⟩ := bind_eq_ok.mp h
    obtain ⟨recorded, hrecorded, h⟩ := bind_eq_ok.mp h
    cases h
    exact ⟨paid, cleared, recorded, _, _, hmove, writeWords_singleton.mp hcleared,
      writeWords_singleton.mp hrecorded, rfl⟩

structure Settled (db : Database) (frame : Frame) (runtime : ChainRegistryRuntime)
    (domainId : DomainId) (burn : Bool) (before after : Journal) : Prop where
  notStatic : frame.isStatic = false
  noValue : frame.transfersValue = false
  locked : before.sload db CHAIN_REGISTRY_ADDRESS (depositStatusSlot domainId)
    = .ok CreationDepositStatus.locked.word
  payment : ∃ deposit recipient status,
    before.sload db CHAIN_REGISTRY_ADDRESS (depositSlot domainId) = .ok deposit ∧ deposit ≠ 0 ∧
    Entitled db frame runtime before domainId burn recipient status ∧
    Paid db domainId deposit recipient status before after

theorem runDepositLifecycle_success {burn : Bool}
    (h : runDepositLifecycle db frame runtime domainId burn journal = .ok (after, result))
    (hsuccess : result.success = true) : Settled db frame runtime domainId burn journal after := by
  unfold runDepositLifecycle at h
  by_cases hcall : frame.isStatic = true ∨ frame.transfersValue = true
  · rw [if_pos hcall] at h
    exact (registryRevert_success h hsuccess).elim
  · rw [if_neg hcall] at h
    rw [not_or, Bool.not_eq_true, Bool.not_eq_true] at hcall
    obtain ⟨status, hstatus, h⟩ := bind_eq_ok.mp h
    rw [lookup_eq_ok] at hstatus
    by_cases hlocked : status = CreationDepositStatus.locked.word
    · rw [if_neg (not_not.mpr hlocked)] at h
      rw [hlocked] at hstatus
      obtain ⟨deposit, hdeposit, h⟩ := bind_eq_ok.mp h
      rw [lookup_eq_ok] at hdeposit
      by_cases hzero : deposit = 0
      · rw [if_pos hzero] at h
        exact (registryRevert_success h hsuccess).elim
      · rw [if_neg hzero] at h
        obtain ⟨decision, hdecision, h⟩ := bind_eq_ok.mp h
        cases decision with
        | error message => exact (registryRevert_success h hsuccess).elim
        | ok decided =>
          obtain ⟨recipient, nextStatus, event⟩ := decided
          exact ⟨hcall.1, hcall.2, hstatus, deposit, recipient, nextStatus, hdeposit, hzero,
            authorize_eq_ok hdecision, payDeposit_success h hsuccess⟩
    · rw [if_pos hlocked] at h
      exact (registryRevert_success h hsuccess).elim

/-- A creation that succeeded: the call was the prepared one, the parent is known, the
domain and its chain ID are not, and the seven words are written. -/
structure Created (db : Database) (frame : Frame) (prepared : PreparedChainCreation)
    (before after : Journal) : Prop where
  notStatic : frame.isStatic = false
  value : frame.transferValue = some prepared.descriptor.creationDeposit
  parent : ∃ word, word ≠ 0 ∧ before.sload db CHAIN_REGISTRY_ADDRESS
    (descriptorSlot prepared.descriptor.parentDomainId) = .ok word
  fresh : before.sload db CHAIN_REGISTRY_ADDRESS
    (descriptorSlot prepared.descriptor.domainId) = .ok 0
  unused : before.sload db CHAIN_REGISTRY_ADDRESS
    (chainIdSlot prepared.descriptor.evmChainId) = .ok 0
  written : ∃ what recorded topics data,
    writeWords db what (creationStorageWrites prepared) before = .ok recorded ∧
    after = addLog recorded topics data

theorem runCreateChain_success (h : runCreateChain db frame runtime journal = .ok (after, result))
    (hsuccess : result.success = true) : ∃ prepared, runtime.preparedCreation = some prepared ∧
      Created db frame prepared journal after := by
  unfold runCreateChain at h
  cases hprepared : runtime.preparedCreation with
  | none =>
    rw [hprepared] at h
    exact (registryRevert_success h hsuccess).elim
  | some prepared =>
    simp only [hprepared] at h
    cases hcalldata : encodeCreateChainCall prepared.request with
    | error e =>
      rw [hcalldata] at h
      cases h
    | ok calldata =>
      simp only [hcalldata] at h
      split at h
      · exact (registryRevert_success h hsuccess).elim
      · rename_i hcall
        simp only [not_or, not_not, Bool.not_eq_true] at hcall
        obtain ⟨parent, hparent, h⟩ := bind_eq_ok.mp h
        rw [lookup_eq_ok] at hparent
        by_cases hunknown : parent = 0
        · rw [if_pos hunknown] at h
          exact (registryRevert_success h hsuccess).elim
        · rw [if_neg hunknown] at h
          obtain ⟨domain, hdomain, h⟩ := bind_eq_ok.mp h
          rw [lookup_eq_ok] at hdomain
          by_cases hfresh : domain = 0
          · rw [if_neg (not_not.mpr hfresh)] at h
            rw [hfresh] at hdomain
            obtain ⟨chain, hchain, h⟩ := bind_eq_ok.mp h
            rw [lookup_eq_ok] at hchain
            by_cases hunused : chain = 0
            · rw [if_neg (not_not.mpr hunused)] at h
              rw [hunused] at hchain
              obtain ⟨recorded, hrecorded, h⟩ := bind_eq_ok.mp h
              cases h
              exact ⟨prepared, rfl, hcall.1, hcall.2.2, ⟨parent, hunknown, hparent⟩, hdomain,
                hchain, _, recorded, _, _, hrecorded, rfl⟩
            · rw [if_pos hunused] at h
              exact (registryRevert_success h hsuccess).elim
          · rw [if_pos hfresh] at h
            exact (registryRevert_success h hsuccess).elim

/-- The deposit entry point that calldata reaches, and whether it burns. -/
def lifecycleCall (input : Bytes) : Option (DomainId × Bool) :=
  if createChainSelector.isPrefixOf input then none
  else
    match decodeRefundDepositCall input, decodeBurnDepositCall input with
    | some domainId, _ => some (domainId, false)
    | none, some domainId => some (domainId, true)
    | none, none => none

/-- **A successful registry call** is a creation on the root domain, or a refund or burn
that calldata asks for. -/
theorem runChainRegistry_success {registry : Option ChainRegistryRuntime}
    (h : runChainRegistry db registry frame journal = .ok (after, result))
    (hsuccess : result.success = true) :
    ∃ runtime, registry = some runtime ∧ runtime.executingDomainId = runtime.rootDomainId ∧
      ((createChainSelector.isPrefixOf frame.input = true ∧
          ∃ prepared, runtime.preparedCreation = some prepared ∧
            Created db frame prepared journal after) ∨
        ∃ domainId burn, lifecycleCall frame.input = some (domainId, burn) ∧
          Settled db frame runtime domainId burn journal after) := by
  unfold runChainRegistry at h
  cases registry with
  | none => exact (registryRevert_success h hsuccess).elim
  | some runtime =>
    refine ⟨runtime, rfl, ?_⟩
    by_cases hroot : runtime.executingDomainId = runtime.rootDomainId
    · refine ⟨hroot, ?_⟩
      simp only [hroot, ne_eq, not_true_eq_false, if_false] at h
      unfold lifecycleCall
      by_cases hcreate : createChainSelector.isPrefixOf frame.input = true
      · rw [if_pos hcreate] at h
        exact Or.inl ⟨hcreate, runCreateChain_success h hsuccess⟩
      · rw [if_neg hcreate] at h
        rw [if_neg hcreate]
        right
        cases hrefund : decodeRefundDepositCall frame.input with
        | some domainId =>
          simp only [hrefund] at h
          exact ⟨domainId, false, rfl, runDepositLifecycle_success h hsuccess⟩
        | none =>
          cases hburn : decodeBurnDepositCall frame.input with
          | some domainId =>
            simp only [hrefund, hburn] at h
            exact ⟨domainId, true, rfl, runDepositLifecycle_success h hsuccess⟩
          | none =>
            simp only [hrefund, hburn] at h
            exact (registryRevert_success h hsuccess).elim
    · simp only [ne_eq, hroot, not_false_eq_true, if_true] at h
      exact (registryRevert_success h hsuccess).elim

end Inversions

end ArborPrecompiles

end Arbor
