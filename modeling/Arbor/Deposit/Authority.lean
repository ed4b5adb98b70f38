import Arbor.Consensus.Genesis
import Arbor.Evm.RegistryWords

/-!
# Who may move a deposit

A refund or burn that changes a deposit is authorised by the caller of its frame.  For a
plain call the caller is the account that made the call and the target is the registry;
a frame reached by `DELEGATECALL` has the caller of the delegating contract, and one
reached by `CALLCODE` acts for the calling contract.  `deposit_authority` says that these
two are the only ways around the rule.
-/

namespace Arbor

open Result SystemContract ArborPrecompiles

/-- What the machine guarantees of frames: a plain call runs its target and moves value,
a static call is static. -/
structure CallFrame (frame : Frame) : Prop where
  plain : frame.scheme = .call →
    frame.target = frame.bytecodeAddress ∧ ∃ value, frame.value = .transfer value
  static : frame.scheme = .staticCall → frame.isStatic = true

theorem callFrame_messageFrame (frame : Frame) (scheme : CallScheme) (address : Address)
    (value : U256) (input : Bytes) (outOfGas : Bool) :
    CallFrame (Journal.messageFrame frame scheme address value input outOfGas) := by
  cases scheme with
  | call => exact ⟨fun _ => ⟨rfl, value, rfl⟩, nofun⟩
  | callCode => exact ⟨nofun, nofun⟩
  | delegateCall => exact ⟨nofun, nofun⟩
  | staticCall => exact ⟨nofun, fun _ => rfl⟩
  | create => exact ⟨fun _ => ⟨rfl, value, rfl⟩, nofun⟩

section Authority

variable [Keccak]

theorem callFrame_enter {db : Database} {frame inner : Frame} {invoke : Invoke}
    {journal entered : Journal}
    (h : Journal.enter db frame invoke journal = some (inner, entered)) : CallFrame inner := by
  cases invoke with
  | message scheme address value input outOfGas =>
    obtain ⟨_, _, heq⟩ := Option.map_eq_some_iff.mp h
    cases heq
    exact callFrame_messageFrame frame scheme address value input outOfGas
  | create address value code =>
    obtain ⟨_, _, heq⟩ := Option.map_eq_some_iff.mp h
    cases heq
    exact ⟨nofun, nofun⟩

variable (precompiles : ArborPrecompiles)

theorem callFrame_preserves (db : Database) :
    Machine.Preserves (precompiles.machine db) (fun _ => True) CallFrame (fun _ => True) where
  step _ _ _ _ := trivial
  charge _ _ _ _ := trivial
  enter _ _ _ _ henter := ⟨callFrame_enter henter, trivial⟩
  native _ _ _ _ := trivial
  leave _ _ := trivial

theorem outerFrame_not_native (db : Database) (sender : Address) :
    (precompiles.machine db).native (outerFrame sender) = none := rfl

/-- A frame that changed the amount or status of a deposit through the refund or burn
entry point. -/
structure ChangesDeposit (precompiles : ArborPrecompiles) (db : Database) (frame : Frame)
    (before after : Journal) (domainId : DomainId) (burn : Bool) : Prop where
  registry : frame.bytecodeAddress = CHAIN_REGISTRY_ADDRESS
  entry : lifecycleCall frame.input = some (domainId, burn)
  succeeded : ∃ effect, (precompiles.machine db).native frame = some effect ∧
    effect before = .ok (after, true)
  changed :
    after.sload db CHAIN_REGISTRY_ADDRESS (depositSlot domainId)
        ≠ before.sload db CHAIN_REGISTRY_ADDRESS (depositSlot domainId) ∨
      after.sload db CHAIN_REGISTRY_ADDRESS (depositStatusSlot domainId)
        ≠ before.sload db CHAIN_REGISTRY_ADDRESS (depositStatusSlot domainId)

/-- The rule for deposits: a call of the registry itself, without value, by governance for
a burn and by the unlocked owner for a refund. -/
structure Authorized (governance : Address) (height : ConsensusHeight) (db : Database)
    (frame : Frame) (before : Journal) (domainId : DomainId) (burn : Bool) : Prop where
  plain : frame.scheme = .call
  notStatic : frame.isStatic = false
  noValue : frame.value = .transfer 0
  target : frame.target = CHAIN_REGISTRY_ADDRESS
  burner : burn = true → frame.caller = governance
  owner : burn = false → ∃ ownerWord unlockHeight,
    before.sload db CHAIN_REGISTRY_ADDRESS (ownerSlot domainId) = .ok ownerWord ∧
    frame.caller = wordAddress ownerWord ∧
    before.sload db CHAIN_REGISTRY_ADDRESS (depositUnlockSlot domainId) = .ok unlockHeight ∧
    unlockHeight.toNat ≤ height.toNat

variable [Revm]

theorem transact_natives {input : RevmInput} {outcome : Transacted}
    (h : transact input = .ok outcome) : ∀ start ∈ outcome.natives, CallFrame start.1 := by
  obtain ⟨script, _, h⟩ := bind_eq_ok.mp h
  obtain ⟨result, hresult, h⟩ := bind_eq_ok.mp h
  cases h
  intro start hstart
  have houter : CallFrame (outerFrame input.sender) :=
    ⟨nofun, nofun⟩
  obtain ⟨_, hsound⟩ := Machine.invoke_run_preserves (callFrame_preserves _ _)
    (CallTree.calls_of_forall (fun _ => trivial) _) trivial houter
    (outerFrame_not_native _ _ _) trivial (mapError_eq_ok.mp hresult)
  exact (hsound.2 start hstart).1

variable [Secp256k1] [OrderedTrie]

/-- **Deposit authority.**  In every transaction on the root domain of a reachable chain, a
frame that changes a deposit keeps the rule exactly if it was not reached by `DELEGATECALL`
or `CALLCODE`. -/
theorem deposit_authority {genesis : DevGenesis} {chain : FinalizedChainState}
    (hreach : Reachable genesis chain) {state : ExecutionState} {spec : ProtocolSpec}
    {env : DomainEnv} {transaction : Eip1559Transaction} {sender : Address}
    {height : ConsensusHeight} {prepared : Option PreparedChainCreation}
    {registry : Option ChainRegistryRuntime} {outcome : Transacted} {frame : Frame}
    {before after : Journal} {domainId : DomainId} {burn : Bool}
    (hregistry : registry = Executor.registryRuntime
      (some (ChainMachine.registryContext chain height chain.rootDomainId)) prepared)
    (hrun : runTransaction state spec env transaction sender registry = .ok outcome)
    (hframe : (frame, before) ∈ outcome.natives)
    (hchange : ChangesDeposit ⟨spec, env.chainId, registry⟩ state.database frame before after
      domainId burn) :
    Authorized genesis.governanceAddress height state.database frame before domainId burn ↔
      frame.scheme ≠ .delegateCall ∧ frame.scheme ≠ .callCode := by
  constructor
  · intro h
    rw [h.plain]
    exact ⟨by decide, by decide⟩
  · intro hscheme
    have hcall : CallFrame frame := transact_natives (runTransaction_eq_ok hrun) _ hframe
    obtain ⟨hcreate, result, hran, hok, _⟩ :=
      (machine_native_registry _ hchange.registry).mp hchange.succeeded
    obtain ⟨runtime, hruntime, _, hcases⟩ := runChainRegistry_success hran hok
    have hgovernance : runtime.governanceAddress = genesis.governanceAddress := by
      have hidentity := hreach.identity
      rw [hregistry] at hruntime
      cases hruntime
      exact congrArg (fun identity => identity.2.2) hidentity
    have hheight : runtime.consensusHeight = height := by
      rw [hregistry] at hruntime
      cases hruntime
      rfl
    have hsettled : Settled state.database frame runtime domainId burn before after := by
      rcases hcases with ⟨hcreate, _⟩ | ⟨calledId, calledBurn, hentry, hsettled⟩
      · have hentry := hchange.entry
        rw [lifecycleCall, if_pos hcreate] at hentry
        cases hentry
      · rw [hchange.entry] at hentry
        cases hentry
        exact hsettled
    have hplain : frame.scheme = .call := by
      cases hkind : frame.scheme with
      | call => rfl
      | callCode => exact absurd hkind hscheme.2
      | delegateCall => exact absurd hkind hscheme.1
      | staticCall =>
        have hstatic := hcall.static hkind
        rw [hsettled.notStatic] at hstatic
        cases hstatic
      | create => exact absurd hkind hcreate
    obtain ⟨htarget, value, hvalue⟩ := hcall.plain hplain
    have hzero : value = 0 := by
      have hnone := hsettled.noValue
      unfold Frame.transfersValue at hnone
      rw [hvalue] at hnone
      simpa using hnone
    obtain ⟨deposit, recipient, status, _, _, hentitled, _⟩ := hsettled.payment
    refine ⟨hplain, hsettled.notStatic, by rw [hvalue, hzero], htarget.trans hchange.registry, ?_,
      ?_⟩
    · intro hburn
      cases hentitled with
      | burn hcaller => exact hcaller.trans hgovernance
      | refund => cases hburn
    · intro hburn
      cases hentitled with
      | burn => cases hburn
      | refund unlockHeight ownerWord hunlock hheight' howner hcaller =>
        exact ⟨ownerWord, unlockHeight, howner, hcaller, hunlock, hheight ▸ hheight'⟩

end Authority

section Sample

attribute [local instance] rollingKeccak ChainMachine.sampleCurve ChainMachine.sampleTrie

@[reducible] def forwardingRevm : Revm where
  script input := .ok
    { tree := if input.transaction.recipient = some 0xc0de then
        .call (.message .delegateCall CHAIN_REGISTRY_ADDRESS 0
          (encodeDomainIdCall burnDepositSelector 7) false) (.done true) (.done true)
        else .done true
      outOfGas := false
      gasUsed := 70000
      output := []
      createdAddress := 0
      createdCode := [] }
  intrinsicGas _ := 21000

attribute [local instance] forwardingRevm

def depositGenesis : DevGenesis :=
  sampleGenesis (((∅ : BTreeMap Address GenesisAccount).insert 0xfef
    ⟨0, 1000000000000000000000000, [], ∅⟩).insert CHAIN_REGISTRY_ADDRESS
      ⟨0, 5, [], ((∅ : BTreeMap U256 U256).insert (depositSlot 7) 5).insert (depositStatusSlot 7)
        1⟩)

def sampleEnv : DomainEnv := ⟨2048, 1, 1700000001, 0xfee, 30000000, 1000000000, 3⟩

def governanceCall (recipient : Address) (input : Bytes) : Eip1559Transaction :=
  ⟨2048, 0, 0, 2000000000, 100000, some recipient, 0, input, [], false, 1, 1⟩

def BurnExhibited (transaction : Eip1559Transaction) (scheme : CallScheme) : Prop :=
  ∃ chain root registry outcome frame before after,
    Reachable depositGenesis chain ∧ chain.domains[chain.rootDomainId]? = some root ∧
    registry = Executor.registryRuntime
      (some (ChainMachine.registryContext chain 1 chain.rootDomainId)) none ∧
    runTransaction root.state .V1 sampleEnv transaction 0xfef registry = .ok outcome ∧
    (frame, before) ∈ outcome.natives ∧ frame.scheme = scheme ∧
    ChangesDeposit ⟨.V1, sampleEnv.chainId, registry⟩ root.state.database frame before after 7 true

def burnsDeposit (db : Database) (registry : Option ChainRegistryRuntime) (scheme : CallScheme)
    (start : Frame × Journal) : Bool :=
  match runChainRegistry db registry start.1 start.2 with
  | .error _ => false
  | .ok (after, result) =>
    start.1.scheme = scheme ∧ start.1.scheme ≠ .create ∧
      start.1.bytecodeAddress = CHAIN_REGISTRY_ADDRESS ∧
      lifecycleCall start.1.input = some (7, true) ∧
      (result.success && !start.1.outOfGas) = true ∧
      start.2.sload db CHAIN_REGISTRY_ADDRESS (depositSlot 7) = .ok 5 ∧
      after.sload db CHAIN_REGISTRY_ADDRESS (depositSlot 7) = .ok 0

def exhibitsBurn (transaction : Eip1559Transaction) (scheme : CallScheme) : Bool :=
  match depositGenesis.chainState with
  | .error _ => false
  | .ok chain =>
    match chain.domains[chain.rootDomainId]? with
    | none => false
    | some root =>
      let registry := Executor.registryRuntime
        (some (ChainMachine.registryContext chain 1 chain.rootDomainId)) none
      match runTransaction root.state .V1 sampleEnv transaction 0xfef registry with
      | .error _ => false
      | .ok outcome => outcome.natives.any (burnsDeposit root.state.database registry scheme)

theorem burnExhibited_of_eval {transaction : Eip1559Transaction} {scheme : CallScheme}
    (h : exhibitsBurn transaction scheme = true) : BurnExhibited transaction scheme := by
  unfold exhibitsBurn at h
  cases hchain : depositGenesis.chainState with
  | error e => simp [hchain] at h
  | ok chain =>
    simp only [hchain] at h
    cases hroot : chain.domains[chain.rootDomainId]? with
    | none => simp [hroot] at h
    | some root =>
      simp only [hroot] at h
      split at h
      · cases h
      · rename_i outcome hrun
        obtain ⟨start, hmem, hburns⟩ := List.any_eq_true.mp h
        unfold burnsDeposit at hburns
        split at hburns
        · cases hburns
        · rename_i after result hregistry
          simp only [decide_eq_true_eq] at hburns
          obtain ⟨hscheme, hcreate, haddress, hentry, hsuccess, hfirst, hlast⟩ := hburns
          rw [Bool.and_eq_true, Bool.not_eq_true'] at hsuccess
          have hsucceeded := (machine_native_registry ⟨.V1, sampleEnv.chainId, _⟩ haddress).mpr
            ⟨hcreate, result, hregistry, hsuccess⟩
          refine ⟨chain, root, _, outcome, start.1, start.2, after, .genesis hchain, hroot,
            rfl, hrun, hmem, hscheme, haddress, hentry, hsucceeded, Or.inl ?_⟩
          rw [hfirst, hlast]
          simp

/-- Governance calls the registry. -/
theorem deposit_authority_direct_call : ∃ frame before db, frame.scheme = .call ∧
      Authorized 0xfef 1 db frame before 7 true := by
  have h : exhibitsBurn (governanceCall CHAIN_REGISTRY_ADDRESS
      (encodeDomainIdCall burnDepositSelector 7)) .call = true := by decide +kernel
  obtain ⟨chain, root, registry, outcome, frame, before, after, hreach, _, hregistry, hrun, hframe,
    hscheme, hchange⟩ := burnExhibited_of_eval h
  refine ⟨frame, before, root.state.database, hscheme, ?_⟩
  refine (deposit_authority hreach hregistry hrun hframe hchange).mpr ?_
  rw [hscheme]
  exact ⟨by decide, by decide⟩

/-- **A delegated burn.**  Governance calls a contract, which burns a deposit by
`DELEGATECALL`. -/
theorem delegated_burn_not_authorized : ∃ chain root registry outcome frame before after,
      Reachable depositGenesis chain ∧ chain.domains[chain.rootDomainId]? = some root ∧
      registry = Executor.registryRuntime
        (some (ChainMachine.registryContext chain 1 chain.rootDomainId)) none ∧
      runTransaction root.state .V1 sampleEnv (governanceCall 0xc0de []) 0xfef registry
        = .ok outcome ∧
      (frame, before) ∈ outcome.natives ∧
      ChangesDeposit ⟨.V1, sampleEnv.chainId, registry⟩ root.state.database frame before after 7
        true ∧
      ¬Authorized depositGenesis.governanceAddress 1 root.state.database frame before 7 true := by
  have h : exhibitsBurn (governanceCall 0xc0de []) .delegateCall = true := by decide +kernel
  obtain ⟨chain, root, registry, outcome, frame, before, after, hreach, hroot, hregistry, hrun,
    hframe, hscheme, hchange⟩ := burnExhibited_of_eval h
  refine ⟨chain, root, registry, outcome, frame, before, after, hreach, hroot, hregistry, hrun,
    hframe, hchange, ?_⟩
  intro hauthorized
  rw [hauthorized.plain] at hscheme
  cases hscheme

end Sample

end Arbor
