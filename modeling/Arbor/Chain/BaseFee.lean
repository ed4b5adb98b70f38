import Arbor.Chain.Machine

/-!
# Base fees and the virtual machine's word

The virtual machine takes base fees below `2 ^ 64`.  Genesis and the registry admit initial
fees up to that bound, and a block raises the fee by up to an eighth of it, or more where
the gas limit is odd and small.  A block keeps its domain's next fee within the bound
whatever gas it uses exactly if the fee has the headroom of one full block
(`hasHeadroom_iff`), and what is within the bound does not fail for its fee
(`throws_executeDomain`).
-/

namespace Arbor

open Result

namespace ChainMachine

variable {header : DomainBlockHeader} {fee delta target more : Nat}

def fullFee (limit fee : Nat) : Nat := fee + max (fee * (limit - limit / 2) / (limit / 2) / 8) 1

theorem nextBaseFee_le_of_idle (h : header.gasUsed.toNat ≤ header.gasLimit.toNat / 2) :
    (nextBaseFee header).toNat ≤ header.baseFeePerGas.toNat := by
  unfold nextBaseFee
  dsimp only
  split
  · exact le_rfl
  · rw [if_neg (by omega)]
    exact (Nat.mod_le _ _).trans (Nat.sub_le _ _)

/-- No block raises the fee more than a full one. -/
theorem nextBaseFee_le_fullFee (h : header.gasUsed.toNat ≤ header.gasLimit.toNat) :
    (nextBaseFee header).toNat
      ≤ fullFee header.gasLimit.toNat header.baseFeePerGas.toNat := by
  by_cases hidle : header.gasUsed.toNat ≤ header.gasLimit.toNat / 2
  · exact (nextBaseFee_le_of_idle hidle).trans (Nat.le_add_right _ _)
  · unfold nextBaseFee fullFee
    dsimp only
    split
    · exact Nat.le_add_right _ _
    · rw [if_pos (by omega)]
      refine (Nat.mod_le _ _).trans ((Nat.min_le_left _ _).trans ?_)
      have hdelta : header.baseFeePerGas.toNat * (header.gasUsed.toNat - header.gasLimit.toNat / 2)
          ≤ header.baseFeePerGas.toNat * (header.gasLimit.toNat - header.gasLimit.toNat / 2) :=
        Nat.mul_le_mul_left _ (by omega)
      have hraise := Nat.div_le_div_right (c := 8) (Nat.div_le_div_right
        (c := header.gasLimit.toNat / 2) ((Nat.min_le_left _ (2 ^ 128 - 1)).trans hdelta))
      omega

/-- An eighth of the fee for every target of gas. -/
def feeChange (fee delta target : Nat) : Nat := fee * delta / (8 * target)

/-- The fee after a block over unbounded integers. -/
def feeAfter (limit used fee : Nat) : Nat :=
  if used = limit / 2 then fee
  else if limit / 2 < used then fee + max 1 (feeChange fee (used - limit / 2) (limit / 2))
  else fee - feeChange fee (limit / 2 - used) (limit / 2)

theorem feeChange_le {k : Nat} (htarget : target ≠ 0) (h : delta ≤ k * target) :
    feeChange fee delta target ≤ fee * k / 8 := by
  calc fee * delta / (8 * target) ≤ fee * (k * target) / (8 * target) :=
        Nat.div_le_div_right (Nat.mul_le_mul_left _ h)
    _ = fee * k / 8 := by
        rw [← Nat.mul_assoc, Nat.mul_div_mul_right _ _ (Nat.pos_of_ne_zero htarget)]

theorem feeChange_mono {fee' delta' : Nat} (hfee : fee ≤ fee') (hdelta : delta ≤ delta') :
    feeChange fee delta target ≤ feeChange fee' delta' target :=
  Nat.div_le_div_right (Nat.mul_le_mul hfee hdelta)

theorem feeChange_add_le (htarget : target ≠ 0) (h : delta ≤ 8 * target) :
    feeChange (fee + more) delta target ≤ feeChange fee delta target + more := by
  rw [feeChange, feeChange, ← Nat.add_mul_div_right _ _ (show 0 < 8 * target by omega), Nat.add_mul]
  exact Nat.div_le_div_right (Nat.add_le_add_left (Nat.mul_le_mul_left more h) _)

/-- On fees and gas of 64 bits nothing saturates. -/
theorem nextBaseFee_eq (htarget : header.gasLimit.toNat / 2 ≠ 0)
    (hused : header.gasUsed.toNat ≤ header.gasLimit.toNat)
    (hfee : header.baseFeePerGas.toNat < 2 ^ 64) : (nextBaseFee header).toNat
      = feeAfter header.gasLimit.toNat header.gasUsed.toNat header.baseFeePerGas.toNat := by
  have hproduct {delta : Nat} (h : delta ≤ 2 ^ 64) :
      min (header.baseFeePerGas.toNat * delta) (2 ^ 128 - 1) / (header.gasLimit.toNat / 2) / 8
        = feeChange header.baseFeePerGas.toNat delta (header.gasLimit.toNat / 2) := by
    have hsmall := Nat.mul_le_mul (Nat.le_sub_one_of_lt hfee) h
    rw [Nat.min_eq_left (by omega), Nat.div_div_eq_div_mul, Nat.mul_comm _ 8, feeChange]
  unfold nextBaseFee feeAfter
  by_cases hsame : header.gasUsed.toNat = header.gasLimit.toNat / 2
  · rw [if_pos (.inr hsame), if_pos hsame]
  · rw [if_neg (by omega)]
    split
    · rename_i hover
      have hraise : feeChange header.baseFeePerGas.toNat
          (header.gasUsed.toNat - header.gasLimit.toNat / 2) (header.gasLimit.toNat / 2)
          ≤ header.baseFeePerGas.toNat * 2 / 8 := feeChange_le htarget (by omega)
      rw [hproduct (by omega), BitVec.toNat_ofNat, Nat.max_comm, Nat.min_eq_left (by omega)]
      exact Nat.mod_eq_of_lt (by omega)
    · rw [hproduct (by omega)]
      exact Nat.mod_eq_of_lt (by omega)

theorem feeAfter_mono_used {limit used : Nat} (h : used ≤ more) :
    feeAfter limit used fee ≤ feeAfter limit more fee := by
  have hup : feeChange fee (used - limit / 2) (limit / 2)
      ≤ feeChange fee (more - limit / 2) (limit / 2) := feeChange_mono le_rfl (by omega)
  have hdown : feeChange fee (limit / 2 - more) (limit / 2)
      ≤ feeChange fee (limit / 2 - used) (limit / 2) := feeChange_mono le_rfl (by omega)
  unfold feeAfter
  split_ifs <;> omega

theorem feeAfter_mono_fee {limit used : Nat} (htarget : limit / 2 ≠ 0) (h : fee ≤ more) :
    feeAfter limit used fee ≤ feeAfter limit used more := by
  have hup : feeChange fee (used - limit / 2) (limit / 2)
      ≤ feeChange more (used - limit / 2) (limit / 2) := feeChange_mono h le_rfl
  obtain ⟨k, rfl⟩ := Nat.exists_eq_add_of_le h
  have hdown : feeChange (fee + k) (limit / 2 - used) (limit / 2)
      ≤ feeChange fee (limit / 2 - used) (limit / 2) + k := feeChange_add_le htarget (by omega)
  unfold feeAfter
  split_ifs <;> omega

/-- A full block raises the fee that much. -/
theorem nextBaseFee_full (hlimit : header.gasLimit.toNat / 2 ≠ 0)
    (hused : header.gasUsed = header.gasLimit) (hfee : header.baseFeePerGas.toNat < 2 ^ 64) :
    (nextBaseFee header).toNat = fullFee header.gasLimit.toNat header.baseFeePerGas.toNat := by
  rw [nextBaseFee_eq hlimit (by rw [hused]) hfee, hused, feeAfter, if_neg (by omega),
    if_pos (by omega), fullFee, feeChange, Nat.div_div_eq_div_mul, Nat.mul_comm 8, Nat.max_comm]

/-- **The base-fee rule.**  The next fee is the one of unbounded integers; it grows with the
gas used and with the fee, and stays within an eighth below and a full block above. -/
theorem base_fee_rule (parent : DomainBlockHeader) (hlow : 2 ≤ parent.gasLimit.toNat)
    (hhigh : parent.gasLimit.toNat ≤ 30000000)
    (hused : parent.gasUsed.toNat ≤ parent.gasLimit.toNat)
    (hfee : parent.baseFeePerGas.toNat ≤ 2 ^ 64 - 1) : let L := parent.gasLimit.toNat
    let T := L / 2
    let g := parent.gasUsed.toNat
    let f := parent.baseFeePerGas.toNat
    let next := (nextBaseFee parent).toNat
    (g = T → next = f) ∧
    (T < g → next = f + max 1 (f * (g - T) / (8 * T))) ∧
    (g < T → f * (T - g) / (8 * T) ≤ f ∧ next = f - f * (T - g) / (8 * T)) ∧
    (∀ used : U64, g ≤ used.toNat → used.toNat ≤ L →
      next ≤ (nextBaseFee { parent with gasUsed := used }).toNat) ∧
    (∀ fee : U128, f ≤ fee.toNat → fee.toNat ≤ 2 ^ 64 - 1 →
      next ≤ (nextBaseFee { parent with baseFeePerGas := fee }).toNat) ∧
    f - f / 8 ≤ next ∧ next ≤ f + max 1 (f * (L - T) / (8 * T)) := by
  have htarget : parent.gasLimit.toNat / 2 ≠ 0 := by omega
  have hnext := nextBaseFee_eq htarget hused (by omega)
  have hfall (used : Nat) : feeChange parent.baseFeePerGas.toNat (parent.gasLimit.toNat / 2 - used)
      (parent.gasLimit.toNat / 2) ≤ parent.baseFeePerGas.toNat * 1 / 8 :=
    feeChange_le htarget (by omega)
  refine ⟨?_, ?_, ?_, ?_, ?_, ?_, ?_⟩
  · intro hsame
    rw [hnext, feeAfter, if_pos hsame]
  · intro hover
    rw [hnext, feeAfter, if_neg (by omega), if_pos hover, feeChange]
  · intro hunder
    rw [hnext, feeAfter, if_neg (by omega), if_neg (by omega)]
    exact ⟨(hfall _).trans (by omega), rfl⟩
  · intro used hmore hbound
    have hother : (nextBaseFee { parent with gasUsed := used }).toNat = _ :=
      nextBaseFee_eq htarget hbound (Nat.lt_of_le_sub_one (by decide) hfee)
    rw [hnext, hother]
    exact feeAfter_mono_used hmore
  · intro fee hmore hbound
    have hother : (nextBaseFee { parent with baseFeePerGas := fee }).toNat = _ :=
      nextBaseFee_eq htarget hused (Nat.lt_of_le_sub_one (by decide) hbound)
    rw [hnext, hother]
    exact feeAfter_mono_fee htarget hmore
  · rw [hnext]
    refine le_trans ?_ (feeAfter_mono_used (Nat.zero_le _))
    have hmost := hfall 0
    rw [feeAfter, if_neg (by omega), if_neg (by omega)]
    omega
  · rw [hnext]
    refine (feeAfter_mono_used hused).trans (le_of_eq ?_)
    rw [feeAfter, if_neg (by omega), if_pos (by omega), feeChange]

def oddHeader : DomainBlockHeader := { @firstHeader sampleTrie 1 0 0 3 100 with gasUsed := 3 }

theorem base_fee_rule_odd_limit : (nextBaseFee oddHeader).toNat = 125 :=
  (base_fee_rule oddHeader (by decide) (by decide) (by decide) (by decide)).2.1 (by decide)

/-- A domain's next fee stays in the bound even if its next block is full; with a gas limit
of one it never moves. -/
def HasHeadroom (domain : FinalizedDomain) : Prop :=
  domain.config.gasLimit.toNat / 2 = 0 ∨
    fullFee domain.config.gasLimit.toNat (nextBaseFee domain.header).toNat < 2 ^ 64

instance : DecidablePred HasHeadroom := fun _ => inferInstanceAs (Decidable (_ ∨ _))

theorem hasHeadroom_iff {domain : FinalizedDomain}
    (hfee : (nextBaseFee domain.header).toNat < 2 ^ 64) :
    HasHeadroom domain ↔ ∀ header : DomainBlockHeader,
      header.baseFeePerGas = nextBaseFee domain.header → header.gasLimit = domain.config.gasLimit →
      header.gasUsed.toNat ≤ header.gasLimit.toNat → (nextBaseFee header).toNat < 2 ^ 64 := by
  constructor
  · intro h header hbase hlimit hused
    rcases h with hzero | hfull
    · have hkept : nextBaseFee header = header.baseFeePerGas := by
        unfold nextBaseFee
        rw [if_pos (.inl (by rw [hlimit]; exact hzero))]
      rw [hkept, hbase]
      exact hfee
    · refine lt_of_le_of_lt (nextBaseFee_le_fullFee hused) ?_
      rw [hbase, hlimit]
      exact hfull
  · intro h
    by_cases hzero : domain.config.gasLimit.toNat / 2 = 0
    · exact .inl hzero
    · refine .inr ?_
      have hnext := h { domain.header with
          baseFeePerGas := nextBaseFee domain.header
          gasLimit := domain.config.gasLimit
          gasUsed := domain.config.gasLimit } rfl rfl le_rfl
      rwa [nextBaseFee_full hzero rfl hfee] at hnext

end ChainMachine

namespace ExecutionState

def IsState (error : EvmError) : Prop := ∃ what, error = .state what

theorem throws_ofState {α : Type} (result : Except StateError α) :
    Throws (ofState result) IsState :=
  throws_mapError fun error _ => ⟨error.display, rfl⟩

variable [Keccak] (state : ExecutionState)

theorem throws_account (address : Address) : Throws (state.account address) IsState := by
  unfold account
  split
  · exact throws_ok _
  · exact (throws_ofState _).bind fun _ _ => throws_ok _

theorem throws_changedCode (code : BTreeMap B256 Bytes) (change : AccountChange) :
    Throws (changedCode code change) IsState := by
  unfold changedCode
  split
  · exact throws_ok _
  · split
    · exact throws_ok _
    · split
      · exact throws_error ⟨_, rfl⟩
      · exact throws_ok _

theorem throws_applyChange (applying : Applying)
    (change : Address × AccountChange) : Throws (state.applyChange applying change) IsState := by
  have hleaves : Throws (state.changedLeaves change.1 change.2) IsState := by
    refine (throws_account state change.1).bind fun old _ => ?_
    dsimp only
    split
    · exact throws_ok _
    · exact (throws_ofState _).bind fun _ _ => throws_ok _
  unfold applyChange
  split
  · exact throws_ok _
  · split
    · exact throws_ok _
    · exact hleaves.bind fun _ _ => (throws_ofState _).bind fun _ _ =>
        (throws_changedCode _ _).bind fun _ _ => throws_ok _

theorem throws_applyAll {changes : List (Address × AccountChange)} :
    ∀ {applying : Applying}, Throws (state.applyAll changes applying) (IsState ·.error) := by
  induction changes with
  | nil =>
    intro applying
    exact throws_ok _
  | cons change rest ih =>
    intro applying
    refine Throws.bind (throws_mapError ?_) fun _ _ => ih
    exact throws_applyChange state applying change

theorem throws_reachableNodes {candidates : NodeStore} {encoded : List Bytes} :
    ∀ {reachable : NodeStore}, Throws (reachableNodes candidates encoded reachable) IsState := by
  induction encoded with
  | nil =>
    intro reachable
    exact throws_ok _
  | cons value rest ih =>
    intro reachable
    refine (throws_ofState _).bind fun account _ => ?_
    split
    · exact ih
    · exact (throws_ofState _).bind fun _ _ => (throws_ofState _).bind fun _ _ => ih

/-- Changes fail only on the authenticated state. -/
theorem throws_applyChanges (changes : List (Address × AccountChange)) :
    Throws (state.applyChanges changes) (IsState ·.error) := by
  refine (throws_applyAll state).bind fun applying _ => Throws.bind (throws_mapError ?_)
    fun _ _ => throws_ok _
  exact (throws_ofState _).bind fun _ _ => throws_reachableNodes.bind fun _ _ =>
    (throws_ofState _).bind fun _ _ => throws_ok _

end ExecutionState

section Execution

variable {spec : ProtocolSpec} {env : DomainEnv}

def baseFeeErrors : List EvmError :=
  [.invalidEnvironment "base fee exceeds the fixed revm block field",
    .invalidEnvironment "base fee does not fit u64"]

theorem not_mem_baseFeeErrors_of_isState {error : EvmError} (h : ExecutionState.IsState error) :
    error ∉ baseFeeErrors := by
  obtain ⟨what, rfl⟩ := h
  simp [baseFeeErrors]

variable {transaction : Eip1559Transaction}

theorem throws_checkEnvironment (hfee : env.baseFeePerGas.toNat < 2 ^ 64) :
    Throws (checkEnvironment spec env transaction) (· ∉ baseFeeErrors) := by
  have habsurd {error : EvmError} (h : 2 ^ 64 ≤ env.baseFeePerGas.toNat) : error ∉ baseFeeErrors :=
    absurd hfee (not_lt.mpr h)
  refine Throws.bind ?_ fun _ _ => Throws.bind ?_ fun _ _ => Throws.bind ?_ fun _ _ =>
    Throws.bind ?_ fun _ _ => throws_rejectIf habsurd
  · exact (throws_rejectIf fun _ => by simp [baseFeeErrors]).bind fun _ _ =>
      (throws_rejectIf fun _ => by simp [baseFeeErrors]).bind fun _ _ => throws_rejectIf habsurd
  · unfold ProtocolSpec.resolve
    split
    · exact throws_ok _
    · exact throws_error (by simp [baseFeeErrors])
  · exact throws_rejectIf fun _ => by simp [baseFeeErrors]
  · exact throws_rejectIf fun _ => by simp [baseFeeErrors]

variable [Keccak] [Revm]

theorem throws_executeTransactionWithSystem {state : ExecutionState} {sender : Address}
    {registry : Option ChainRegistryRuntime} (hfee : env.baseFeePerGas.toNat < 2 ^ 64) :
    Throws (executeTransactionWithSystem state spec env transaction sender registry)
      (·.error ∉ baseFeeErrors) := by
  refine Throws.bind (throws_mapError ?_) fun outcome _ => Throws.bind ?_ fun _ _ => throws_ok _
  · refine (throws_checkEnvironment hfee).bind fun _ _ => Throws.bind (throws_mapError ?_)
      fun _ _ => (throws_rejectIf fun _ => by simp [baseFeeErrors]).bind fun _ _ => throws_ok _
    intro error _
    cases error <;> simp [mapRevmError, baseFeeErrors]
  · exact (ExecutionState.throws_applyChanges _ _).mono fun _ => not_mem_baseFeeErrors_of_isState

/-- An error of a batch that is not one of a base fee. -/
def NoFeeError : ExecutorError → Prop
  | .transaction _ source => source ∉ baseFeeErrors
  | _ => True

variable [Secp256k1] {registry : Option ChainRegistryExecutionContext}

theorem throws_executeEnvelope {index : Nat}
    {envelope : Bytes} {progress : Executor.Progress} (hfee : env.baseFeePerGas.toNat < 2 ^ 64) :
    Throws (Executor.executeEnvelope spec env registry index envelope progress) NoFeeError := by
  refine Throws.bind ?_ fun decoded _ => Throws.bind ?_ fun prepared _ =>
    Throws.bind (throws_mapError ?_) fun executed _ => Throws.bind ?_ fun gas _ =>
    Throws.bind (throws_mapError ?_) fun encoded _ => Throws.bind ?_ fun created _ => throws_ok _
  · exact (throws_mapError fun _ _ => trivial).bind fun _ _ =>
      (throws_rejectIf fun _ => trivial).bind fun _ _ =>
      (throws_mapError fun _ _ => trivial).bind fun _ _ =>
      (throws_mapError fun _ _ => trivial).bind fun _ _ => throws_ok _
  · unfold Executor.prepareRegistryCreation
    split
    · exact throws_ok _
    · split
      · exact throws_ok _
      · split
        · exact throws_ok _
        · split
          · exact throws_ok _
          · refine (throws_mapError fun _ _ => trivial).bind fun genesisState _ => ?_
            split <;> exact throws_ok _
  · exact throws_executeTransactionWithSystem hfee
  · exact (throws_rejectIf fun _ => trivial).bind fun _ _ =>
      (throws_rejectIf fun _ => trivial).bind fun _ _ => throws_ok _
  · exact fun _ _ => trivial
  · unfold Executor.createdDomains
    split
    · exact throws_ok _
    · exact throws_ok _
    · exact throws_error trivial

theorem throws_executeEnvelopes {envelopes : List Bytes} (hfee : env.baseFeePerGas.toNat < 2 ^ 64) :
    ∀ {index : Nat} {progress : Executor.Progress},
    Throws (Executor.executeEnvelopes spec env registry index envelopes progress) NoFeeError := by
  induction envelopes with
  | nil =>
    intro index progress
    exact throws_ok _
  | cons envelope rest ih =>
    intro index progress
    exact (throws_executeEnvelope hfee).bind fun _ _ => ih

/-- An error of a block that is not one of a base fee. -/
def NoFeeFailure : ChainError → Prop
  | .execution _ source => NoFeeError source
  | _ => True

variable [OrderedTrie]

theorem throws_executeDomain {parentConsensusHash : B256} {finalized : FinalizedDomain}
    {batch : DomainBatch} {height : ConsensusHeight} {timestamp : U64} {proposer : Address}
    {registry : ChainRegistryExecutionContext}
    (hfee : (ChainMachine.nextBaseFee finalized.header).toNat < 2 ^ 64) :
    Throws (ChainMachine.executeDomain parentConsensusHash finalized batch height timestamp proposer
      registry) NoFeeFailure := by
  refine (throws_rejectIf fun _ => trivial).bind fun _ _ =>
    (throws_mapError fun _ _ => trivial).bind fun spec _ => Throws.bind (throws_mapError ?_)
    fun _ _ => (throws_mapError fun _ _ => trivial).bind fun _ _ => throws_ok _
  exact (throws_rejectIf fun _ => trivial).bind fun _ _ =>
    (throws_executeEnvelopes hfee).bind fun _ _ => throws_ok _

end Execution

section Fees

theorem checkedCumulativeGas_le {index : Nat} {current transaction limit used : U64}
    (h : Executor.checkedCumulativeGas index current transaction limit = .ok used) :
    used.toNat ≤ limit.toNat := by
  obtain ⟨hword, h⟩ := check_bind_eq_ok.mp h
  obtain ⟨hlimit, h⟩ := check_bind_eq_ok.mp h
  cases h
  rw [rejectIf_eq_ok, not_le] at hword
  rw [rejectIf_eq_ok, not_lt] at hlimit
  rw [BitVec.toNat_add, Nat.mod_eq_of_lt hword]
  exact hlimit

variable [Keccak] [Secp256k1] [Revm]

/-- A batch uses no more gas than the domain's limit. -/
theorem gasUsed_le_gasLimit [OrderedTrie] {spec : ProtocolSpec} {env : DomainEnv}
    {registry : Option ChainRegistryExecutionContext} {parent : ExecutionState}
    {envelopes : List Bytes} {execution : DomainExecutionResult}
    (h : Executor.executeBatchWithRegistry spec env parent envelopes registry = .ok execution) :
    execution.gasUsed.toNat ≤ env.gasLimit.toNat := by
  obtain ⟨_, progress, hran, _, _, _, hgas, _⟩ := Executor.executeBatchWithRegistry_eq_ok h
  rw [hgas]
  refine Executor.executeEnvelopes_induct (P := fun progress =>
    progress.cumulativeGas.toNat ≤ env.gasLimit.toNat) ?_ (Nat.zero_le _) hran
  intro index envelope progress next _ _ hnext
  obtain ⟨_, _, hnext⟩ := bind_eq_ok.mp hnext
  obtain ⟨_, _, hnext⟩ := bind_eq_ok.mp hnext
  obtain ⟨_, _, hnext⟩ := bind_eq_ok.mp hnext
  obtain ⟨used, hused, hnext⟩ := bind_eq_ok.mp hnext
  obtain ⟨_, _, hnext⟩ := bind_eq_ok.mp hnext
  obtain ⟨_, _, hnext⟩ := bind_eq_ok.mp hnext
  cases hnext
  exact checkedCumulativeGas_le hused

variable [OrderedTrie]

open ChainMachine

/-- Every domain's next fee is in the bound. -/
def FeesFit (chain : FinalizedChainState) : Prop :=
  ∀ (domainId : DomainId) (domain : FinalizedDomain), chain.domains[domainId]? = some domain →
    (nextBaseFee domain.header).toNat < 2 ^ 64

variable {height : ConsensusHeight}

omit [Keccak] [Secp256k1] [Revm] in
theorem nextBaseFee_firstHeader_lt {config : DomainConfig} {domainId : DomainId} {stateRoot : B256}
    (h : config.validate = .ok ()) :
    (nextBaseFee (firstHeader domainId height stateRoot config.gasLimit
      config.initialBaseFeePerGas)).toNat < 2 ^ 64 := by
  refine lt_of_le_of_lt (nextBaseFee_le_of_idle (Nat.zero_le _)) ?_
  exact (DomainConfig.validate_eq_ok.mp h).2.2.1

omit [Secp256k1] [Revm] in
theorem feesFit_insertCreatedDomains {created : List CreatedDomain}
    {chain after : FinalizedChainState} (hfit : FeesFit chain)
    (h : FinalizedChainState.insertCreatedDomains height created chain = .ok after) :
    FeesFit after := by
  refine FinalizedChainState.insertCreatedDomains_induct (P := FeesFit) ?_ hfit h
  intro chain after new _ hfit hinsert
  obtain ⟨hadmissible, blockHash, _, rfl⟩ := FinalizedChainState.insertCreatedDomain_eq_ok hinsert
  intro domainId domain hdomain
  rw [OrdMap.getElem?_insert] at hdomain
  split at hdomain
  · cases hdomain
    exact nextBaseFee_firstHeader_lt hadmissible.config
  · exact hfit domainId domain hdomain

/-- Every batch of a block is for a domain with headroom. -/
def Spacious (chain : FinalizedChainState) (batches : List DomainBatch) : Prop :=
  ∀ batch ∈ batches, ∀ domain, chain.domains[batch.domainId]? = some domain → HasHeadroom domain

/-- **One block.**  A block with headroom for each of its batches keeps every fee in the bound. -/
theorem feesFit_execute {parent : FinalizedChainState} {batches : List DomainBatch}
    {timestamp : U64} {proposer : Address} {proposal : ValidatedProposal} (hfit : FeesFit parent)
    (hspacious : Spacious parent batches)
    (h : execute parent batches timestamp proposer = .ok proposal) :
    FeesFit proposal.resultingState := by
  obtain ⟨executed, hrun⟩ := execute_eq_ok h
  obtain ⟨consensusHash, _, hresulting⟩ := hrun.resulting
  have hexecuted : FeesFit executed.state := by
    refine executeBatches_induct (P := fun executing => FeesFit executing.state) ?_ hfit hrun.ran
    intro batch before after hbatch hbefore hstep
    obtain ⟨finalized, execution, header, blockHash, hran⟩ := executeBatch_eq_ok hstep
    refine feesFit_insertCreatedDomains ?_ hran.admitted
    intro domainId domain hdomain
    rw [OrdMap.getElem?_insert] at hdomain
    split at hdomain
    · cases hdomain
      obtain ⟨spec, _, hbatchRun⟩ := hran.executed
      have hheadroom := hspacious batch hbatch finalized hran.found
      have hfee := hfit batch.domainId finalized hran.found
      refine (hasHeadroom_iff hfee).mp hheadroom header ?_ ?_ ?_
      · rw [hran.header_eq]
        rfl
      · rw [hran.header_eq]
        rfl
      · rw [hran.header_eq]
        exact gasUsed_le_gasLimit hbatchRun
    · exact hbefore domainId domain hdomain
  rw [hresulting]
  exact hexecuted

end Fees

end Arbor
