import Arbor.Chain.BaseFee
import Arbor.Consensus.Genesis

/-!
# Base fees of a development chain

A run whose batches all find the headroom of one full block never leaves the virtual machine's
bound on base fees (`baseFee_bounded`).  Without headroom two full blocks do, and the domain
takes no transaction any more (`full_blocks_overflow_fee`).
-/

namespace Arbor

open Result ChainMachine

section Fees

variable [Keccak] [Secp256k1] [Revm] [OrderedTrie]

/-- The states of a chain whose blocks all had headroom for their batches. -/
inductive SpaciousRun (genesis : DevGenesis) : FinalizedChainState → Prop
  | genesis {chain : FinalizedChainState} :
      genesis.chainState = .ok chain → SpaciousRun genesis chain
  | extend {chain : FinalizedChainState} {proposal : ValidatedProposal} :
      SpaciousRun genesis chain → Proposes chain proposal → Spacious chain proposal.block.batches →
      SpaciousRun genesis proposal.resultingState

/-- **A whole run.**  Every fee of every state is in the bound. -/
theorem SpaciousRun.feesFit {genesis : DevGenesis} {chain : FinalizedChainState}
    (h : SpaciousRun genesis chain) : FeesFit chain := by
  induction h with
  | genesis h =>
    obtain ⟨_, _, _, _, _, hconfig, _, rfl⟩ := DevGenesis.chainState_eq_ok h
    intro domainId domain hdomain
    rw [OrdMap.getElem?_insert] at hdomain
    split at hdomain
    · cases hdomain
      exact nextBaseFee_firstHeader_lt hconfig
    · cases hdomain
  | extend _ hproposes hspacious ih =>
    exact feesFit_execute ih hspacious hproposes.executes_block.2

/-- **Base fees.**  In a run whose batches all find the headroom of one full block, every next
fee is in the virtual machine's bound, and no batch on such a domain fails for its fee.  The
headroom is what it takes: without it a full block takes the fee out of the bound. -/
theorem baseFee_bounded (genesis : DevGenesis) :
    (∀ chain, SpaciousRun genesis chain → ∀ (domainId : DomainId) (domain : FinalizedDomain),
      chain.domains[domainId]? = some domain →
      (nextBaseFee domain.header).toNat ≤ 2 ^ 64 - 1 ∧
        ∀ parentConsensusHash batch height timestamp proposer registry,
          Throws (executeDomain parentConsensusHash domain batch height timestamp proposer registry)
            NoFeeFailure) ∧
      ∀ domain : FinalizedDomain, (nextBaseFee domain.header).toNat ≤ 2 ^ 64 - 1 →
        (HasHeadroom domain ↔ ∀ header : DomainBlockHeader,
          header.baseFeePerGas = nextBaseFee domain.header →
          header.gasLimit = domain.config.gasLimit →
          header.gasUsed.toNat ≤ header.gasLimit.toNat →
          (nextBaseFee header).toNat ≤ 2 ^ 64 - 1) := by
  constructor
  · intro chain hrun domainId domain hdomain
    have hfee := hrun.feesFit domainId domain hdomain
    exact ⟨Nat.le_sub_one_of_lt hfee, fun _ _ _ _ _ _ => throws_executeDomain hfee⟩
  · intro domain hfee
    have hsharp := hasHeadroom_iff (Nat.lt_of_le_sub_one (by decide) hfee)
    simp only [Nat.lt_iff_le_pred (show 0 < 2 ^ 64 by decide)] at hsharp
    exact hsharp

end Fees

section Sample

attribute [local instance] scatteringKeccak sampleTrie namingCurve payingRevm

def tightGenesis (initialBaseFeePerGas : U128) : DevGenesis :=
  { sampleGenesis ((∅ : BTreeMap Address GenesisAccount).insert 0xfef
      ⟨0, 1000000000000000000000000000000, [], ∅⟩) with
    rootConfig := ⟨2048, 1, 21000, initialBaseFeePerGas⟩ }

def feePayment (nonce : U64) : Bytes :=
  (Ethereum.encodeEip1559 ⟨2048, nonce, 0, 0x20000000000000000, 21000, some 0xabc, 1, [], [], false,
    0xfef, 1⟩).toOption.getD []

def fullBlock (chain : FinalizedChainState) (nonce : U64) : Except ChainError ValidatedProposal :=
  paidBlock chain [feePayment nonce]

def filled (initialBaseFeePerGas : U128) :
    Option (FinalizedChainState × ValidatedProposal × ValidatedProposal) := do
  let start ← (tightGenesis initialBaseFeePerGas).chainState.toOption
  let first ← (fullBlock start 0).toOption
  let second ← (fullBlock first.resultingState 1).toOption
  return (start, first, second)

theorem proposes_fullBlock {chain : FinalizedChainState} {nonce : U64}
    {proposal : ValidatedProposal} (h : fullBlock chain nonce = .ok proposal) :
    Proposes chain proposal ∧ ∀ root, chain.domains[(1 : DomainId)]? = some root →
      HasHeadroom root → Spacious chain proposal.block.batches := by
  obtain ⟨hvalid, hbatches⟩ := paidBlock_eq_ok h
  refine ⟨.validated _ hvalid, fun root hroot hheadroom batch hbatch domain hdomain => ?_⟩
  rw [hbatches, List.mem_singleton] at hbatch
  rw [hbatch, paymentBatch, hroot, Option.some.injEq] at hdomain
  exact hdomain ▸ hheadroom

theorem filled_eq_some {initialBaseFeePerGas : U128} {start : FinalizedChainState}
    {first second : ValidatedProposal}
    (h : filled initialBaseFeePerGas = some (start, first, second)) :
    (tightGenesis initialBaseFeePerGas).chainState = .ok start ∧ fullBlock start 0 = .ok first ∧
      fullBlock first.resultingState 1 = .ok second := by
  rw [filled] at h
  obtain ⟨_, hstart, h⟩ := Option.bind_eq_some_iff.mp h
  obtain ⟨_, hfirst, h⟩ := Option.bind_eq_some_iff.mp h
  obtain ⟨_, hsecond, h⟩ := Option.bind_eq_some_iff.mp h
  obtain ⟨rfl, rfl, rfl⟩ := h
  have hstart := toOption_eq_some.mp hstart
  exact ⟨hstart, toOption_eq_some.mp hfirst, toOption_eq_some.mp hsecond⟩

def rootFee (chain : FinalizedChainState) : Option Nat :=
  (chain.domains[(1 : DomainId)]?).map fun root => (nextBaseFee root.header).toNat

def feeOverflows : Bool :=
  match filled 0xffffffffffffffff with
  | none => false
  | some (start, first, second) =>
    (start.domains[(1 : DomainId)]?).map (fun root => decide (HasHeadroom root)) = some true &&
      rootFee first.resultingState = some 18158513697557839872 &&
      rootFee second.resultingState = some 20428327909752569856 &&
      fullBlock second.resultingState 2 = .error (.execution 1 (.transaction 0
        (.invalidEnvironment "base fee exceeds the fixed revm block field")))

theorem feeOverflows_eq_true : feeOverflows = true := by decide +kernel

theorem exists_filled : ∃ start first second, ∃ root middle last : FinalizedDomain,
    filled 0xffffffffffffffff = some (start, first, second) ∧
      start.domains[(1 : DomainId)]? = some root ∧ HasHeadroom root ∧
      first.resultingState.domains[(1 : DomainId)]? = some middle ∧
      second.resultingState.domains[(1 : DomainId)]? = some last ∧
      2 ^ 64 - 1 < (nextBaseFee last.header).toNat ∧
      fullBlock second.resultingState 2 = .error (.execution 1 (.transaction 0
        (.invalidEnvironment "base fee exceeds the fixed revm block field"))) := by
  have h := feeOverflows_eq_true
  unfold feeOverflows at h
  split at h
  · cases h
  rename_i start first second hfilled
  simp only [Bool.and_eq_true, decide_eq_true_iff] at h
  obtain ⟨⟨⟨hheadroom, hfirst⟩, hsecond⟩, hfails⟩ := h
  obtain ⟨root, hroot, hheadroom⟩ := Option.map_eq_some_iff.mp hheadroom
  obtain ⟨middle, hmiddle, _⟩ := Option.map_eq_some_iff.mp hfirst
  obtain ⟨last, hlast, hfee⟩ := Option.map_eq_some_iff.mp hsecond
  exact ⟨start, first, second, root, middle, last, hfilled, hroot, of_decide_eq_true hheadroom,
    hmiddle, hlast, by rw [hfee]; decide, hfails⟩

/-- The first of the two blocks keeps the fee in the bound. -/
theorem baseFee_bounded_first : ∃ genesis chain, ∃ (domainId : DomainId) (domain : FinalizedDomain),
    SpaciousRun genesis chain ∧ chain.domains[domainId]? = some domain ∧
      (nextBaseFee domain.header).toNat ≤ 2 ^ 64 - 1 := by
  obtain ⟨start, first, second, root, middle, last, hfilled, hroot, hheadroom, hmiddle, _⟩ :=
    exists_filled
  obtain ⟨hstart, hfirst, _⟩ := filled_eq_some hfilled
  obtain ⟨hproposes, hspacious⟩ := proposes_fullBlock hfirst
  have hrun : SpaciousRun (tightGenesis 0xffffffffffffffff) first.resultingState :=
    .extend (.genesis hstart) hproposes (hspacious root hroot hheadroom)
  exact ⟨_, _, 1, middle, hrun, hmiddle,
    ((baseFee_bounded (tightGenesis 0xffffffffffffffff)).1 _ hrun 1 middle hmiddle).1⟩

/-- Two full blocks take the largest fee out of the bound, and the next payment fails. -/
theorem full_blocks_overflow_fee :
    ∃ genesis chain, ∃ (domainId : DomainId) (domain : FinalizedDomain),
    Reachable genesis chain ∧ chain.domains[domainId]? = some domain ∧
      2 ^ 64 - 1 < (nextBaseFee domain.header).toNat ∧
      ∃ batches timestamp proposer, execute chain batches timestamp proposer
        = .error (.execution domainId (.transaction 0
          (.invalidEnvironment "base fee exceeds the fixed revm block field"))) := by
  obtain ⟨start, first, second, _, _, last, hfilled, _, _, _, hlast, hfee, hfails⟩ := exists_filled
  obtain ⟨hstart, hfirst, hsecond⟩ := filled_eq_some hfilled
  have hreached : Reachable (tightGenesis 0xffffffffffffffff) second.resultingState :=
    .extend (.extend (.genesis hstart) (proposes_fullBlock hfirst).1) (proposes_fullBlock hsecond).1
  exact ⟨_, _, 1, last, hreached, hlast, hfee, _, _, _, hfails⟩

end Sample

end Arbor
