import Arbor.Chain.BlockRoundTrip
import Arbor.Chain.Runs
import Arbor.Consensus.Abandon

/-!
# What every engine has reached

Invariants of whole runs, in which calls may fail: of the finalized state, whatever it was reached
from (`coherent_of_engineRun`), of what has been announced about it (`events_of_engineRun`), and of
what opening the database again finds (`openFinalized_agrees`).
-/

namespace Arbor

open Result Device Consensus ChainMachine

namespace SingleValidatorEngine

section Reached

variable [Keccak]

/-- The root domain is there, and every domain goes with its header. -/
structure Coherent (chain : FinalizedChainState) : Prop where
  root : chain.rootDomainId ∈ chain.domains
  domains : ∀ (domainId : DomainId) (domain : FinalizedDomain),
    chain.domains[domainId]? = some domain → domain.Consistent chain.height domainId

variable [Secp256k1] [Revm] [OrderedTrie] {chain : FinalizedChainState}
  {proposal : ValidatedProposal} {genesis : DevGenesis} {engine : SingleValidatorEngine}

theorem Coherent.proposes (h : Coherent chain) (hproposes : Proposes chain proposal) :
    Coherent proposal.resultingState := by
  have hran := hproposes.executes_block.2
  obtain ⟨_, updates, hupdates, _⟩ := execute_updates hran
  have hheight := (sealed_of_proposes hproposes).height
  constructor
  · have hroot : proposal.resultingState.rootDomainId = chain.rootDomainId :=
      congrArg (·.2.1) (execute_identity hran)
    rw [hroot, hupdates.domains, Std.ExtTreeMap.mem_insertMany_list]
    exact .inl h.root
  · intro domainId domain hdomain
    rw [hupdates.domains] at hdomain
    rcases OrdMap.mem_of_getElem?_insertMany _ hdomain with hupdate | hkept
    · rw [(execute_head hran).2.1]
      exact hupdates.consistent _ hupdate
    · obtain ⟨hid, hstate, hle, hgas, hhash⟩ := h.domains domainId domain hkept
      refine ⟨hid, hstate, ?_, hgas, hhash⟩
      rw [BitVec.le_def] at hle ⊢
      omega

theorem Finalizes.coherent (h : Finalizes genesis chain) : Coherent chain := by
  induction h with
  | genesis h =>
    obtain ⟨_, state, blockHash, _, _, _, hhash, rfl⟩ := DevGenesis.chainState_eq_ok h
    refine ⟨OrdMap.mem_iff_exists.mpr ⟨_, by rw [OrdMap.getElem?_insert, if_pos rfl]⟩, ?_⟩
    intro domainId domain hdomain
    rw [OrdMap.getElem?_insert] at hdomain
    split at hdomain
    · rename_i heq
      cases hdomain
      exact ⟨heq, rfl, BitVec.le_refl _, rfl, hhash⟩
    · cases hdomain
  | checkpoint h =>
    obtain ⟨_, ⟨done, hrestored, hroot⟩, _, hdomains⟩ := FinalizedChainState.fromCheckpoint_eq_ok h
    refine ⟨?_, fun domainId domain hdomain => (hdomains domainId domain hdomain).2⟩
    rw [hrestored]
    exact hroot
  | extend _ hproposes ih => exact ih.proposes hproposes

/-- **Coherent states.**  Whatever an engine was opened from and called with, its finalized state
has the root domain, and each of its domains has the state, the gas limit and the hash that its
header says; a pending proposal validates on it, and marker, log and heads on disk are its own. -/
theorem coherent_of_engineRun (engine : SingleValidatorEngine) (h : EngineRun engine) :
    Coherent engine.finalized ∧ Durable engine.database.tables engine.finalized ∧
      ∀ pending, engine.pending = some pending →
        validateProposal engine.finalized pending.proposal.block = .ok pending.proposal ∧
          Coherent pending.proposal.resultingState := by
  refine ⟨h.finalizes.coherent, h.sound.durable, fun pending hpending => ?_⟩
  have hproposes := h.sound.proposes pending hpending
  obtain ⟨hsorted, hran⟩ := hproposes.executes_block
  refine ⟨validateProposal_of_execute ?_ hran, h.finalizes.coherent.proposes hproposes⟩
  rw [ensureBatchOrder, rejectIf_eq_ok, hsorted]
  exact Bool.noConfusion

/-- Announced heights grow up to that of the finalized state, which is announced last. -/
structure Announced (engine : SingleValidatorEngine) : Prop where
  ascending : engine.events.Pairwise fun a b => a.height.toNat < b.height.toNat
  below : ∀ event ∈ engine.events, event.height.toNat ≤ engine.finalized.height.toNat
  last : ∀ event ∈ engine.events.getLast?, event = eventOf engine.finalized

omit [Secp256k1] [Revm] [OrderedTrie] in
theorem Announced.append {after : SingleValidatorEngine} (h : Announced engine)
    (hlt : engine.finalized.height.toNat < after.finalized.height.toNat)
    (hevents : after.events = engine.events ++ [eventOf after.finalized]) : Announced after := by
  constructor
  · rw [hevents, List.pairwise_append]
    refine ⟨h.ascending, List.pairwise_singleton _ _, fun event hevent next hnext => ?_⟩
    rw [List.mem_singleton.mp hnext]
    exact lt_of_le_of_lt (h.below event hevent) hlt
  · intro event hevent
    rw [hevents, List.mem_append, List.mem_singleton] at hevent
    rcases hevent with hevent | rfl
    · exact (h.below event hevent).trans hlt.le
    · exact le_refl _
  · intro event hevent
    rw [hevents, List.getLast?_concat] at hevent
    exact (Option.some.inj hevent).symm

theorem EngineRun.announced (h : EngineRun engine) : Announced engine := by
  induction h with
  | opened h =>
    obtain ⟨_, _, h⟩ := run_give_eq_ok.mp h
    obtain ⟨_, _, _, h⟩ := run_bind_eq_ok.mp h
    obtain ⟨_, _, h⟩ := run_give_eq_ok.mp h
    cases h
    exact ⟨.nil, by simp, by simp⟩
  | @called engine call hrun ih =>
    have hmoved := call.moved engine
    have hheight : ∀ checkpoint chain after, call = .importCheckpoint checkpoint →
        FinalizedChainState.fromCheckpoint checkpoint.state.checkpoint = .ok chain →
        call.run engine = .ok () after → engine.finalized.height = 0 := by
      intro checkpoint chain after hcall hchain hcalled
      subst hcall
      exact (importCheckpoint_eq_ok hchain hcalled).1
    generalize call.run engine = result at hmoved hheight
    cases hmoved with
    | failed hsame =>
      obtain ⟨_, rfl⟩ := hsame
      exact ⟨ih.ascending, ih.below, ih.last⟩
    | submitted => exact ⟨ih.ascending, ih.below, ih.last⟩
    | kept => exact ⟨ih.ascending, ih.below, ih.last⟩
    | returned => exact ⟨ih.ascending, ih.below, ih.last⟩
    | built => exact ⟨ih.ascending, ih.below, ih.last⟩
    | abandoned => exact ⟨ih.ascending, ih.below, ih.last⟩
    | @committed _ _ proposal _ _ hincludes _ =>
      have hproposes : Proposes engine.finalized proposal := by
        cases hincludes with
        | pending hpending => exact hrun.sound.proposes _ hpending
        | block _ hvalid => exact .validated _ hvalid
      exact ih.append (Nat.lt_of_succ_le (sealed_of_proposes hproposes).height.ge) rfl
    | restarted _ hchain =>
      obtain ⟨hnonzero, ⟨_, hrestored, _⟩, _⟩ := FinalizedChainState.fromCheckpoint_eq_ok hchain
      refine ih.append ?_ rfl
      rw [hheight _ _ _ rfl hchain rfl]
      subst hrestored
      exact Nat.pos_of_ne_zero fun hzero => hnonzero (BitVec.eq_of_toNat_eq hzero)

/-- **Announcements.**  In every run the announced heights strictly increase, and the last
announcement is the height, the hash and the heads root of the finalized state. -/
theorem events_of_engineRun (engine : SingleValidatorEngine) (h : EngineRun engine) :
    (engine.events.map (·.height.toNat)).Pairwise (· < ·) ∧
      ∀ event ∈ engine.events.getLast?, event = eventOf engine.finalized :=
  ⟨List.pairwise_map.mpr h.announced.ascending, h.announced.last⟩

/-! ## Opening again -/

/-- A block that is stored at one of the heights. -/
def StoredAt (tables : Tables Column) (heights : List U64) (block : ConsensusBlock) : Prop :=
  ∃ height ∈ heights, ∃ bytes, value (Database.index (blockKey height)) tables = .ok (some bytes) ∧
    ConsensusBlock.decode bytes = .ok block

/-- **Replaying** moves along a run of stored blocks. -/
theorem run_replayed (heights : List U64) : ∀ {chain replayed : FinalizedChainState}
    {disk disk' : Disk Column}, heights.foldlM replayBlock chain disk = .ok replayed disk' →
      ∃ blocks, Run chain blocks replayed ∧
        ∀ block ∈ blocks, StoredAt disk.tables heights block := by
  induction heights with
  | nil =>
    intro chain replayed disk disk' h
    cases h
    exact ⟨[], .nil _, fun _ hmem => by cases hmem⟩
  | cons height rest ih =>
    intro chain replayed disk disk' h
    obtain ⟨next, _, hnext, h⟩ := run_bind_eq_ok.mp h
    have htables := (reading_replayBlock _ _).of_ok hnext
    obtain ⟨bytes, _, hbytes, hnext⟩ := run_bind_eq_ok.mp hnext
    have hvalue := ((readOnly_stored (readOnly_index _)).of_ok hbytes).1
    cases bytes with
    | none => cases hnext
    | some bytes =>
      obtain ⟨block, hdecoded, hnext⟩ := run_give_eq_ok.mp hnext
      obtain ⟨proposal, hvalid, hnext⟩ := run_give_eq_ok.mp hnext
      cases hnext
      rw [mapError_eq_ok] at hdecoded hvalid
      obtain ⟨blocks, hblocks, hstored⟩ := ih h
      rw [htables] at hstored
      refine ⟨_, .cons (.validated block hvalid) hblocks, List.forall_mem_cons.mpr ⟨?_, ?_⟩⟩
      · rw [block_of_validateProposal hvalid]
        exact ⟨height, List.mem_cons_self, bytes, value_stored_eq_ok.mp hvalue, hdecoded⟩
      · intro block hmem
        obtain ⟨other, hother, hblock⟩ := hstored block hmem
        exact ⟨other, List.mem_cons_of_mem _ hother, hblock⟩

theorem run_recovered {fingerprint : B256} {marker : FinalizedMarker}
    {recovered : FinalizedChainState} {disk disk' : Disk Column}
    (hnone : value (Database.index KEY_DEV_CHECKPOINT) disk.tables = .ok none)
    (h : recover genesis fingerprint marker chain disk = .ok recovered disk') :
    marker = markerOf recovered ∧ ∃ blocks, Run chain blocks recovered ∧
      ∀ block ∈ blocks, StoredAt disk.tables (heightsAfter chain.height marker.height) block := by
  obtain ⟨recorded, first, hrecorded, h⟩ := run_bind_eq_ok.mp h
  have hfirst := (readOnly_stored (readOnly_index _)).reading.of_ok hrecorded
  cases recorded with
  | none => cases h
  | some recorded =>
    obtain ⟨_, _, h⟩ := run_give_eq_ok.mp h
    obtain ⟨base, second, hbase, h⟩ := run_bind_eq_ok.mp h
    have hsecond := (reading_recoveryBase _ _ _).of_ok hbase
    obtain ⟨replayed, _, hreplayed, h⟩ := run_bind_eq_ok.mp h
    obtain ⟨_, _, hverify, h⟩ := run_bind_eq_ok.mp h
    cases h
    obtain ⟨_, hmarker, _⟩ := run_give_eq_ok.mp hverify
    rw [rejectIf_eq_ok, not_not] at hmarker
    -- Without a checkpoint the base is the genesis state.
    obtain ⟨loaded, _, hloaded, hbase⟩ := run_bind_eq_ok.mp hbase
    obtain ⟨bytes, _, hbytes, hloaded⟩ := run_bind_eq_ok.mp hloaded
    have hvalue := ((readOnly_stored (readOnly_index _)).of_ok hbytes).1
    rw [value_stored_eq_ok, hfirst, hnone] at hvalue
    cases hvalue
    cases hloaded
    cases hbase
    have hrun := run_replayed _ hreplayed
    rw [hsecond, hfirst] at hrun
    exact ⟨hmarker, hrun⟩

/-- **Recovery.**  An engine that reached its state from genesis by blocks finds that state again
or fails to open, whatever has become of the records other than the marker. -/
theorem openFinalized_agrees (engine : SingleValidatorEngine) (hrun : EngineRun engine)
    (policy : RetentionPolicy) (disk disk' : Disk Column) (initial chain : FinalizedChainState)
    (own : List ConsensusBlock) (hinitial : engine.genesis.chainState = .ok initial)
    (hown : Run initial own engine.finalized)
    (hmarker : value Database.finalizedMarker disk.tables =
      value Database.finalizedMarker engine.database.tables)
    (hnone : value (Database.index KEY_DEV_CHECKPOINT) disk.tables = .ok none)
    (h : openFinalized policy engine.genesis disk = .ok chain disk')
    (hinj : Set.InjOn keccak256 {bytes | ∃ block :
      ConsensusBlock, (block ∈ own ∨ StoredAt disk.tables
      (heightsAfter initial.height engine.finalized.height) block) ∧ bytes ∈ block.committed}) :
    chain = engine.finalized := by
  rw [hrun.sound.durable.marker] at hmarker
  obtain ⟨_, _, h⟩ := run_give_eq_ok.mp h
  obtain ⟨_, hagain, h⟩ := run_give_eq_ok.mp h
  rw [hinitial] at hagain
  cases hagain
  obtain ⟨marker, _, hread, h⟩ := run_bind_eq_ok.mp h
  obtain ⟨hvalue, htables⟩ := (readOnly_stored Database.readOnly_finalizedMarker).of_ok hread
  rw [value_stored_eq_ok, hmarker] at hvalue
  cases hvalue
  rw [← htables] at hnone
  obtain ⟨hsame, blocks, hblocks, hstored⟩ := run_recovered hnone h
  rw [htables] at hstored
  refine (hblocks.eq_of_head hinj hown ?_ ?_ ?_ ?_).2
  · exact fun block hmem bytes hbytes => ⟨block, .inr (hstored block hmem), hbytes⟩
  · exact fun block hmem bytes hbytes => ⟨block, .inl hmem, hbytes⟩
  · exact (congrArg (·.height) hsame).symm
  · exact (congrArg (·.consensusHash) hsame).symm

end Reached

section Sample

attribute [local instance] scatteringKeccak sampleTrie namingCurve payingRevm

theorem coherent_of_engineRun_payment : ∃ engine pending, EngineRun engine ∧
    engine.pending = some pending ∧ pending.reserved ≠ [] ∧
    Coherent pending.proposal.resultingState := by
  obtain ⟨_, _, proposed, pending, _, _, hpending, hreserved, hrun, _⟩ := exists_proposedPayment
  exact ⟨proposed, pending, hrun, hpending, hreserved,
    ((coherent_of_engineRun proposed hrun).2.2 pending hpending).2⟩

theorem events_of_engineRun_payment : ∃ engine, EngineRun engine ∧ engine.events ≠ [] ∧
    ∀ event ∈ engine.events.getLast?, event = eventOf engine.finalized := by
  obtain ⟨_, id, proposed, _, _, _, _, _, hproposed, hreturned⟩ := exists_proposedPayment
  have hrun := hproposed.called (.commitProposal id)
  refine ⟨_, hrun, ?_, (events_of_engineRun _ hrun).2⟩
  have houtcome := hproposed.sound.outcome (.commitProposal id) trivial
  generalize Call.run (.commitProposal id) proposed = result at hreturned houtcome
  cases houtcome with
  | failed => cases hreturned
  | committed _ _ hevents => simp [left, hevents]

end Sample

section Reopened

attribute [local instance] flatKeccak sampleTrie namingCurve payingRevm

/-- A new engine, and a block with a payment for it that another engine has finalized. -/
def ahead : Option (SingleValidatorEngine × ValidatedProposal × Bytes) := do
  let engine ← newEngine fundedGenesis
  let first ← (paidBlock engine.finalized [paymentOf 0 5]).toOption
  let bytes ← first.block.encode.toOption
  return (engine, first, bytes)

theorem of_ahead {engine : SingleValidatorEngine} {first : ValidatedProposal} {bytes : Bytes}
    (h : ahead = some (engine, first, bytes)) : EngineRun engine ∧
      validateProposal engine.finalized first.block = .ok first ∧
      first.block.batches ≠ [] ∧ ConsensusBlock.decode bytes = .ok first.block := by
  rw [ahead] at h
  obtain ⟨_, hopened, h⟩ := Option.bind_eq_some_iff.mp h
  obtain ⟨_, hopened⟩ := newEngine_eq_some hopened
  obtain ⟨_, hfirst, h⟩ := Option.bind_eq_some_iff.mp h
  obtain ⟨_, hbytes, h⟩ := Option.bind_eq_some_iff.mp h
  cases h
  obtain ⟨hvalid, hbatches⟩ := paidBlock_eq_ok (toOption_eq_some.mp hfirst)
  exact ⟨.opened hopened, hvalid, by simp [hbatches],
    ConsensusBlock.decode_of_encode (toOption_eq_some.mp hbytes) (by simp [hbatches]; decide)⟩

/-- The engine imports the block and can be opened again. -/
def reopens : Bool :=
  ahead.any fun (engine, first, bytes) =>
    (returned (Call.run (.importBlock first.block) engine)).any fun (_, after) =>
      toldApart [first.block] ∧ engine.finalized.height = 0 ∧ after.finalized.height = 1 ∧
        (value (Database.index KEY_DEV_CHECKPOINT) after.database.tables).toOption = some none ∧
        (value (Database.index (blockKey 1)) after.database.tables).toOption = some (some bytes) ∧
        (returned (openFinalized .archive after.genesis after.database)).isSome

theorem reopens_eq_true : reopens = true := by decide +kernel

theorem openFinalized_agrees_imported : ∃ engine chain disk', EngineRun engine ∧
    engine.finalized.height = 1 ∧
      openFinalized .archive engine.genesis engine.database = .ok chain disk' ∧
      chain = engine.finalized := by
  obtain ⟨⟨engine, first, bytes⟩, hahead, h⟩ := (Option.any_eq_true _ _).mp reopens_eq_true
  obtain ⟨⟨_, after⟩, himport, h⟩ := (Option.any_eq_true _ _).mp h
  obtain ⟨hapart, hzero, hone, hnone, hstored, hopens⟩ := of_decide_eq_true h
  obtain ⟨hrun, hvalid, _, hdecoded⟩ := of_ahead hahead
  obtain ⟨⟨chain, disk'⟩, hopens⟩ := Option.isSome_iff_exists.mp hopens
  have hchain := returned_eq_some.mp hopens
  have hafter : EngineRun after := by
    have hcalled := hrun.called (.importBlock first.block)
    rw [returned_eq_some.mp himport] at hcalled
    exact hcalled
  obtain ⟨hgenesis, hfinalized⟩ : after.genesis = engine.genesis ∧
      after.finalized = first.resultingState := by
    have hmoved := (Call.importBlock first.block).moved engine
    rw [returned_eq_some.mp himport] at hmoved
    cases hmoved with
    | committed hincludes _ =>
      cases hincludes with
      | block _ hagain =>
        rw [hvalid] at hagain
        cases hagain
        exact ⟨rfl, rfl⟩
  have hown : Run engine.finalized [first.block] after.finalized :=
    hfinalized ▸ .cons (.validated _ hvalid) (.nil _)
  refine ⟨after, chain, disk', hafter, hone, hchain, openFinalized_agrees after hafter .archive
    after.database disk' engine.finalized chain [first.block]
    (hgenesis ▸ hrun.finalizes.genesis_of_height hzero) hown rfl (toOption_eq_some.mp hnone) hchain
    (injOn_committed hapart ?_)⟩
  rw [hzero, hone]
  rintro block (hmem | ⟨height, hheight, stored, hvalue, hblock⟩)
  · exact hmem
  · obtain rfl : height = 1 := List.mem_singleton.mp hheight
    rw [toOption_eq_some.mp hstored] at hvalue
    cases hvalue
    rw [hdecoded] at hblock
    exact List.mem_singleton.mpr (Except.ok.inj hblock).symm

end Reopened

end SingleValidatorEngine

end Arbor
