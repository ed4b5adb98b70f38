import Arbor.Consensus.Reached
import Arbor.Network.SyncChain
import Arbor.Node.Networked

/-!
# Nodes that agree

Whatever blocks a peer sends, an import moves the finalized state along a run.  If it reaches the
height a leader advertises, the states are the same: the head's hash was compared, and it
determines the run.
-/

namespace Arbor

open Result ChainMachine SingleValidatorEngine

namespace Node

section Agreement

variable [Keccak] [Secp256k1] [Revm] [OrderedTrie]

/-- What the importer reports of an engine. -/
def statusOf (engine : SingleValidatorEngine) : SyncStatus :=
  engineStatus engine engine.finalized.height

/-- The finalized state moves along blocks that were sent. -/
def Follows (sent : List FinalizedBlock) (engine after : SingleValidatorEngine) : Prop :=
  ∃ blocks, Run engine.finalized blocks after.finalized ∧
    ∀ block ∈ blocks, ∃ item ∈ sent, ConsensusBlock.decode item.block = .ok block

theorem importBlock_eq_ok {engine after : SingleValidatorEngine} {block : ConsensusBlock}
    {status : SyncStatus} (h : developmentImporter.importBlock block engine = .ok status after) :
    status = statusOf after ∧ ∃ proposal, Proposes engine.finalized proposal ∧
      proposal.block = block ∧ after.finalized = proposal.resultingState := by
  obtain ⟨stats, _, himport, h⟩ := run_bind_eq_ok.mp h
  cases h
  have hmoved : Moved engine (.importBlock block) (importDevelopmentFinalizedBlock block engine) :=
    moved_importBlock block
  rw [himport] at hmoved
  cases hmoved with
  | committed hincludes _ =>
    cases hincludes with
    | block _ hvalid =>
      exact ⟨rfl, _, .validated block hvalid, block_of_validateProposal hvalid, rfl⟩

omit [Keccak] [Secp256k1] [Revm] [OrderedTrie] in
theorem give_eq_ok {σ ε α : Type} {result : Except (BlockSyncError ε) α} {a : α} {state after : σ}
    (h : BlockSync.give result state = .ok a after) : result = .ok a ∧ state = after := by
  cases result with
  | error error => cases h
  | ok a =>
    cases h
    exact ⟨rfl, rfl⟩

/-- **The loop** moves along a run of the blocks that were sent. -/
theorem importBlocks_follows {remote : SyncStatus} {expected : U64} {sent : List FinalizedBlock}
    {engine after : SingleValidatorEngine} {status : SyncStatus}
    (h : BlockSync.importBlocks developmentImporter remote expected (statusOf engine) sent engine
      = .ok status after) : status = statusOf after ∧ Follows sent engine after := by
  induction sent generalizing expected engine with
  | nil =>
    cases h
    exact ⟨rfl, [], .nil _, fun _ hmem => by cases hmem⟩
  | cons item rest ih =>
    rw [BlockSync.importBlocks] at h
    obtain ⟨checked, _, hgiven, hfinal⟩ := run_bind_eq_ok.mp h
    obtain ⟨hchecked, rfl⟩ := give_eq_ok hgiven
    obtain ⟨hdecoded, _⟩ := BlockSync.checkBlock_eq_ok hchecked
    dsimp only at hfinal
    rw [BlockSync.get_bind] at hfinal
    obtain ⟨_, _, hverified, himport⟩ := run_bind_eq_ok.mp hfinal
    obtain ⟨_, rfl⟩ := give_eq_ok hverified
    obtain ⟨current, next, hcurrent, hcompared⟩ := run_bind_eq_ok.mp himport
    obtain ⟨_, _, haccepted, hrest⟩ := run_bind_eq_ok.mp hcompared
    obtain ⟨_, rfl⟩ := give_eq_ok haccepted
    have hran : developmentImporter.importBlock checked.1 engine = .ok current next := by
      rw [BlockSync.applied] at hcurrent
      split at hcurrent
      · cases hcurrent
        assumption
      · cases hcurrent
    obtain ⟨rfl, proposal, hproposes, hblock, hnext⟩ := importBlock_eq_ok hran
    obtain ⟨hstatus, blocks, hblocks, hsent⟩ := ih hrest
    rw [hnext] at hblocks
    refine ⟨hstatus, _, .cons hproposes hblocks, List.forall_mem_cons.mpr ⟨?_, ?_⟩⟩
    · exact ⟨item, List.mem_cons_self, hblock ▸ hdecoded⟩
    · intro block hmem
      obtain ⟨other, hother, hdecoded⟩ := hsent block hmem
      exact ⟨other, List.mem_cons_of_mem _ hother, hdecoded⟩

/-- **Synchronized nodes agree.**  Where an import ends at the height a leader advertises, and the
leader's state follows from the state before, both states are the same, whatever was sent. -/
theorem importResponse_agrees (engine after leader : SingleValidatorEngine) (sync : BlockSync)
    (checkpointHeight : U64) (sent : List FinalizedBlock) (own : List ConsensusBlock)
    (report : BlockSyncReport) (h : sync.importResponse developmentImporter
      (engineStatus leader checkpointHeight) sent engine = .ok report after)
    (hheight : report.after.height = leader.finalized.height)
    (hown : Run engine.finalized own leader.finalized)
    (hinj : Set.InjOn keccak256 {bytes | ∃ block : ConsensusBlock, (block ∈ own ∨
      ∃ item ∈ sent, ConsensusBlock.decode item.block = .ok block) ∧ bytes ∈ block.committed}) :
    after.finalized = leader.finalized := by
  rw [BlockSync.importResponse, BlockSync.give_bind] at h
  split at h
  case h_2 => cases h
  have hbefore : developmentImporter.status engine = .ok (statusOf engine) := rfl
  rw [BlockSync.get_bind, BlockSync.give_bind, hbefore, mapError_ok] at h
  dsimp only at h
  split at h
  · -- Nothing is imported: the leader is not ahead.
    rw [BlockSync.give_bind] at h
    split at h
    case h_2 => cases h
    cases h
    exact (hown.eq_of_height hheight.symm).symm
  · rw [BlockSync.give_bind] at h
    split at h
    case h_2 => cases h
    obtain ⟨status, last, hstatus, h⟩ := run_bind_eq_ok.mp h
    rw [BlockSync.give_bind] at h
    split at h
    case h_2 => cases h
    rename_i htip
    cases h
    obtain ⟨rfl, imported, hrun, hdecoded⟩ := importBlocks_follows hstatus
    rw [rejectIf_eq_ok, not_and, not_or, not_not] at htip
    refine (hrun.eq_of_head hinj hown ?_ ?_ hheight (htip hheight).1).2
    · exact fun block hmem bytes hbytes => ⟨block, .inr (hdecoded block hmem), hbytes⟩
    · exact fun block hmem bytes hbytes => ⟨block, .inl hmem, hbytes⟩

end Agreement

section Sample

open Device

attribute [local instance] flatKeccak sampleTrie namingCurve payingRevm

/-- The engine imports the block from its leader. -/
def catchesUp : Bool :=
  ahead.any fun (engine, first, bytes) => toldApart [first.block] &&
    match BlockSync.development.importResponse developmentImporter
      (engineStatus { engine with finalized := first.resultingState } 0)
        [⟨1, bytes, []⟩] engine with
    | .ok report _ => report.after.height = first.resultingState.height
    | .error _ _ => false

theorem catchesUp_eq_true : catchesUp = true := by decide +kernel

/-- A follower that imports a block with a payment agrees with its leader. -/
theorem importResponse_agrees_payment :
    ∃ (engine after leader : SingleValidatorEngine) (block : ConsensusBlock),
    Run engine.finalized [block] leader.finalized ∧ block.batches ≠ [] ∧
      leader.finalized.height.toNat = engine.finalized.height.toNat + 1 ∧
      after.finalized = leader.finalized := by
  obtain ⟨⟨engine, first, bytes⟩, hahead, h⟩ := (Option.any_eq_true _ _).mp catchesUp_eq_true
  dsimp only at h
  rw [Bool.and_eq_true] at h
  obtain ⟨hapart, h⟩ := h
  split at h
  case h_2 => cases h
  rename_i report after himport
  obtain ⟨_, hvalid, hbatches, hdecoded⟩ := of_ahead hahead
  have hproposes : Proposes engine.finalized first := .validated _ hvalid
  have hown : Run engine.finalized [first.block] first.resultingState := .cons hproposes (.nil _)
  refine ⟨engine, after, { engine with finalized := first.resultingState }, first.block, hown,
    hbatches,
    (sealed_of_proposes hproposes).height, importResponse_agrees engine after _ _ 0 _ [first.block]
      report himport (of_decide_eq_true h) hown (injOn_committed hapart ?_)⟩
  rintro block (hmem | ⟨item, hitem, hblock⟩)
  · exact hmem
  · rw [List.mem_singleton.mp hitem, hdecoded] at hblock
    exact List.mem_singleton.mpr (Except.ok.inj hblock).symm

end Sample

end Node

end Arbor
