import Arbor.Chain.Frame
import Arbor.Chain.ResultProof
import Arbor.Chain.Updates
import Arbor.Codec.CanonicalRoundTrip

/-!
# Runs of blocks

A run is the list of blocks that leads from one finalized state to another.  Its head's hash
determines it (`consensusHash_determines_run`).  Backward, each hash gives a header and with it
the hash before; forward, each header gives the batches of its block, and these the state after
it.  Only the strings that the blocks' hashes and batch roots are taken of must not collide.

What executing a batch keeps of a domain, a run keeps of it (`Run.domain_induct`).
-/

namespace Arbor

open Result Canonical MerkleList List

/-! ## What the hash of a block binds -/

namespace ConsensusBlock

variable [Keccak] {leafTag : Bytes} {values values' : List Bytes}

/-- What is hashed for the root of an empty collection. -/
def emptyPreimage (leafTag : Bytes) : Bytes := rootPreimage leafTag 0 (merkleEmpty leafTag 0)

/-- Everything hashed for the root of a collection that may be empty. -/
def hashedFor (leafTag : Bytes) (values : List Bytes) : List Bytes :=
  emptyPreimage leafTag :: collectionPreimages leafTag values

theorem merkleCollectionRoot_hashed (leafTag : Bytes) (values : List Bytes) :
    ∃ tree, merkleCollectionRoot leafTag values
        = keccak256 (rootPreimage leafTag values.length tree) ∧
      rootPreimage leafTag values.length tree ∈ hashedFor leafTag values ∧
      (values ≠ [] → tree = treeHash leafTag values) := by
  by_cases hvalues : values = []
  · subst hvalues
    exact ⟨_, rfl, mem_cons_self, fun hne => absurd rfl hne⟩
  · exact ⟨_, merkleCollectionRoot_eq leafTag hvalues, by simp [hashedFor, collectionPreimages],
      fun _ => rfl⟩

/-- One digest is left on top. -/
theorem rise_eq_treeHash (hvalues : values ≠ []) :
    rise keccak256 (branchPreimage leafTag) (padding leafTag) (Nat.clog 2 values.length) 0
      (leaves leafTag values) = [treeHash leafTag values] := by
  have hleaves : leaves leafTag values ≠ [] := by
    simpa [leaves] using hvalues
  have hlength := length_rise_clog keccak256 (branchPreimage leafTag) (padding leafTag) 0 hleaves
  rw [length_leaves] at hlength
  obtain ⟨top, htop⟩ := length_eq_one_iff.mp hlength
  rw [treeHash, htop]
  rfl

/-- **Collections are bound by their root.** -/
theorem merkleCollectionRoot_inj (hcount : values.length < 2 ^ 32)
    (hcount' : values'.length < 2 ^ 32)
    (hinj : Set.InjOn keccak256 {bytes | bytes ∈ hashedFor leafTag values ∨
      bytes ∈ hashedFor leafTag values'})
    (h : merkleCollectionRoot leafTag values = merkleCollectionRoot leafTag values') :
    values = values' := by
  obtain ⟨tree, hroot, hmem, htree⟩ := merkleCollectionRoot_hashed leafTag values
  obtain ⟨tree', hroot', hmem', htree'⟩ := merkleCollectionRoot_hashed leafTag values'
  rw [hroot, hroot'] at h
  obtain ⟨hlength, htop⟩ := rootPreimage_inj hcount hcount' (hinj (.inl hmem) (.inr hmem') h)
  by_cases hvalues : values = []
  · subst hvalues
    exact (length_eq_zero_iff.mp hlength.symm).symm
  have hvalues' : values' ≠ [] := by
    intro hnil
    rw [hnil] at hlength
    exact hvalues (length_eq_zero_iff.mp hlength)
  have hleaves : leaves leafTag values = leaves leafTag values' := by
    refine rise_inj keccak256 (branchPreimage leafTag) (padding leafTag)
      (branchPreimage_inj leafTag) (by simpa using hlength) (hinj.mono ?_)
      (d := 0) (h := Nat.clog 2 values.length) ?_
    · intro bytes hbytes
      rw [hlength] at hbytes
      refine hbytes.imp ?_ ?_ <;> intro hbytes <;>
        simp [hashedFor, collectionPreimages, hlength, hbytes]
    · rw [rise_eq_treeHash hvalues, hlength, rise_eq_treeHash hvalues', ← htree hvalues,
        ← htree' hvalues', htop]
  refine ext_getElem hlength fun k hk hk' => ?_
  have hleaf := congrArg (·[k]?) hleaves
  simp only [leaves, getElem?_mapIdx, getElem?_eq_getElem hk, getElem?_eq_getElem hk',
    Option.map_some, Option.some.injEq, hlength] at hleaf
  refine leafPreimage_inj (hinj (.inl ?_) (.inr ?_) hleaf)
  · refine mem_cons_of_mem _ (mem_append_left _ (mem_append_left _ (mem_mapIdx.mpr ⟨k, hk, ?_⟩)))
    rw [hlength]
  · exact mem_cons_of_mem _ (mem_append_left _ (mem_append_left _ (mem_mapIdx.mpr ⟨k, hk', rfl⟩)))

/-- Everything hashed for the hash of a block and the root of its batches. -/
def committed (block : ConsensusBlock) : List Bytes :=
  (encodeConsensusHeader block.header).toOption.toList ++
    ((mapAll encodeDomainBatch block.batches).toOption.map (hashedFor BATCH_LEAF_TAG)).getD []

/-- What a block's hash is taken of is among given strings. -/
def CommittedIn (strings : Set Bytes) (block : ConsensusBlock) : Prop :=
  ∀ bytes ∈ block.committed, bytes ∈ strings

variable {strings : Set Bytes} (hinj : Set.InjOn keccak256 strings) {block block' : ConsensusBlock}
  (hblock : block.CommittedIn strings) (hblock' : block'.CommittedIn strings)
include hinj hblock hblock'

/-- Blocks with one hash have one header. -/
theorem header_eq_of_hash {hash : B256} (h : Crypto.consensusHeaderHash block.header = .ok hash)
    (h' : Crypto.consensusHeaderHash block'.header = .ok hash) : block.header = block'.header := by
  obtain ⟨bytes, hbytes, hhash⟩ := bind_eq_ok.mp h
  obtain ⟨bytes', hbytes', hhash'⟩ := bind_eq_ok.mp h'
  rw [mapError_eq_ok] at hbytes hbytes'
  cases hhash
  have hsame : bytes = bytes' := by
    refine hinj (hblock _ ?_) (hblock' _ ?_) (Except.ok.inj hhash').symm <;>
      simp [committed, hbytes, hbytes', Except.toOption]
  rw [exact_consensusHeader] at hbytes hbytes'
  rw [hsame, hbytes'] at hbytes
  exact (Except.ok.inj hbytes).symm

/-- Blocks with one root of batches have the same batches. -/
theorem batches_eq_of_root (hcount : block.batches.length ≤ MAX_BATCHES_PER_BLOCK)
    (hcount' : block'.batches.length ≤ MAX_BATCHES_PER_BLOCK) {root : B256}
    (h : batchesRoot block.batches = .ok root) (h' : batchesRoot block'.batches = .ok root) :
    block.batches = block'.batches := by
  obtain ⟨values, hvalues, hroot⟩ := bind_eq_ok.mp h
  obtain ⟨values', hvalues', hroot'⟩ := bind_eq_ok.mp h'
  rw [ChainError.ofCodec, mapError_eq_ok] at hvalues hvalues'
  cases hroot
  have hbound : MAX_BATCHES_PER_BLOCK < 2 ^ 32 := by decide
  have hsame : values = values' := by
    refine merkleCollectionRoot_inj ?_ ?_ (hinj.mono ?_) (Except.ok.inj hroot').symm
    · rw [(mapAll_getElem hvalues).1]
      exact lt_of_le_of_lt hcount hbound
    · rw [(mapAll_getElem hvalues').1]
      exact lt_of_le_of_lt hcount' hbound
    · intro bytes hbytes
      refine hbytes.elim (fun hbytes => hblock _ ?_) (fun hbytes => hblock' _ ?_) <;>
        simp [committed, hvalues, hvalues', Except.toOption, hbytes]
  have hdecode := fun value bytes => (exact_domainBatch value bytes).mp
  have hdecoded := mapAll_inverse hdecode hvalues
  rw [hsame, mapAll_inverse hdecode hvalues'] at hdecoded
  exact (Except.ok.inj hdecoded).symm

end ConsensusBlock

/-! ## Runs -/

namespace ChainMachine

section Runs

variable [Keccak] [Secp256k1] [Revm] [OrderedTrie]

/-- The blocks that lead from one finalized state to another. -/
inductive Run : FinalizedChainState → List ConsensusBlock → FinalizedChainState → Prop
  | nil (chain : FinalizedChainState) : Run chain [] chain
  | cons {chain last : FinalizedChainState} {proposal : ValidatedProposal}
      {blocks : List ConsensusBlock} : Proposes chain proposal →
      Run proposal.resultingState blocks last → Run chain (proposal.block :: blocks) last

variable {chain chain' last last' : FinalizedChainState} {proposal proposal' : ValidatedProposal}
  {blocks blocks' : List ConsensusBlock}

/-- What a block fixes of the state after it. -/
structure Sealed (chain : FinalizedChainState) (proposal : ValidatedProposal) : Prop where
  hash : Crypto.consensusHeaderHash proposal.block.header
    = .ok proposal.resultingState.consensusHash
  parentHash : proposal.block.header.parentHash = chain.consensusHash
  root : ConsensusBlock.batchesRoot proposal.block.batches = .ok proposal.block.header.batchesRoot
  count : proposal.block.batches.length ≤ MAX_BATCHES_PER_BLOCK
  height : proposal.resultingState.height.toNat = chain.height.toNat + 1
  timestamp : chain.timestamp.toNat < proposal.resultingState.timestamp.toNat ∧
    proposal.resultingState.timestamp.toNat ≤ chain.timestamp.toNat + MAX_TIMESTAMP_STEP_SECONDS

theorem sealed_of_proposes (h : Proposes chain proposal) : Sealed chain proposal := by
  obtain ⟨_, hran⟩ := h.executes_block
  obtain ⟨executed, hrun⟩ := execute_eq_ok hran
  obtain ⟨_, _, hresulting⟩ := hrun.resulting
  refine ⟨(execute_head hran).1, (execute_extends hran).parentHash, ?_, hrun.count, ?_, ?_⟩
  · obtain ⟨root, hroot, hsealed⟩ := bind_eq_ok.mp hrun.sealed
    obtain ⟨resultsRoot, _, hsealed⟩ := bind_eq_ok.mp hsealed
    obtain ⟨encoded, _, hsealed⟩ := bind_eq_ok.mp hsealed
    obtain ⟨_, hsealed⟩ := check_bind_eq_ok.mp hsealed
    obtain ⟨_, _, hsealed⟩ := bind_eq_ok.mp hsealed
    have hheader : root = proposal.block.header.batchesRoot :=
      congrArg (·.block.header.batchesRoot) (Except.ok.inj hsealed)
    rw [← hheader]
    exact hroot
  · rw [hresulting, BitVec.toNat_add_of_lt hrun.height]
    rfl
  · have htimely := hrun.timely
    obtain ⟨_, htimely⟩ := check_bind_eq_ok.mp htimely
    rw [rejectIf_eq_ok, not_or, not_lt, not_lt, Nat.le_min] at htimely
    rw [hresulting]
    exact ⟨htimely.1, htimely.2.1⟩

theorem Run.height (h : Run chain blocks last) :
    last.height.toNat = chain.height.toNat + blocks.length := by
  induction h with
  | nil => rfl
  | cons hproposes _ ih =>
    rw [ih, (sealed_of_proposes hproposes).height, length_cons]
    omega

theorem Run.eq_of_height (h : Run chain blocks last) (heq : last.height = chain.height) :
    last = chain := by
  have hheight := h.height
  cases h with
  | nil => rfl
  | cons =>
    rw [heq, length_cons] at hheight
    omega

theorem Run.clock (h : Run chain blocks last) :
    chain.timestamp.toNat + blocks.length ≤ last.timestamp.toNat ∧
      last.timestamp.toNat ≤ chain.timestamp.toNat
        + MAX_TIMESTAMP_STEP_SECONDS * blocks.length := by
  induction h with
  | nil => exact ⟨le_refl _, le_refl _⟩
  | cons hproposes _ ih =>
    have hsealed := (sealed_of_proposes hproposes).timestamp
    rw [length_cons, Nat.mul_succ]
    omega

theorem Run.identity (h : Run chain blocks last) : last.identity = chain.identity := by
  induction h with
  | nil => rfl
  | cons hproposes _ ih => exact ih.trans (execute_identity hproposes.executes_block.2)

section Binding

variable {strings : Set Bytes} (hinj : Set.InjOn keccak256 strings)
include hinj

/-- Two blocks on one state with the same header are the same proposal. -/
theorem proposal_eq_of_header (hblock : proposal.block.CommittedIn strings)
    (hblock' : proposal'.block.CommittedIn strings) (h : Proposes chain proposal)
    (h' : Proposes chain proposal') (hheader : proposal.block.header = proposal'.block.header) :
    proposal = proposal' := by
  have hsealed := sealed_of_proposes h
  have hsealed' := sealed_of_proposes h'
  have hbatches := ConsensusBlock.batches_eq_of_root hinj hblock hblock' hsealed.count
      hsealed'.count
    hsealed.root (hheader ▸ hsealed'.root)
  have hran := h.executes_block.2
  rw [hbatches, hheader, h'.executes_block.2] at hran
  exact (Except.ok.inj hran).symm

/-- Backward along two runs: one final hash, one list of headers. -/
theorem Run.headers_eq (h : Run chain blocks last) (h' : Run chain' blocks' last')
    (hblocks : ∀ block ∈ blocks, block.CommittedIn strings)
    (hblocks' : ∀ block ∈ blocks', block.CommittedIn strings)
    (hlength : blocks.length = blocks'.length) (hlast : last.consensusHash = last'.consensusHash) :
    blocks.map (·.header) = blocks'.map (·.header) ∧
    chain.consensusHash = chain'.consensusHash := by
  induction h generalizing chain' blocks' with
  | nil =>
    cases h' with
    | nil => exact ⟨rfl, hlast⟩
    | cons => cases hlength
  | cons hproposes _ ih =>
    cases h' with
    | nil => cases hlength
    | cons hproposes' hrest' =>
      obtain ⟨hblock, hblocks⟩ := forall_mem_cons.mp hblocks
      obtain ⟨hblock', hblocks'⟩ := forall_mem_cons.mp hblocks'
      have hsealed := sealed_of_proposes hproposes
      have hsealed' := sealed_of_proposes hproposes'
      obtain ⟨hheaders, hhash⟩ := ih hrest' hblocks hblocks' (Nat.succ.inj hlength) hlast
      have hheader := ConsensusBlock.header_eq_of_hash hinj hblock hblock' hsealed.hash
        (hhash ▸ hsealed'.hash)
      refine ⟨?_, ?_⟩
      · rw [map_cons, map_cons, hheader, hheaders]
      · rw [← hsealed.parentHash, hheader, hsealed'.parentHash]

/-- Forward along two runs: one list of headers, one run. -/
theorem Run.eq_of_headers (h : Run chain blocks last) (h' : Run chain blocks' last')
    (hblocks : ∀ block ∈ blocks, block.CommittedIn strings)
    (hblocks' : ∀ block ∈ blocks', block.CommittedIn strings)
    (hheaders : blocks.map (·.header) = blocks'.map (·.header)) :
    blocks = blocks' ∧ last = last' := by
  induction h generalizing blocks' with
  | nil =>
    cases h' with
    | nil => exact ⟨rfl, rfl⟩
    | cons => cases hheaders
  | cons hproposes _ ih =>
    cases h' with
    | nil => cases hheaders
    | cons hproposes' htail =>
      obtain ⟨hblock, hrest⟩ := forall_mem_cons.mp hblocks
      obtain ⟨hblock', hmore⟩ := forall_mem_cons.mp hblocks'
      obtain ⟨hheader, htails⟩ := cons.inj hheaders
      obtain rfl := proposal_eq_of_header hinj hblock hblock' hproposes hproposes' hheader
      obtain ⟨rfl, hlast⟩ := ih htail hrest hmore htails
      exact ⟨rfl, hlast⟩

theorem Run.eq_of_head (h : Run chain blocks last) (h' : Run chain blocks' last')
    (hblocks : ∀ block ∈ blocks, block.CommittedIn strings)
    (hblocks' : ∀ block ∈ blocks', block.CommittedIn strings)
    (hheight : last.height = last'.height) (hhash : last.consensusHash = last'.consensusHash) :
    blocks = blocks' ∧ last = last' := by
  have hlength : blocks.length = blocks'.length := by
    have hsame := congrArg BitVec.toNat hheight
    rw [h.height, h'.height] at hsame
    omega
  have hheaders := (h.headers_eq hinj h' hblocks hblocks' hlength hhash).1
  exact h.eq_of_headers hinj h' hblocks hblocks' hheaders

end Binding

/-- **The head's hash determines the chain.**  Two runs from one state whose heads have the same
height and hash have the same blocks and end in the same state. -/
theorem consensusHash_determines_run (chain last last' : FinalizedChainState)
    (blocks blocks' : List ConsensusBlock) (h : Run chain blocks last)
    (h' : Run chain blocks' last')
    (hinj : Set.InjOn keccak256 {bytes | ∃ block ∈ blocks ++ blocks', bytes ∈ block.committed})
    (hheight : last.height = last'.height) (hhash : last.consensusHash = last'.consensusHash) :
    blocks = blocks' ∧ last = last' := by
  refine h.eq_of_head hinj h' ?_ ?_ hheight hhash
  · exact fun block hmem bytes hbytes => ⟨block, mem_append_left _ hmem, hbytes⟩
  · exact fun block hmem bytes hbytes => ⟨block, mem_append_right _ hmem, hbytes⟩

/-! ## What runs keep -/

/-- A block leaves a domain as it was or executes a batch on it. -/
theorem domain_after (h : Proposes chain proposal) {domainId : DomainId} {before : FinalizedDomain}
    (hbefore : chain.domains[domainId]? = some before) :
    ∃ after, proposal.resultingState.domains[domainId]? = some after ∧
      (after = before ∨ ∃ timestamp proposer batch header execution,
        advance chain timestamp proposer before batch = .ok (header, execution, after)) := by
  obtain ⟨hsorted, hran⟩ := h.executes_block
  have hplaced := execute_placed (nodup_of_batchesSorted hsorted) hran
  by_cases hbatch : domainId ∈ proposal.block.batches.map (·.domainId)
  · obtain ⟨batch, hmem, rfl⟩ := mem_map.mp hbatch
    obtain ⟨found, header, execution, after, hfound, hadvance, hafter⟩ :=
      hplaced.advanced batch hmem
    rw [hbefore] at hfound
    cases hfound
    exact ⟨after, hafter, .inr ⟨_, _, batch, header, execution, hadvance⟩⟩
  · have hmem : domainId ∈ chain.domains := OrdMap.mem_iff_exists.mpr ⟨before, hbefore⟩
    exact ⟨before, (hplaced.idle domainId hmem hbatch).trans hbefore, .inl rfl⟩

/-- What every batch keeps of its domain, a run keeps. -/
theorem Run.domain_induct {P : FinalizedDomain → Prop} {domainId : DomainId}
    {before : FinalizedDomain}
    (hstep : ∀ {chain timestamp proposer before batch header execution after},
      P before → advance chain timestamp proposer before batch = .ok (header, execution, after) →
      P after)
    (h : Run chain blocks last) (hbefore : chain.domains[domainId]? = some before) (hP : P before) :
    ∃ after, last.domains[domainId]? = some after ∧ P after := by
  induction h generalizing before with
  | nil => exact ⟨before, hbefore, hP⟩
  | cons hproposes _ ih =>
    obtain ⟨middle, hmiddle, rfl | ⟨_, _, _, _, _, hadvance⟩⟩ := domain_after hproposes hbefore
    · exact ih hmiddle hP
    · exact ih hmiddle (hstep hP hadvance)

/-- **What every run keeps.**  Heights count the blocks, the clock moves between one and thirty
seconds with each, the network, the root domain and the governance address stay, and no domain
disappears, changes its configuration or goes back to a lower block. -/
theorem run_keeps (chain last : FinalizedChainState) (blocks : List ConsensusBlock)
    (h : Run chain blocks last) :
    last.height.toNat = chain.height.toNat + blocks.length ∧
      chain.timestamp.toNat + blocks.length ≤ last.timestamp.toNat ∧
      last.timestamp.toNat ≤ chain.timestamp.toNat + MAX_TIMESTAMP_STEP_SECONDS * blocks.length ∧
      last.identity = chain.identity ∧
      ∀ (domainId : DomainId) (before : FinalizedDomain), chain.domains[domainId]? = some before →
        ∃ after : FinalizedDomain, last.domains[domainId]? = some after ∧
          after.config = before.config ∧ before.header.number ≤ after.header.number := by
  refine ⟨h.height, h.clock.1, h.clock.2, h.identity, ?_⟩
  intro domainId before hbefore
  refine h.domain_induct (P := fun domain => domain.config = before.config ∧
    before.header.number ≤ domain.header.number) ?_ hbefore ⟨rfl, BitVec.le_refl _⟩
  intro _ _ _ middle _ _ _ after hmiddle hadvance
  have hadvanced := advanced_of_advance hadvance
  refine ⟨hadvanced.config.trans hmiddle.1, ?_⟩
  rw [BitVec.le_def, hadvanced.number]
  exact Nat.le_succ_of_le hmiddle.2

end Runs

section Sample

/-- Whether no two strings collide that given blocks commit to. -/
def toldApart [Keccak] (blocks : List ConsensusBlock) : Bool :=
  let strings := blocks.flatMap (·.committed)
  strings.all fun x => strings.all fun y => keccak256 x = keccak256 y → x = y

theorem injOn_committed [Keccak] {blocks : List ConsensusBlock} (h : toldApart blocks = true)
    {P : ConsensusBlock → Prop} (hP : ∀ block, P block → block ∈ blocks) :
    Set.InjOn keccak256 {bytes | ∃ block, P block ∧ bytes ∈ block.committed} := by
  simp only [toldApart, all_eq_true, mem_flatMap, decide_eq_true_eq] at h
  rintro x ⟨block, hblock, hx⟩ y ⟨block', hblock', hy⟩
  exact h x ⟨block, hP block hblock, hx⟩ y ⟨block', hP block' hblock', hy⟩

attribute [local instance] flatKeccak namingCurve payingRevm sampleTrie

/-- A block of a payment, and two blocks of different payments after it. -/
def fork :
    Option (FinalizedChainState × ValidatedProposal × ValidatedProposal × ValidatedProposal) := do
  let start ← fundedChain.toOption
  let first ← (paidBlock start [paymentOf 0 5]).toOption
  let second ← (paidBlock first.resultingState [paymentOf 1 7]).toOption
  let other ← (paidBlock first.resultingState [paymentOf 1 8]).toOption
  return (start, first, second, other)

theorem exists_fork : ∃ start first second other : _, paidBlock start [paymentOf 0 5] = .ok first ∧
    paidBlock first.resultingState [paymentOf 1 7] = .ok second ∧
    paidBlock first.resultingState [paymentOf 1 8] = .ok other ∧
    toldApart [first.block, second.block, other.block] = true := by
  obtain ⟨⟨start, first, second, other⟩, hfork, hapart⟩ : ∃ sample, fork = some sample ∧
      toldApart [sample.2.1.block, sample.2.2.1.block, sample.2.2.2.block] = true :=
    (Option.any_eq_true _ _).mp (by decide +kernel)
  rw [fork] at hfork
  obtain ⟨_, _, h⟩ := Option.bind_eq_some_iff.mp hfork
  obtain ⟨_, hfirst, h⟩ := Option.bind_eq_some_iff.mp h
  obtain ⟨_, hsecond, h⟩ := Option.bind_eq_some_iff.mp h
  obtain ⟨_, hother, h⟩ := Option.bind_eq_some_iff.mp h
  cases h
  exact ⟨start, first, second, other, toOption_eq_some.mp hfirst, toOption_eq_some.mp hsecond,
    toOption_eq_some.mp hother, hapart⟩

/-- Runs that part at their second blocks end in different hashes. -/
theorem consensusHash_determines_run_fork : ∃ chain first second other last last',
    Run chain [first, second] last ∧ Run chain [first, other] last' ∧ second ≠ other ∧
      last.height = last'.height ∧ last.consensusHash ≠ last'.consensusHash := by
  obtain ⟨start, first, second, other, hfirst, hsecond, hother, hapart⟩ := exists_fork
  obtain ⟨hfirst, _⟩ := paidBlock_eq_ok hfirst
  obtain ⟨hsecond, hbatches⟩ := paidBlock_eq_ok hsecond
  obtain ⟨hother, hbatches'⟩ := paidBlock_eq_ok hother
  have hrun : Run start [first.block, second.block] second.resultingState :=
    .cons (.validated _ hfirst) (.cons (.validated _ hsecond) (.nil _))
  have hrun' : Run start [first.block, other.block] other.resultingState :=
    .cons (.validated _ hfirst) (.cons (.validated _ hother) (.nil _))
  have hne : second.block ≠ other.block := by
    intro heq
    rw [heq, hbatches', cons.injEq] at hbatches
    have hpayments : [paymentOf 1 8] = [paymentOf 1 7] :=
      congrArg DomainBatch.transactions hbatches.1
    exact absurd hpayments (by decide +kernel)
  have hheight : second.resultingState.height = other.resultingState.height :=
    BitVec.eq_of_toNat_eq (hrun.height.trans hrun'.height.symm)
  refine ⟨_, _, _, _, _, _, hrun, hrun', hne, hheight, fun hhash => hne ?_⟩
  have hblocks := (consensusHash_determines_run start _ _ _ _ hrun hrun'
    (injOn_committed hapart (by simp)) hheight hhash).1
  exact head_eq_of_cons_eq (tail_eq_of_cons_eq hblocks)

/-- Two blocks with payments raise the height by two. -/
theorem run_keeps_two_payments : ∃ chain first second last, Run chain [first, second] last ∧
    first.batches ≠ [] ∧ second.batches ≠ [] ∧
    last.height.toNat = chain.height.toNat + 2 ∧ last.identity = chain.identity := by
  obtain ⟨start, first, second, _, hfirst, hsecond, _⟩ := exists_fork
  obtain ⟨hfirst, hbatches⟩ := paidBlock_eq_ok hfirst
  obtain ⟨hsecond, hbatches'⟩ := paidBlock_eq_ok hsecond
  have hrun : Run start [first.block, second.block] second.resultingState :=
    .cons (.validated _ hfirst) (.cons (.validated _ hsecond) (.nil _))
  obtain ⟨hheight, _, _, hidentity, _⟩ := run_keeps start _ _ hrun
  exact ⟨_, _, _, _, hrun, by simp [hbatches], by simp [hbatches'], hheight, hidentity⟩

end Sample

end ChainMachine

end Arbor
