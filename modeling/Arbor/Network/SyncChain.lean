import Arbor.Network.Sync

/-!
# What synchronization accepts

A header response that is accepted extends the local head by one header after the other
(`header_sync_verified`): the loop carries the height and the hash the next header is held to.
Bodies matched with such headers are their blocks.  Blocks are imported in order, each after
its finality was verified (`block_import_order`); the calls of an importer are read off by one
that keeps them.
-/

namespace Arbor

open Result

namespace HeaderSync

section Chain

variable [Keccak] {remote : SyncStatus} {verifier : HeaderFinalityVerifier}

/-- Headers accepted from a height and a parent hash on: each was received at its place and
decodes to the next height, names the hash of the one before it and is finalized. -/
inductive Extends (remote : SyncStatus) (verifier : HeaderFinalityVerifier) :
    Nat → B256 → List FinalizedHeader → List VerifiedHeader → Prop
  | nil {start : Nat} {parent : B256} : Extends remote verifier start parent [] []
  | cons {start : Nat} {parent hash : B256} {finalized : FinalizedHeader}
      {header : ConsensusBlockHeader} {headers : List FinalizedHeader}
      {accepted : List VerifiedHeader} :
      Canonical.decodeConsensusHeader finalized.header = .ok header →
      header.height.toNat = start → header.height ≤ remote.height → header.parentHash = parent →
      verifier finalized header = .ok () → Crypto.consensusHeaderHash header = .ok hash →
      Extends remote verifier (start + 1) hash headers accepted →
      Extends remote verifier start parent (finalized :: headers)
        (⟨header, finalized.finalityProof⟩ :: accepted)

variable {headers : List FinalizedHeader} {accepted : List VerifiedHeader}

theorem Extends.length_eq {start : Nat} {parent : B256}
    (h : Extends remote verifier start parent headers accepted) :
    accepted.length = headers.length := by
  induction h with
  | nil => rfl
  | cons _ _ _ _ _ _ _ ih => rw [List.length_cons, List.length_cons, ih]

/-- **The loop.**  What it accepts extends the chain, and it ends with the hash of the last. -/
theorem verifyHeaders_extends (hremote : remote.height.toNat < 2 ^ 64 - 1) {expected : U64}
    {parent : B256} {tip : B256}
    (h : verifyHeaders remote verifier expected parent headers = .ok (accepted, tip)) :
    Extends remote verifier expected.toNat parent headers accepted ∧
      ∀ last ∈ accepted.getLast?, Crypto.consensusHeaderHash last.header = .ok tip := by
  induction headers generalizing expected parent accepted with
  | nil =>
    cases h
    exact ⟨.nil, by simp⟩
  | cons finalized rest ih =>
    obtain ⟨hheight, h⟩ := check_bind_eq_ok.mp h
    obtain ⟨header, hheader, h⟩ := bind_eq_ok.mp h
    obtain ⟨hclaimed, h⟩ := check_bind_eq_ok.mp h
    obtain ⟨hparent, h⟩ := check_bind_eq_ok.mp h
    obtain ⟨hfinal, h⟩ := check_bind_eq_ok.mp h
    obtain ⟨hash, hhash, h⟩ := bind_eq_ok.mp h
    obtain ⟨⟨later, tip'⟩, hlater, h⟩ := bind_eq_ok.mp h
    cases h
    simp only [rejectIf_eq_ok, not_or, not_not, mapError_eq_ok] at hheight hclaimed hparent hfinal
    rw [mapError_eq_ok] at hheader hhash
    obtain rfl : header.height = expected := hclaimed.trans hheight.1
    have hle : header.height ≤ remote.height := hclaimed ▸ BitVec.not_lt.mp hheight.2
    obtain ⟨hrest, hlast⟩ := ih hlater
    rw [toNat_saturatingSucc (lt_of_le_of_lt
      (show header.height.toNat ≤ remote.height.toNat from hle) hremote)] at hrest
    refine ⟨.cons hheader rfl hle hparent hfinal hhash hrest, ?_⟩
    intro last hmem
    cases hrest with
    | nil =>
      cases hmem
      cases hlater
      exact hhash
    | cons => exact hlast last hmem

omit [Keccak] in
/-- A matched body decodes to a block with the header. -/
theorem finalizedBlockFromBody_eq_ok {pair : VerifiedHeader × BlockBody} {block : FinalizedBlock}
    (h : finalizedBlockFromBody pair = .ok block) :
    ∃ decoded, ConsensusBlock.decode block.block = .ok decoded ∧ decoded.header = pair.1.header ∧
      block.height = pair.1.header.height ∧ block.finalityProof = pair.1.finalityProof := by
  obtain ⟨hheight, h⟩ := check_bind_eq_ok.mp h
  obtain ⟨decoded, hdecoded, h⟩ := bind_eq_ok.mp h
  obtain ⟨hheader, h⟩ := check_bind_eq_ok.mp h
  cases h
  rw [rejectIf_eq_ok, not_not] at hheight hheader
  exact ⟨decoded, mapError_eq_ok.mp hdecoded, hheader, hheight, rfl⟩

/-- **Header synchronization.**  From a peer ahead, a response that is accepted is a chain from
the local head to at most the advertised one, and bodies accepted for it are its blocks. -/
theorem header_sync_verified (own remote : SyncStatus) (headers : List FinalizedHeader)
    (verifier : HeaderFinalityVerifier) (accepted : List VerifiedHeader)
    (hremote : remote.height.toNat < 2 ^ 64 - 1) (hahead : own.height < remote.height)
    (h : verifyResponse own remote headers verifier = .ok accepted) :
    accepted ≠ [] ∧ accepted.length ≤ 64 ∧
      Extends remote verifier (own.height.toNat + 1) own.consensusHash headers accepted ∧
      (∀ last ∈ accepted.getLast?, last.header.height = remote.height →
        Crypto.consensusHeaderHash last.header = .ok remote.consensusHash ∧
          last.header.domainHeadsRoot = remote.domainHeadsRoot) ∧
      ∀ (bodies : List BlockBody) (blocks : List FinalizedBlock),
        finalizedBlocksFromBodies accepted bodies = .ok blocks →
        blocks.length = accepted.length ∧ ∀ (i : Nat) (v : VerifiedHeader) (block : FinalizedBlock),
          accepted[i]? = some v → blocks[i]? = some block →
          ∃ decoded, ConsensusBlock.decode block.block = .ok decoded ∧ decoded.header = v.header ∧
            block.height = v.header.height ∧ block.finalityProof = v.finalityProof := by
  obtain ⟨hcount, h⟩ := check_bind_eq_ok.mp h
  rw [rejectIf_eq_ok, Nat.not_lt] at hcount
  rw [if_neg (BitVec.not_le.mpr hahead)] at h
  obtain ⟨hsome, h⟩ := check_bind_eq_ok.mp h
  obtain ⟨⟨found, tip⟩, hfound, h⟩ := bind_eq_ok.mp h
  obtain ⟨htip, h⟩ := check_bind_eq_ok.mp h
  cases h
  rw [rejectIf_eq_ok] at hsome htip
  obtain ⟨hextends, hlast⟩ := verifyHeaders_extends hremote hfound
  rw [toNat_saturatingSucc
    (lt_trans (show own.height.toNat < remote.height.toNat from hahead) hremote)]
    at hextends
  refine ⟨?_, hextends.length_eq ▸ hcount, hextends, ?_, ?_⟩
  · rintro rfl
    exact hsome (List.length_eq_zero_iff.mp hextends.length_eq.symm)
  · intro last hmem hheight
    have hsame : accepted.getLast? = some last := hmem
    simp only [tipDiffers, hsame, hheight, true_and, decide_eq_true_eq, not_or, not_not] at htip
    rw [hlast last hmem, htip.1]
    exact ⟨rfl, htip.2⟩
  · intro bodies blocks hblocks
    obtain ⟨hbodies, hblocks⟩ := check_bind_eq_ok.mp hblocks
    rw [rejectIf_eq_ok, not_not] at hbodies
    obtain ⟨hlength, hitems⟩ := mapAll_getElem hblocks
    refine ⟨by rw [hlength, List.length_zip, hbodies, min_self], ?_⟩
    intro i v block hv hblock
    obtain ⟨pair, hpair, hmatched⟩ := hitems i block hblock
    obtain ⟨hv', _⟩ := List.getElem?_zip_eq_some.mp hpair
    obtain rfl := Option.some.inj (hv'.symm.trans hv)
    exact finalizedBlockFromBody_eq_ok hmatched

end Chain

section Sample

attribute [local instance] rollingKeccak

def headerHash (header : ConsensusBlockHeader) : B256 :=
  (Crypto.consensusHeaderHash header).toOption.getD 0

def nextHeader : ConsensusBlockHeader := ⟨1, 0, 1, 7, 0, 0, 0, 0, 0, 0, 0⟩

def lastHeader : ConsensusBlockHeader :=
  { nextHeader with height := 2, parentHash := headerHash nextHeader }

def received (header : ConsensusBlockHeader) : FinalizedHeader :=
  ⟨header.height, (Canonical.encodeConsensusHeader header).toOption.getD [], []⟩

/-- The status of a peer whose head is the last of the two. -/
def twoAhead : SyncStatus := ⟨2, headerHash lastHeader, 0, 0⟩

/-- Two headers up to the head of a peer; in the other order they are refused. -/
theorem header_sync_verified_two : ∃ accepted,
    verifyResponse ⟨0, 7, 0, 0⟩ twoAhead [received nextHeader, received lastHeader]
        developmentHeaderVerifier = .ok accepted ∧ accepted.length = 2 ∧
      Extends twoAhead developmentHeaderVerifier 1 7 [received nextHeader, received lastHeader]
        accepted ∧
      (verifyResponse ⟨0, 7, 0, 0⟩ twoAhead [received lastHeader, received nextHeader]
        developmentHeaderVerifier).isOk = false := by
  have hrun : (verifyResponse ⟨0, 7, 0, 0⟩ twoAhead [received nextHeader, received lastHeader]
      developmentHeaderVerifier).toOption = some [⟨nextHeader, []⟩, ⟨lastHeader, []⟩] := by
    decide +kernel
  have haccepted := toOption_eq_some.mp hrun
  exact ⟨_, haccepted, rfl,
    (header_sync_verified ⟨0, 7, 0, 0⟩ twoAhead _ developmentHeaderVerifier _
    (by decide) (by decide) haccepted).2.2.1, by decide +kernel⟩

end Sample

end HeaderSync

namespace BlockSync

section Order

variable {σ ε α β : Type} {importer : BlockImport σ ε} {remote : SyncStatus} {state : σ}

/-- An importer that also keeps the calls of `importBlock`, each with the state it is made in. -/
def recording (importer : BlockImport σ ε) : BlockImport (σ × List (σ × ConsensusBlock)) ε where
  status state := importer.status state.1
  verifyFinality state := importer.verifyFinality state.1
  importBlock block := fun (state, calls) =>
    match importer.importBlock block state with
    | .ok status after => .ok status (after, calls ++ [(state, block)])
    | .error error after => .error error (after, calls ++ [(state, block)])

/-- A run, and the calls it has left behind. -/
def parts : EStateM.Result ε (σ × List (σ × ConsensusBlock)) α →
    EStateM.Result ε σ α × List (σ × ConsensusBlock)
  | .ok a state => (.ok a state.1, state.2)
  | .error error state => (.error error state.1, state.2)

/-- Calls for the first blocks of a response, at heights from a start on: each right after the
finality of the block, as received, was verified in the same state, and none after a failure. -/
inductive Ordered (importer : BlockImport σ ε) :
    Nat → List FinalizedBlock → List (σ × ConsensusBlock) → Prop
  | nil {start : Nat} {blocks : List FinalizedBlock} : Ordered importer start blocks []
  | cons {start : Nat} {finalized : FinalizedBlock} {rest : List FinalizedBlock} {state : σ}
      {block : ConsensusBlock} {calls : List (σ × ConsensusBlock)} :
      ConsensusBlock.decode finalized.block = .ok block → block.header.height.toNat = start →
      importer.verifyFinality state finalized block = .ok () →
      (∀ error after, importer.importBlock block state = .error error after → calls = []) →
      Ordered importer (start + 1) rest calls →
      Ordered importer start (finalized :: rest) ((state, block) :: calls)

theorem give_bind (result : Except (BlockSyncError ε) α)
    (next : α → EStateM (BlockSyncError ε) σ β) : (give result >>= next) state = match result with
      | .ok a => next a state
      | .error error => .error error state := by
  cases result <;> rfl

theorem get_bind (next : σ → EStateM ε σ β) : (get >>= next) state = next state state := rfl

variable [Keccak]

theorem checkBlock_eq_ok {expected : U64} {finalized : FinalizedBlock}
    {checked : ConsensusBlock × B256}
    (h : (checkBlock remote expected finalized : Except (BlockSyncError ε) _) = .ok checked) :
    ConsensusBlock.decode finalized.block = .ok checked.1 ∧ checked.1.header.height = expected ∧
      expected ≤ remote.height ∧ checked.1.hash = .ok checked.2 := by
  obtain ⟨_, h⟩ := check_bind_eq_ok.mp h
  obtain ⟨hheight, h⟩ := check_bind_eq_ok.mp h
  obtain ⟨block, hblock, h⟩ := bind_eq_ok.mp h
  obtain ⟨hclaimed, h⟩ := check_bind_eq_ok.mp h
  obtain ⟨hash, hhash, h⟩ := bind_eq_ok.mp h
  cases h
  simp only [rejectIf_eq_ok, not_or, not_not, mapError_eq_ok] at hheight hblock hclaimed hhash
  exact ⟨hblock, hclaimed.trans hheight.1, hheight.1 ▸ BitVec.not_lt.mp hheight.2, hhash⟩

/-- **The loop.**  Keeping the calls changes nothing, and they are in order; a run that ends
well has made one for every block and returns the status of the last. -/
theorem importBlocks_recording (hremote : remote.height.toNat < 2 ^ 64 - 1)
    (blocks : List FinalizedBlock) {expected : U64} {current : SyncStatus}
    (hcurrent : current.height.toNat + 1 = expected.toNat) (state : σ)
    (log : List (σ × ConsensusBlock)) :
    ∃ calls, parts (importBlocks (recording importer) remote expected current blocks (state, log))
        = (importBlocks importer remote expected current blocks state, log ++ calls) ∧
      Ordered importer expected.toNat blocks calls ∧
      ∀ status after, importBlocks importer remote expected current blocks state
        = .ok status after →
        calls.length = blocks.length ∧ status.height.toNat + 1 = expected.toNat + blocks.length ∧
        (calls = [] → status = current) ∧
        ∀ call ∈ calls.getLast?, call.2.hash = .ok status.consensusHash := by
  induction blocks generalizing expected current state log with
  | nil =>
    refine ⟨[], by rw [List.append_nil]; rfl, .nil, ?_⟩
    intro status after h
    cases h
    exact ⟨rfl, hcurrent, fun _ => rfl, by simp⟩
  | cons finalized rest ih =>
    simp only [importBlocks, give_bind, get_bind]
    cases hchecked : (checkBlock remote expected finalized : Except (BlockSyncError ε) _) with
    | error error => exact ⟨[], by rw [List.append_nil]; rfl, .nil, fun _ _ h => by cases h⟩
    | ok checked =>
      obtain ⟨hdecode, hheight, hle, hhash⟩ := checkBlock_eq_ok hchecked
      simp only [show (recording importer).verifyFinality (state, log)
        = importer.verifyFinality state from rfl]
      cases hverified : importer.verifyFinality state finalized checked.1 with
      | error reason => exact ⟨[], by rw [List.append_nil]; rfl, .nil, fun _ _ h => by cases h⟩
      | ok u =>
        simp only [mapError_ok, run_bind, applied, recording]
        cases himported : importer.importBlock checked.1 state with
        | error error after =>
          exact ⟨[(state, checked.1)], rfl, .cons hdecode (congrArg BitVec.toNat hheight)
            hverified (fun _ _ _ => rfl) .nil, fun _ _ h => by cases h⟩
        | ok status after =>
          have hcons : ∀ calls, Ordered importer (expected.toNat + 1) rest calls →
              Ordered importer expected.toNat (finalized :: rest)
                ((state, checked.1) :: calls) := by
            refine fun calls => .cons hdecode (congrArg BitVec.toNat hheight) hverified ?_
            intro error other h
            rw [himported] at h
            cases h
          by_cases hbad : status.height ≠ expected ∨ status.consensusHash ≠ checked.2
          · simp only [rejectIf, if_pos hbad]
            exact ⟨[(state, checked.1)], rfl, hcons [] .nil, fun _ _ h => by cases h⟩
          · simp only [rejectIf, if_neg hbad]
            rw [not_or, not_not, not_not] at hbad
            have hnext := toNat_saturatingSucc (lt_of_le_of_lt
              (show expected.toNat ≤ remote.height.toNat from hle) hremote)
            obtain ⟨calls, hparts, hordered, hdone⟩ :=
              ih (by rw [hbad.1, hnext]) after (log ++ [(state, checked.1)])
            rw [hnext] at hordered hdone
            refine ⟨(state, checked.1) :: calls, ?_, hcons calls hordered, ?_⟩
            · rw [List.append_assoc] at hparts
              exact hparts
            · intro final last hrun
              obtain ⟨hlength, hfinal, hempty, hlast⟩ := hdone final last hrun
              refine ⟨by simp [hlength], by rw [List.length_cons]; omega, by simp, ?_⟩
              cases calls with
              | nil =>
                intro call hmem
                cases hmem
                rw [hempty rfl, hbad.2]
                exact hhash
              | cons next calls => exact hlast

/-- **Imports are in order.**  The calls a response leads to are for its first blocks, and for
all of them if the response is imported. -/
theorem block_import_order (sync : BlockSync) (importer : BlockImport σ ε) (remote : SyncStatus)
    (blocks : List FinalizedBlock) (state : σ) (hremote : remote.height.toNat < 2 ^ 64 - 1) :
    ∃ calls, parts (importResponse sync (recording importer) remote blocks (state, []))
        = (importResponse sync importer remote blocks state, calls) ∧
      (∀ before, importer.status state = .ok before →
        Ordered importer (before.height.toNat + 1) blocks calls) ∧
      (∀ error, importer.status state = .error error → calls = []) ∧
      ∀ report after, importResponse sync importer remote blocks state = .ok report after →
        importer.status state = .ok report.before ∧ report.imported = blocks.length ∧
        calls.length = blocks.length ∧
        report.after.height.toNat = report.before.height.toNat + report.imported ∧
        (report.before.height < remote.height → 1 ≤ report.imported ∧
          (∀ call ∈ calls.getLast?, call.2.hash = .ok report.after.consensusHash) ∧
          (report.after.height = remote.height →
            report.after.consensusHash = remote.consensusHash ∧
              report.after.domainHeadsRoot = remote.domainHeadsRoot)) := by
  have hsame : (recording importer).status (state, []) = importer.status state := rfl
  simp only [importResponse, give_bind, get_bind, hsame]
  by_cases hmany : sync.maxBlocksPerResponse < blocks.length
  · simp only [rejectIf, if_pos hmany]
    exact ⟨[], rfl, fun _ _ => .nil, fun _ _ => rfl, fun _ _ h => by cases h⟩
  simp only [rejectIf, if_neg hmany]
  cases hstatus : importer.status state with
  | error error => exact ⟨[], rfl, fun _ _ => .nil, fun _ _ => rfl, fun _ _ h => by cases h⟩
  | ok before =>
    simp only [mapError_ok]
    by_cases hbehind : remote.height ≤ before.height
    · simp only [if_pos hbehind, give_bind]
      by_cases hblocks : blocks = []
      · simp only [hblocks, ne_eq, not_true_eq_false, if_false]
        refine ⟨[], rfl, fun _ _ => .nil, fun _ _ => rfl, ?_⟩
        intro report after h
        cases h
        exact ⟨rfl, rfl, rfl, rfl, fun hahead => absurd hbehind (BitVec.not_le.mpr hahead)⟩
      · simp only [ne_eq, hblocks, not_false_eq_true, if_true]
        exact ⟨[], rfl, fun _ _ => .nil, fun _ _ => rfl, fun _ _ h => by cases h⟩
    · simp only [if_neg hbehind, give_bind]
      by_cases hblocks : blocks = []
      · simp only [if_pos hblocks]
        exact ⟨[], rfl, fun _ _ => .nil, fun _ _ => rfl, fun _ _ h => by cases h⟩
      simp only [if_neg hblocks, run_bind]
      have hahead : before.height.toNat < remote.height.toNat := BitVec.not_le.mp hbehind
      have hnext := toNat_saturatingSucc (lt_trans hahead hremote)
      obtain ⟨calls, hparts, hordered, hdone⟩ :=
        importBlocks_recording hremote blocks hnext.symm state []
      rw [hnext] at hordered hdone
      have hall : ∀ other, (.ok before : Except ε SyncStatus) = .ok other →
          Ordered importer (other.height.toNat + 1) blocks calls := by
        intro other h
        cases h
        exact hordered
      refine ⟨calls, ?_⟩
      generalize importBlocks (recording importer) remote
        (saturatingSucc before.height) before blocks
        (state, []) = recorded at hparts
      generalize importBlocks importer remote (saturatingSucc before.height) before blocks state
        = run
        at hparts hdone
      cases recorded with
      | error error after =>
        cases hparts
        exact ⟨rfl, hall, by simp, fun _ _ h => by cases h⟩
      | ok current after =>
        cases hparts
        by_cases htip : current.height = remote.height ∧
          (current.consensusHash ≠ remote.consensusHash ∨
            current.domainHeadsRoot ≠ remote.domainHeadsRoot)
        · simp only [if_pos htip]
          exact ⟨rfl, hall, by simp, fun _ _ h => by cases h⟩
        · simp only [if_neg htip]
          refine ⟨rfl, hall, by simp, ?_⟩
          intro report last h
          cases h
          obtain ⟨hlength, hheight, _, hlast⟩ := hdone current after.1 rfl
          have hpos := List.length_pos_iff.mpr hblocks
          refine ⟨rfl, rfl, hlength, by dsimp only; omega, fun _ => ⟨hpos, hlast, ?_⟩⟩
          intro hreached
          rw [not_and, not_or, not_not, not_not] at htip
          exact htip hreached

end Order

section Sample

attribute [local instance] rollingKeccak

def blockOf (header : ConsensusBlockHeader) : FinalizedBlock :=
  ⟨header.height, (ConsensusBlock.encode ⟨header, [], []⟩).toOption.getD [], []⟩

/-- An importer that takes every block for its head. -/
def accepting : BlockImport SyncStatus Unit where
  status state := .ok state
  verifyFinality _ _ _ := .ok ()
  importBlock block := fun _ =>
    let head : SyncStatus := ⟨block.header.height, block.hash.toOption.getD 0, 0, 0⟩
    .ok head head

/-- The two blocks of a peer that is two ahead are imported one after the other. -/
theorem block_import_order_two : ∃ calls,
    parts (importResponse ⟨2⟩ (recording accepting) HeaderSync.twoAhead
        [blockOf HeaderSync.nextHeader, blockOf HeaderSync.lastHeader] (⟨0, 7, 0, 0⟩, []))
      = (importResponse ⟨2⟩ accepting HeaderSync.twoAhead
          [blockOf HeaderSync.nextHeader, blockOf HeaderSync.lastHeader] ⟨0, 7, 0, 0⟩, calls) ∧
    calls.map (fun call => (call.1.height, call.2.header.height)) = [(0, 1), (1, 2)] ∧
    Ordered accepting 1 [blockOf HeaderSync.nextHeader, blockOf HeaderSync.lastHeader] calls := by
  obtain ⟨calls, hparts, hordered, _⟩ := block_import_order ⟨2⟩ accepting
    HeaderSync.twoAhead [blockOf HeaderSync.nextHeader, blockOf HeaderSync.lastHeader] ⟨0, 7, 0, 0⟩
    (by decide)
  have hcalls : (parts (importResponse ⟨2⟩ (recording accepting) HeaderSync.twoAhead
      [blockOf HeaderSync.nextHeader, blockOf HeaderSync.lastHeader] (⟨0, 7, 0, 0⟩, []))).2.map
        (fun call => (call.1.height, call.2.header.height)) = [(0, 1), (1, 2)] := by decide +kernel
  rw [hparts] at hcalls
  exact ⟨calls, hparts, hcalls, hordered _ rfl⟩

end Sample

end BlockSync

end Arbor
