import Arbor.Lib.MerkleList
import Arbor.Chain.Machine

/-!
# Proofs of domain results

A consensus header commits the domain headers of its block by a hash tree over their
encodings.  A result proof shows one of them to whoever has the header: it carries the
position, the number of results and the hashes met on the way to the root.

The tree is the Merkle tree over lists of `MerkleList`, read at the code's tagged
preimages; a verified proof then names the result that stands at its position.
-/

namespace Arbor

open Result Canonical MerkleList List

/-- Inclusion proof of one domain result; siblings go from the leaves upward. -/
structure DomainResultProof where
  root : B256
  result : DomainBlockHeader
  index : U32
  count : U32
  siblings : List B256
  deriving DecidableEq

/-! ## Preimages -/

namespace ConsensusBlock

def leafPreimage (leafTag : Bytes) (count index : Nat) (value : Bytes) : Bytes :=
  leafTag ++ [CANONICAL_CODEC_VERSION] ++ toBytes (BitVec.ofNat 32 count) ++
    toBytes (BitVec.ofNat 32 index) ++ toBytes (BitVec.ofNat 32 value.length) ++ value

/-- The depth counts up and stays at the largest 16-bit number. -/
def branchPreimage (leafTag : Bytes) (depth : Nat) (left right : B256) : Bytes :=
  MERKLE_BRANCH_TAG ++ [CANONICAL_CODEC_VERSION] ++ leafTag ++
    toBytes (BitVec.ofNat 16 (min depth 65535)) ++ toBytes left ++ toBytes right

def rootPreimage (leafTag : Bytes) (count : Nat) (treeHash : B256) : Bytes :=
  MERKLE_ROOT_TAG ++ [CANONICAL_CODEC_VERSION] ++ leafTag ++
    toBytes (BitVec.ofNat 32 count) ++ toBytes treeHash

theorem leafPreimage_inj {leafTag : Bytes} {count index index' : Nat} {value value' : Bytes}
    (h : leafPreimage leafTag count index value = leafPreimage leafTag count index' value') :
    value = value' := by
  simp only [leafPreimage, append_assoc, append_cancel_left_eq] at h
  obtain ⟨_, h⟩ := toBytes_append_inj (by decide) h
  exact (toBytes_append_inj (by decide) h).2

theorem branchPreimage_inj (leafTag : Bytes) (depth : Nat) (l r l' r' : B256)
    (h : branchPreimage leafTag depth l r = branchPreimage leafTag depth l' r') :
    l = l' ∧ r = r' := by
  simp only [branchPreimage, append_assoc, append_cancel_left_eq] at h
  obtain ⟨hl, hr⟩ := toBytes_append_inj (by decide) h
  exact ⟨hl, toBytes_injective (by decide) hr⟩

theorem rootPreimage_inj {leafTag : Bytes} {count count' : Nat} {tree tree' : B256}
    (hcount : count < 2 ^ 32) (hcount' : count' < 2 ^ 32)
    (h : rootPreimage leafTag count tree = rootPreimage leafTag count' tree') :
    count = count' ∧ tree = tree' := by
  simp only [rootPreimage, append_assoc, append_cancel_left_eq] at h
  obtain ⟨hword, htree⟩ := toBytes_append_inj (by decide) h
  refine ⟨?_, toBytes_injective (by decide) htree⟩
  have hnat := congrArg BitVec.toNat hword
  rwa [BitVec.toNat_ofNat, BitVec.toNat_ofNat, Nat.mod_eq_of_lt hcount,
    Nat.mod_eq_of_lt hcount'] at hnat

theorem min_succ_depth (depth : Nat) : min (min depth 65535 + 1) 65535 = min (depth + 1) 65535 := by
  omega

section Roots

variable [Keccak]

/-! ## The code's tree is the library's -/

def leaves (leafTag : Bytes) (values : List Bytes) : List B256 :=
  values.mapIdx fun index value => collectionLeaf leafTag values.length index value

def padding (leafTag : Bytes) (depth : Nat) : B256 := merkleEmpty leafTag (min depth 65535)

variable (leafTag : Bytes) (depth : Nat)

theorem nextLevel_eq (level : List B256) : nextLevel leafTag (min depth 65535) level
      = above keccak256 (branchPreimage leafTag) (padding leafTag) depth level := by
  induction level using nextLevel.induct with
  | case1 left right rest ih =>
    rw [nextLevel, ih]
    simp [above, pairs, branchPreimage, collectionBranch]
  | case2 left => simp [nextLevel, above, pairs, branchPreimage,
    collectionBranch, padding]
  | case3 => simp [nextLevel, above, pairs]

theorem treeTop_eq {fuel : Nat} {level : List B256}
    (hfuel : level.length ≤ fuel) : treeTop leafTag fuel (min depth 65535) level
      = (rise keccak256 (branchPreimage leafTag) (padding leafTag)
          (Nat.clog 2 level.length) depth level).headD 0 := by
  induction fuel generalizing depth level with
  | zero =>
    rw [length_eq_zero_iff.mp (Nat.le_zero.mp hfuel)]
    rfl
  | succ fuel ih =>
    rw [treeTop]
    by_cases hsmall : level.length ≤ 1
    · rw [if_pos hsmall, Nat.clog_of_right_le_one hsmall]
      rfl
    · have hlong : 1 < level.length := by omega
      rw [if_neg hsmall, min_succ_depth, nextLevel_eq, ih, length_above, clog_half hlong]
      · rfl
      · rw [length_above]
        omega

def treeHash (leafTag : Bytes) (values : List Bytes) : B256 :=
  (MerkleList.rise keccak256 (branchPreimage leafTag) (padding leafTag)
    (Nat.clog 2 values.length) 0 (leaves leafTag values)).headD 0

@[simp] theorem length_leaves (values : List Bytes) :
    (leaves leafTag values).length = values.length := by
  simp [leaves]

theorem merkleCollectionRoot_eq {values : List Bytes} (hvalues : values ≠ []) :
    merkleCollectionRoot leafTag values
      = keccak256 (rootPreimage leafTag values.length (treeHash leafTag values)) := by
  have hleaves : leaves leafTag values ≠ [] := by
    simpa [leaves] using hvalues
  have htop := treeTop_eq leafTag 0 (Nat.le_refl (leaves leafTag values).length)
  rw [length_leaves] at htop
  change collectionRoot leafTag values.length (treeTop leafTag
    (if leaves leafTag values = [] then [merkleEmpty leafTag 0] else leaves leafTag values).length 0
    (if leaves leafTag values = [] then [merkleEmpty leafTag 0] else leaves leafTag values)) = _
  rw [if_neg hleaves, length_leaves]
  exact congrArg (collectionRoot leafTag values.length) htop

/-- Everything hashed for the root of a collection. -/
def collectionPreimages (leafTag : Bytes) (values : List Bytes) : List Bytes :=
  values.mapIdx (fun index value => leafPreimage leafTag values.length index value) ++
    MerkleList.risePreimages keccak256 (branchPreimage leafTag) (padding leafTag)
      (Nat.clog 2 values.length) 0 (leaves leafTag values) ++
    [rootPreimage leafTag values.length (treeHash leafTag values)]

/-! ## Building a proof -/

/-- The siblings met while the levels above `level` are built; a level halves, so its
length is fuel enough. -/
def proofSiblings : Nat → Nat → Nat → List B256 → List B256
  | 0, _, _, _ => []
  | fuel + 1, depth, cursor, level =>
    if level.length ≤ 1 then []
    else
      (if cursor % 2 = 0 then level[cursor + 1]?.getD (merkleEmpty RESULT_LEAF_TAG depth)
        else level[cursor - 1]?.getD 0) ::
      proofSiblings fuel (min (depth + 1) 65535) (cursor / 2)
        (nextLevel RESULT_LEAF_TAG depth level)

/-- The proof of a domain's result, if the block has a batch of that domain. -/
def domainResultProof (block : ConsensusBlock) (domainId : DomainId) :
    Except ChainError (Option DomainResultProof) :=
  match block.domainBlocks.zipIdx.find? fun entry => entry.1.domainId == domainId with
  | none => .ok none
  | some (result, index) => do
    let values ← ChainError.ofCodec (mapAll Canonical.encodeDomainHeader block.domainBlocks)
    rejectIf (2 ^ 32 ≤ values.length) (.encoding "domain result count")
    let level := values.mapIdx fun position value =>
      collectionLeaf RESULT_LEAF_TAG values.length position value
    return some
      { root := block.header.domainResultsRoot
        result
        index := BitVec.ofNat 32 index
        count := BitVec.ofNat 32 values.length
        siblings := proofSiblings level.length 0 index level }

theorem proofSiblings_eq {fuel cursor : Nat} {level : List B256}
    (hfuel : level.length ≤ fuel) (hcursor : cursor < level.length) :
    proofSiblings fuel (min depth 65535) cursor level
      = partners keccak256 (branchPreimage RESULT_LEAF_TAG) (padding RESULT_LEAF_TAG)
          (Nat.clog 2 level.length) depth cursor level := by
  induction fuel generalizing depth cursor level with
  | zero => omega
  | succ fuel ih =>
    rw [proofSiblings]
    by_cases hsmall : level.length ≤ 1
    · rw [if_pos hsmall, Nat.clog_of_right_le_one hsmall]
      rfl
    · have hlong : 1 < level.length := by omega
      rw [if_neg hsmall, min_succ_depth, nextLevel_eq, ih, length_above, clog_half hlong]
      · congr 1
        unfold partner
        by_cases hpar : cursor % 2 = 0
        · rw [if_pos hpar, if_pos hpar]
          rfl
        · have hbelow : cursor - 1 < level.length := by omega
          rw [if_neg hpar, if_neg hpar, getElem?_eq_getElem hbelow]
          rfl
      · rw [length_above]
        omega
      · rw [length_above]
        omega

end Roots

end ConsensusBlock

/-! ## Verifying a proof -/

namespace DomainResultProof

open ConsensusBlock

/-- The number of levels over `width` leaves; a 32-bit width halves at most 32 times. -/
def expectedLevels : Nat → Nat → Nat
  | 0, _ => 0
  | fuel + 1, width => if width ≤ 1 then 0 else expectedLevels fuel ((width + 1) / 2) + 1

theorem expectedLevels_eq {fuel width : Nat} (hwidth : width ≤ 2 ^ fuel) :
    expectedLevels fuel width = Nat.clog 2 width := by
  induction fuel generalizing width with
  | zero => rw [Nat.clog_of_right_le_one (by omega), expectedLevels]
  | succ fuel ih =>
    rw [expectedLevels]
    by_cases hsmall : width ≤ 1
    · rw [if_pos hsmall, Nat.clog_of_right_le_one hsmall]
    · rw [if_neg hsmall, clog_half (by omega), ih (by rw [Nat.pow_succ] at hwidth; omega)]

section Verify

variable [Keccak]

/-- The hash rebuilt from a leaf hash and the siblings above it. -/
def rebuild : Nat → Nat → B256 → List B256 → Except ChainError B256
  | _, _, digest, [] => .ok digest
  | depth, cursor, digest, sibling :: siblings => do
    rejectIf (65535 < depth) (.invalidResultProof "depth overflow")
    rebuild (depth + 1) (cursor / 2)
      (if cursor % 2 = 0 then collectionBranch RESULT_LEAF_TAG depth digest sibling
        else collectionBranch RESULT_LEAF_TAG depth sibling digest) siblings

def verify (proof : DomainResultProof) : Except ChainError Unit := do
  rejectIf (proof.count = 0 ∨ proof.count.toNat ≤ proof.index.toNat)
    (.invalidResultProof "index/count")
  rejectIf (proof.siblings.length ≠ expectedLevels 32 proof.count.toNat)
    (.invalidResultProof "depth")
  let encoded ← ChainError.ofCodec (Canonical.encodeDomainHeader proof.result)
  let leaf := collectionLeaf RESULT_LEAF_TAG proof.count.toNat proof.index.toNat encoded
  let hash ← rebuild 0 proof.index.toNat leaf proof.siblings
  rejectIf (collectionRoot RESULT_LEAF_TAG proof.count.toNat hash ≠ proof.root)
    (.invalidResultProof "root mismatch")

def leafHash (proof : DomainResultProof) : B256 :=
  keccak256 (leafPreimage RESULT_LEAF_TAG proof.count.toNat proof.index.toNat
    (Canonical.domainHeaderBytes proof.result))

def climbed (proof : DomainResultProof) : B256 :=
  MerkleList.climb keccak256 (branchPreimage RESULT_LEAF_TAG) 0 proof.index.toNat proof.leafHash
    proof.siblings

def preimages (proof : DomainResultProof) : List Bytes :=
  leafPreimage RESULT_LEAF_TAG proof.count.toNat proof.index.toNat
      (Canonical.domainHeaderBytes proof.result) ::
    MerkleList.climbPreimages keccak256 (branchPreimage RESULT_LEAF_TAG) 0 proof.index.toNat
      proof.leafHash proof.siblings ++
    [rootPreimage RESULT_LEAF_TAG proof.count.toNat proof.climbed]

theorem rebuild_eq {depth cursor : Nat} {hash : B256} {siblings : List B256}
    (hdepth : depth + siblings.length ≤ 65536) : rebuild depth cursor hash siblings
      = .ok (climb keccak256 (branchPreimage RESULT_LEAF_TAG) depth cursor hash
          siblings) := by
  induction siblings generalizing depth cursor hash with
  | nil => rfl
  | cons sibling siblings ih =>
    rw [length_cons] at hdepth
    have hsmall : ¬65535 < depth := by omega
    rw [rebuild, rejectIf_neg hsmall, ok_bind, ih (by omega), climb]
    have hbranch : ∀ left right, collectionBranch RESULT_LEAF_TAG depth left right
        = keccak256 (branchPreimage RESULT_LEAF_TAG depth left right) := by
      intro left right
      rw [branchPreimage, Nat.min_eq_left (by omega)]
      rfl
    simp only [hbranch, joint, apply_ite keccak256]

/-- What verification checks. -/
theorem verify_eq_ok_iff (proof : DomainResultProof) :
    proof.verify = .ok () ↔ proof.index.toNat < proof.count.toNat ∧
      proof.siblings.length = Nat.clog 2 proof.count.toNat ∧
      keccak256 (rootPreimage RESULT_LEAF_TAG proof.count.toNat proof.climbed) = proof.root := by
  have hwidth : proof.count.toNat ≤ 2 ^ 32 := proof.count.isLt.le
  have hlevels : Nat.clog 2 proof.count.toNat ≤ 32 := Nat.clog_le_of_le_pow hwidth
  have hencoded : ChainError.ofCodec (encodeDomainHeader proof.result)
      = .ok (domainHeaderBytes proof.result) := by
    rw [encodeDomainHeader_eq]
    rfl
  have hindex : ¬(proof.count = 0 ∨ proof.count.toNat ≤ proof.index.toNat) ↔
      proof.index.toNat < proof.count.toNat := by
    constructor
    · intro h
      omega
    · rintro h (hzero | hle)
      · rw [hzero] at h
        exact absurd h (Nat.not_lt_zero _)
      · omega
  simp only [verify, check_bind_eq_ok, rejectIf_eq_ok, hindex, expectedLevels_eq hwidth, ne_eq,
    not_not, hencoded, ok_bind]
  constructor
  · rintro ⟨hlt, hlen, h⟩
    refine ⟨hlt, hlen, ?_⟩
    rw [rebuild_eq (by omega), ok_bind, rejectIf_eq_ok, not_not] at h
    exact h
  · rintro ⟨hlt, hlen, h⟩
    refine ⟨hlt, hlen, ?_⟩
    rw [rebuild_eq (by omega), ok_bind, rejectIf_eq_ok, not_not]
    exact h

end Verify

end DomainResultProof

/-! ## Completeness and soundness -/

def ConsensusBlock.resultBytes (block : ConsensusBlock) : List Bytes :=
  block.domainBlocks.map Canonical.domainHeaderBytes

theorem ofCodec_encodeResults (results : List DomainBlockHeader) :
    ChainError.ofCodec (mapAll encodeDomainHeader results)
      = .ok (results.map domainHeaderBytes) := by
  have h := mapAll_map (g := id) (l := results) fun header _ =>
    encodeDomainHeader_eq header
  rw [map_id] at h
  rw [h]
  rfl

section Results

variable [Keccak]

open ConsensusBlock

theorem domainResultsRoot_eq {results : List DomainBlockHeader} (hresults : results ≠ []) :
    domainResultsRoot results = .ok (keccak256 (rootPreimage RESULT_LEAF_TAG results.length
      (treeHash RESULT_LEAF_TAG (results.map domainHeaderBytes)))) := by
  have hvalues : results.map domainHeaderBytes ≠ [] := by simpa using hresults
  rw [domainResultsRoot, ofCodec_encodeResults, ok_bind, merkleCollectionRoot_eq _ hvalues,
    length_map]
  rfl

variable {index : Nat}

/-- The tree hash sits above every leaf. -/
theorem rise_leaves (values : List Bytes) (hindex : index < values.length) :
    (rise keccak256 (branchPreimage RESULT_LEAF_TAG) (padding RESULT_LEAF_TAG)
      (Nat.clog 2 values.length) 0 (leaves RESULT_LEAF_TAG values))[
        index / 2 ^ Nat.clog 2 values.length]? = some (treeHash RESULT_LEAF_TAG values) := by
  have hvalues : leaves RESULT_LEAF_TAG values ≠ [] := by
    intro hnil
    have := congrArg length hnil
    rw [length_leaves, length_nil] at this
    omega
  have hlength := length_rise_clog keccak256 (branchPreimage RESULT_LEAF_TAG)
    (padding RESULT_LEAF_TAG) 0 hvalues
  rw [length_leaves] at hlength
  have hpow : values.length ≤ 2 ^ Nat.clog 2 values.length := Nat.le_pow_clog (by decide) _
  rw [Nat.div_eq_of_lt (by omega), treeHash]
  obtain ⟨top, htop⟩ := length_eq_one_iff.mp hlength
  rw [htop]
  rfl

theorem getElem?_leaves {values : List Bytes} :
    (leaves RESULT_LEAF_TAG values)[index]? = values[index]?.map fun value =>
      keccak256 (leafPreimage RESULT_LEAF_TAG values.length index value) := by
  rw [leaves, getElem?_mapIdx]
  rfl

def ConsensusBlock.proofAt (block : ConsensusBlock) (index : Nat) (result : DomainBlockHeader) :
    DomainResultProof where
  root := block.header.domainResultsRoot
  result := result
  index := BitVec.ofNat 32 index
  count := BitVec.ofNat 32 block.domainBlocks.length
  siblings := proofSiblings block.domainBlocks.length 0 index
    (leaves RESULT_LEAF_TAG block.resultBytes)

variable {block : ConsensusBlock} {result : DomainBlockHeader}

theorem domainResultProof_eq (hcount : block.domainBlocks.length < 2 ^ 32)
    (hdistinct : (block.domainBlocks.map (·.domainId)).Nodup)
    (hresult : block.domainBlocks[index]? = some result) :
    block.domainResultProof result.domainId = .ok (some (block.proofAt index result)) := by
  have hfind : (block.domainBlocks.zipIdx.find? fun entry => entry.1.domainId == result.domainId)
      = some (result, index) := by
    have hmem : (result, index) ∈ block.domainBlocks.zipIdx :=
      List.mem_zipIdx_iff_getElem?.mpr hresult
    have hsome : (block.domainBlocks.zipIdx.find? fun entry =>
        entry.1.domainId == result.domainId).isSome :=
      List.find?_isSome.mpr ⟨(result, index), hmem, beq_self_eq_true _⟩
    obtain ⟨entry, hentry⟩ := Option.isSome_iff_exists.mp hsome
    have hid := List.find?_some hentry
    have hat := List.mem_zipIdx_iff_getElem?.mp (List.mem_of_find?_eq_some hentry)
    -- The entry found has the same domain, so it stands at the same position.
    have hsame : entry.2 = index := by
      refine (List.getElem?_inj (i := entry.2) ?_ hdistinct).mp ?_
      · rw [List.length_map]
        exact (List.getElem?_eq_some_iff.mp hat).1
      · rw [List.getElem?_map, List.getElem?_map, hat, hresult]
        simpa using hid
    rw [hentry]
    rw [hsame, hresult] at hat
    cases hsame
    cases hat
    rfl
  have hvalues := ofCodec_encodeResults block.domainBlocks
  have hlimit : ¬2 ^ 32 ≤ block.domainBlocks.length := by omega
  simp only [domainResultProof, hfind, hvalues, ok_bind, List.length_map, rejectIf_neg hlimit,
    pure_eq, List.length_mapIdx]
  congr 2
  simp only [proofAt, leaves, resultBytes, List.length_map]

theorem verify_proofAt (hcount : block.domainBlocks.length < 2 ^ 32)
    (hroot : domainResultsRoot block.domainBlocks = .ok block.header.domainResultsRoot)
    (hresult : block.domainBlocks[index]? = some result) :
    (block.proofAt index result).verify = .ok () := by
  obtain ⟨hindex, -⟩ := List.getElem?_eq_some_iff.mp hresult
  have hnonempty : block.domainBlocks ≠ [] := List.ne_nil_of_length_pos (by omega)
  have hnumber : (block.proofAt index result).count.toNat = block.domainBlocks.length := by
    rw [proofAt, BitVec.toNat_ofNat, Nat.mod_eq_of_lt hcount]
  have hposition : (block.proofAt index result).index.toNat = index := by
    rw [proofAt, BitVec.toNat_ofNat, Nat.mod_eq_of_lt (by omega)]
  have hlength : block.resultBytes.length = block.domainBlocks.length := by
    rw [resultBytes, List.length_map]
  have hleaf : (leaves RESULT_LEAF_TAG block.resultBytes)[index]?
      = some (block.proofAt index result).leafHash := by
    rw [getElem?_leaves, resultBytes, List.getElem?_map, hresult, List.length_map,
      DomainResultProof.leafHash, hnumber, hposition]
    rfl
  have hsiblings : (block.proofAt index result).siblings
      = partners keccak256 (branchPreimage RESULT_LEAF_TAG) (padding RESULT_LEAF_TAG)
          (Nat.clog 2 block.domainBlocks.length) 0 index
          (leaves RESULT_LEAF_TAG block.resultBytes) := by
    have hfuel : (leaves RESULT_LEAF_TAG block.resultBytes).length ≤ block.domainBlocks.length := by
      rw [length_leaves, hlength]
    have hinside : index < (leaves RESULT_LEAF_TAG block.resultBytes).length := by
      rw [length_leaves, hlength]
      exact hindex
    have h := proofSiblings_eq 0 hfuel hinside
    rw [length_leaves, hlength] at h
    exact h
  refine (DomainResultProof.verify_eq_ok_iff _).mpr ⟨?_, ?_, ?_⟩
  · rw [hnumber, hposition]
    exact hindex
  · rw [hsiblings, length_partners, hnumber]
  · have hclimb := climb_partners keccak256 (branchPreimage RESULT_LEAF_TAG)
      (padding RESULT_LEAF_TAG) (h := Nat.clog 2 block.domainBlocks.length) (d := 0) hleaf
    have htop := rise_leaves block.resultBytes (hlength.symm ▸ hindex)
    rw [hlength] at htop
    rw [hclimb] at htop
    rw [DomainResultProof.climbed, hsiblings, hposition, Option.some.inj htop, hnumber]
    rw [domainResultsRoot_eq hnonempty] at hroot
    exact Except.ok.inj hroot

theorem result_of_verify {proof : DomainResultProof}
    (hnonempty : block.domainBlocks ≠ []) (hcount : block.domainBlocks.length < 2 ^ 32)
    (hroot : domainResultsRoot block.domainBlocks = .ok proof.root) (hinj : Set.InjOn keccak256
      {p | p ∈ collectionPreimages RESULT_LEAF_TAG block.resultBytes ∨ p ∈ proof.preimages})
    (hverify : proof.verify = .ok ()) : proof.count.toNat = block.domainBlocks.length ∧
      block.domainBlocks[proof.index.toNat]? = some proof.result := by
  obtain ⟨hlt, hlevels, hhash⟩ := (DomainResultProof.verify_eq_ok_iff proof).mp hverify
  have hlength : block.resultBytes.length = block.domainBlocks.length := by
    rw [resultBytes, length_map]
  rw [domainResultsRoot_eq hnonempty, ← hhash] at hroot
  have hpreimage := hinj
    (.inl (mem_append_right _ (mem_singleton.mpr (by rw [hlength]; rfl))))
    (.inr (mem_append_right _ (mem_singleton_self _))) (Except.ok.inj hroot)
  obtain ⟨hnumber, htree⟩ := rootPreimage_inj hcount proof.count.isLt hpreimage
  refine ⟨hnumber.symm, ?_⟩
  rw [← hnumber] at hlt hlevels
  have htop := rise_leaves block.resultBytes (hlength.symm ▸ hlt)
  rw [hlength, ← hlevels] at htop
  -- Down the tree to the leaf.
  have hleaf := climb_sound keccak256 (branchPreimage RESULT_LEAF_TAG)
    (padding RESULT_LEAF_TAG) (branchPreimage_inj RESULT_LEAF_TAG) 0
    (leaves RESULT_LEAF_TAG block.resultBytes) proof.leafHash proof.siblings
    (by rw [length_leaves, hlength]; exact hlt)
    (hinj.mono (by
      rintro p (hp | hp)
      · rw [hlevels, ← hlength] at hp
        exact .inl (mem_append_left _ (mem_append_right _ hp))
      · exact .inr (mem_append_left _ (mem_cons_of_mem _ hp))))
    (htop.trans (congrArg some htree))
  -- And through the leaf's hash to the encoded header.
  have hstored : block.domainBlocks[proof.index.toNat]?
      = some (block.domainBlocks[proof.index.toNat]) := getElem?_eq_getElem hlt
  have hbytes : block.resultBytes[proof.index.toNat]?
      = some (domainHeaderBytes block.domainBlocks[proof.index.toNat]) := by
    rw [resultBytes, getElem?_map, hstored]
    rfl
  rw [getElem?_leaves, hbytes, Option.map_some, Option.some.injEq]
    at hleaf
  have hvalue := hinj (.inl (mem_append_left _ (mem_append_left _
    (mem_iff_getElem?.mpr ⟨proof.index.toNat, by rw [getElem?_mapIdx, hbytes]; rfl⟩))))
    (.inr (mem_append_left _ mem_cons_self)) hleaf
  rw [hlength, hnumber] at hvalue
  rw [hstored, domainHeaderBytes_inj (leafPreimage_inj hvalue)]

/-- **Result proofs are complete and sound.**  In a block whose header commits its results,
every listed domain has a proof that verifies, and a proof that verifies against the root,
whatever its position, count, result and siblings, names the result at that position. -/
theorem domain_result_proofs (block : ConsensusBlock) (hnonempty : block.domainBlocks ≠ [])
    (hcount : block.domainBlocks.length ≤ 2 ^ 32 - 1)
    (hdistinct : (block.domainBlocks.map (·.domainId)).Nodup)
    (hroot : domainResultsRoot block.domainBlocks = .ok block.header.domainResultsRoot) :
    (∀ result ∈ block.domainBlocks, ∃ proof,
      block.domainResultProof result.domainId = .ok (some proof) ∧
        proof.root = block.header.domainResultsRoot ∧ proof.result = result ∧
        proof.verify = .ok ()) ∧
    ∀ proof : DomainResultProof, proof.root = block.header.domainResultsRoot →
      Set.InjOn keccak256
        {p | p ∈ collectionPreimages RESULT_LEAF_TAG block.resultBytes ∨ p ∈ proof.preimages} →
      proof.verify = .ok () →
      proof.count.toNat = block.domainBlocks.length ∧
        proof.index.toNat < block.domainBlocks.length ∧
        block.domainBlocks[proof.index.toNat]? = some proof.result := by
  have hfits : block.domainBlocks.length < 2 ^ 32 := by omega
  constructor
  · intro result hmem
    obtain ⟨index, hresult⟩ := List.mem_iff_getElem?.mp hmem
    exact ⟨block.proofAt index result, domainResultProof_eq hfits hdistinct hresult, rfl, rfl,
      verify_proofAt hfits hroot hresult⟩
  · intro proof hsame hinj hverify
    rw [← hsame] at hroot
    obtain ⟨hnumber, hresult⟩ := result_of_verify hnonempty hfits hroot hinj hverify
    exact ⟨hnumber, (List.getElem?_eq_some_iff.mp hresult).1, hresult⟩

end Results

section Sample

open ConsensusBlock

attribute [local instance] rollingKeccak

def sampleResult (domainId : DomainId) : DomainBlockHeader :=
  ⟨1, domainId, 1, 2, 3, 4, 5, 6, 0, 30000000, 21000, 1000000000⟩

def sampleResults : ConsensusBlock where
  header := ⟨1, 5, 1, 6, 1700000001, 0,
    keccak256 (rootPreimage RESULT_LEAF_TAG 3 (treeHash RESULT_LEAF_TAG
      ([sampleResult 1, sampleResult 2, sampleResult 3].map Canonical.domainHeaderBytes))),
    0, 0, 0, 0⟩
  batches := []
  domainBlocks := [sampleResult 1, sampleResult 2, sampleResult 3]

/-- A three-result block, and its own proof of the last result. -/
theorem domain_result_proofs_three : (∀ result ∈ sampleResults.domainBlocks, ∃ proof,
      sampleResults.domainResultProof result.domainId = .ok (some proof) ∧
        proof.root = sampleResults.header.domainResultsRoot ∧ proof.result = result ∧
        proof.verify = .ok ()) ∧ (sampleResults.proofAt 2 (sampleResult 3)).verify = .ok () ∧
    sampleResults.domainBlocks[(sampleResults.proofAt 2 (sampleResult 3)).index.toNat]?
      = some (sampleResult 3) := by
  have hroot : domainResultsRoot sampleResults.domainBlocks
      = .ok sampleResults.header.domainResultsRoot := by decide +kernel
  have h := domain_result_proofs sampleResults (by decide) (by decide) (by decide) hroot
  have hverify : (sampleResults.proofAt 2 (sampleResult 3)).verify = .ok () := by decide +kernel
  have hinj : ∀ p ∈ collectionPreimages RESULT_LEAF_TAG sampleResults.resultBytes ++
        (sampleResults.proofAt 2 (sampleResult 3)).preimages,
      ∀ q ∈ collectionPreimages RESULT_LEAF_TAG sampleResults.resultBytes ++
        (sampleResults.proofAt 2 (sampleResult 3)).preimages,
      keccak256 p = keccak256 q → p = q := by decide +kernel
  have hsound := h.2 (sampleResults.proofAt 2 (sampleResult 3)) rfl (fun p hp q hq =>
    hinj p (mem_append.mpr hp) q (mem_append.mpr hq)) hverify
  exact ⟨h.1, hverify, hsound.2.2⟩

end Sample

end Arbor
