import Arbor.Chain.State

/-!
# Consensus blocks

A block carries its consensus header, one batch per domain and, aligned with the
batches, the domain headers they produced.  Both lists are committed by a binary hash
tree over tagged leaves.  The encoded block is what is stored and sent.
-/

namespace Arbor

open Result

structure ConsensusBlock where
  header : ConsensusBlockHeader
  batches : List DomainBatch
  domainBlocks : List DomainBlockHeader
  deriving DecidableEq

namespace ConsensusBlock

def BLOCK_BODY_TAG : Bytes := ascii "ARBOR_CONSENSUS_BLOCK_BODY_V1"
def MERKLE_ROOT_TAG : Bytes := ascii "ARBOR_MERKLE_ROOT_V1"
def MERKLE_BRANCH_TAG : Bytes := ascii "ARBOR_MERKLE_BRANCH_V1"
def MERKLE_EMPTY_TAG : Bytes := ascii "ARBOR_MERKLE_EMPTY_V1"
def BATCH_LEAF_TAG : Bytes := ascii "ARBOR_BATCH_LEAF_V1"
def RESULT_LEAF_TAG : Bytes := ascii "ARBOR_RESULT_LEAF_V1"
def PREVRANDAO_TAG : Bytes := ascii "ARBOR_PREVRANDAO_V1"

section Roots

variable [Keccak]

def collectionLeaf (leafTag : Bytes) (count index : Nat) (value : Bytes) : B256 :=
  keccak256 (leafTag ++ [CANONICAL_CODEC_VERSION] ++ toBytes (BitVec.ofNat 32 count) ++
    toBytes (BitVec.ofNat 32 index) ++ toBytes (BitVec.ofNat 32 value.length) ++ value)

def collectionBranch (leafTag : Bytes) (depth : Nat) (left right : B256) : B256 :=
  keccak256 (MERKLE_BRANCH_TAG ++ [CANONICAL_CODEC_VERSION] ++ leafTag ++
    toBytes (BitVec.ofNat 16 depth) ++ toBytes left ++ toBytes right)

def collectionRoot (leafTag : Bytes) (count : Nat) (treeHash : B256) : B256 :=
  keccak256 (MERKLE_ROOT_TAG ++ [CANONICAL_CODEC_VERSION] ++ leafTag ++
    toBytes (BitVec.ofNat 32 count) ++ toBytes treeHash)

def merkleEmpty (leafTag : Bytes) (depth : Nat) : B256 :=
  keccak256 (MERKLE_EMPTY_TAG ++ [CANONICAL_CODEC_VERSION] ++ leafTag ++
    toBytes (BitVec.ofNat 16 depth))

/-- One level up: neighbours joined, a last one alone with the empty hash. -/
def nextLevel (leafTag : Bytes) (depth : Nat) : List B256 → List B256
  | left :: right :: rest => collectionBranch leafTag depth left right
    :: nextLevel leafTag depth rest
  | [left] => [collectionBranch leafTag depth left (merkleEmpty leafTag depth)]
  | [] => []

/-- The hash on top of a level; a level halves, so its length is fuel enough. -/
def treeTop (leafTag : Bytes) : Nat → Nat → List B256 → B256
  | 0, _, level => level.headD 0
  | fuel + 1, depth, level =>
    if level.length ≤ 1 then level.headD 0
    else treeTop leafTag fuel (min (depth + 1) 65535) (nextLevel leafTag depth level)

def merkleCollectionRoot (leafTag : Bytes) (values : List Bytes) : B256 :=
  let leaves := values.mapIdx fun index value => collectionLeaf leafTag values.length index value
  let level := if leaves = [] then [merkleEmpty leafTag 0] else leaves
  collectionRoot leafTag values.length (treeTop leafTag level.length 0 level)

def batchesRoot (batches : List DomainBatch) : Except ChainError B256 := do
  let values ← ChainError.ofCodec (mapAll Canonical.encodeDomainBatch batches)
  return merkleCollectionRoot BATCH_LEAF_TAG values

def domainResultsRoot (results : List DomainBlockHeader) : Except ChainError B256 := do
  let values ← ChainError.ofCodec (mapAll Canonical.encodeDomainHeader results)
  return merkleCollectionRoot RESULT_LEAF_TAG values

def hash (block : ConsensusBlock) : Except ChainError B256 :=
  ChainError.ofCrypto (Crypto.consensusHeaderHash block.header)

def derivedPrevrandao (parentHash : B256) (height : ConsensusHeight) : B256 :=
  keccak256 (PREVRANDAO_TAG ++ [CANONICAL_CODEC_VERSION] ++ toBytes parentHash ++ toBytes height)

end Roots

/-! ## Encoding -/

def putU32 (value : Nat) : Except ChainError Bytes := do
  rejectIf (2 ^ 32 ≤ value) (.encoding "u32 length")
  return toBytes (BitVec.ofNat 32 value)

def putBytes (value : Bytes) : Except ChainError Bytes := do
  let length ← putU32 value.length
  return length ++ value

/-- The parts of a list, each encoded behind its length. -/
def putAll {α : Type} (encode : α → Except CodecError Bytes) (values : List α) :
    Except ChainError Bytes := do
  let count ← putU32 values.length
  let parts ← mapAll (fun value => do putBytes (← ChainError.ofCodec (encode value))) values
  return count ++ parts.flatten

def encode (block : ConsensusBlock) : Except ChainError Bytes := do
  rejectIf (block.batches.length ≠ block.domainBlocks.length) .resultAlignment
  let header ← ChainError.ofCodec (Canonical.encodeConsensusHeader block.header)
  let header ← putBytes header
  let batches ← putAll Canonical.encodeDomainBatch block.batches
  let results ← putAll Canonical.encodeDomainHeader block.domainBlocks
  let out := BLOCK_BODY_TAG ++ [CANONICAL_CODEC_VERSION] ++ header ++ batches ++ results
  rejectIf (MAX_CONSENSUS_BLOCK_BYTES < out.length)
    (.blockBytes MAX_CONSENSUS_BLOCK_BYTES out.length)
  return out

def takeU32 : Reader ChainError Nat := do
  let value ← Reader.word (.decode "unexpected end") 32
  return value.toNat

def takeBytes : Reader ChainError Bytes := do
  let length ← takeU32
  Reader.failIf (MAX_CANONICAL_OBJECT_BYTES < length) (.decode "nested object too large")
  Reader.take (.decode "unexpected end") length

/-- A nested object; `what` names it in the error. -/
def takeObject {α : Type} (decode : Bytes → Except CodecError α) (what : String) :
    Reader ChainError α := do
  let bytes ← takeBytes
  StateT.lift ((decode bytes).mapError fun _ => .decode what)

def readBlock : Reader ChainError ConsensusBlock := do
  let tag ← Reader.take (.decode "unexpected end") BLOCK_BODY_TAG.length
  Reader.failIf (tag ≠ BLOCK_BODY_TAG) (.decode "block body tag/version")
  let version ← Reader.take (.decode "unexpected end") 1
  Reader.failIf (version ≠ [CANONICAL_CODEC_VERSION]) (.decode "block body tag/version")
  let header ← takeObject Canonical.decodeConsensusHeader "consensus header"
  let batchCount ← takeU32
  Reader.failIf (MAX_BATCHES_PER_BLOCK < batchCount)
    (.tooManyBatches MAX_BATCHES_PER_BLOCK batchCount)
  let batches ← Reader.times (takeObject Canonical.decodeDomainBatch "domain batch") batchCount
  let resultCount ← takeU32
  Reader.failIf (resultCount ≠ batchCount) .resultAlignment
  let domainBlocks ←
    Reader.times (takeObject Canonical.decodeDomainHeader "domain header") resultCount
  return { header, batches, domainBlocks }

def decode (input : Bytes) : Except ChainError ConsensusBlock := do
  rejectIf (MAX_CONSENSUS_BLOCK_BYTES < input.length)
    (.blockBytes MAX_CONSENSUS_BLOCK_BYTES input.length)
  let (block, rest) ← readBlock.run input
  rejectIf (rest ≠ []) (.decode "trailing bytes")
  return block

/-! ## Lengths -/

theorem putU32_eq_ok {value : Nat} (h : value < 2 ^ 32) :
    putU32 value = .ok (toBytes (BitVec.ofNat 32 value)) := by
  rw [putU32, rejectIf, if_neg (Nat.not_le.mpr h)]
  rfl

theorem putBytes_eq_ok (value : Bytes) (h : value.length < 2 ^ 32) :
    putBytes value = .ok (toBytes (BitVec.ofNat 32 value.length) ++ value) := by
  rw [putBytes, putU32_eq_ok h]
  rfl

end ConsensusBlock

end Arbor
