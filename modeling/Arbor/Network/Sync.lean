import Arbor.Network.Protocol

/-!
# Header and block synchronization

A response of headers is accepted only if it extends the local head without gaps, each
header by the hash of the one before it, each finalized under the chosen verifier, and if
the last one, where it reaches the advertised height, is the advertised head.  Bodies are
then matched with the accepted headers, and blocks are imported one after the other, each
after its finality has been verified.
-/

namespace Arbor

open Result

/-! ## Headers -/

inductive HeaderSyncError where
  | tooManyHeaders
  | unsolicitedHeaders
  | emptyResponse
  | nonSequential (expected actual : U64)
  | claimedHeight
  | parent
  | decode (reason : String)
  /-- A body that does not decode; the source keeps the text of the error. -/
  | decodeBody (error : ChainError)
  | finality (reason : String)
  | remoteTip
  | bodyCount
  | bodyHeight
  | bodyHeader
  deriving DecidableEq

structure VerifiedHeader where
  header : ConsensusBlockHeader
  finalityProof : Bytes
  deriving DecidableEq

/-- Decides whether a header with its proof is finalized. -/
abbrev HeaderFinalityVerifier := FinalizedHeader → ConsensusBlockHeader → Except String Unit

/-- The finality rule of the development engine: there is no proof. -/
def developmentHeaderVerifier : HeaderFinalityVerifier := fun finalized _ =>
  rejectIf (finalized.finalityProof ≠ []) "development header finality proof must be empty"

namespace HeaderSync

variable [Keccak]

/-- Verifies headers one by one, from the height and the parent expected next; returns them
with the hash of the last. -/
def verifyHeaders (remote : SyncStatus) (verifier : HeaderFinalityVerifier) :
    (expectedHeight : U64) → (expectedParent : B256) → List FinalizedHeader →
      Except HeaderSyncError (List VerifiedHeader × B256)
  | _, expectedParent, [] => .ok ([], expectedParent)
  | expectedHeight, expectedParent, finalized :: rest => do
    rejectIf (finalized.height ≠ expectedHeight ∨ remote.height < finalized.height)
      (.nonSequential expectedHeight finalized.height)
    let header ← (Canonical.decodeConsensusHeader finalized.header).mapError
      fun error => HeaderSyncError.decode error.display
    rejectIf (header.height ≠ finalized.height) .claimedHeight
    rejectIf (header.parentHash ≠ expectedParent) .parent
    (verifier finalized header).mapError .finality
    let hash ← (Crypto.consensusHeaderHash header).mapError
      fun error => HeaderSyncError.decode error.display
    let (accepted, tip) ← verifyHeaders remote verifier (saturatingSucc expectedHeight) hash rest
    return (⟨header, finalized.finalityProof⟩ :: accepted, tip)

/-- The last header has the advertised height, but is not the advertised head. -/
def tipDiffers (remote : SyncStatus) (accepted : List VerifiedHeader) (tip : B256) : Bool :=
  match accepted.getLast? with
  | none => false
  | some last => last.header.height = remote.height ∧
    (tip ≠ remote.consensusHash ∨ last.header.domainHeadsRoot ≠ remote.domainHeadsRoot)

def verifyResponse (own remote : SyncStatus) (headers : List FinalizedHeader)
    (verifier : HeaderFinalityVerifier) : Except HeaderSyncError (List VerifiedHeader) := do
  rejectIf (MAX_HEADERS_PER_RESPONSE < headers.length) .tooManyHeaders
  if remote.height ≤ own.height then
    rejectIf (headers ≠ []) .unsolicitedHeaders
    return []
  else
    rejectIf (headers = []) .emptyResponse
    let (accepted, tip) ← verifyHeaders remote verifier
      (saturatingSucc own.height) own.consensusHash
      headers
    rejectIf (tipDiffers remote accepted tip = true) .remoteTip
    return accepted

end HeaderSync

def finalizedBlockFromBody (pair : VerifiedHeader × BlockBody) :
    Except HeaderSyncError FinalizedBlock := do
  let (verified, body) := pair
  rejectIf (body.height ≠ verified.header.height) .bodyHeight
  let block ← (ConsensusBlock.decode body.block).mapError HeaderSyncError.decodeBody
  rejectIf (block.header ≠ verified.header) .bodyHeader
  return ⟨body.height, body.block, verified.finalityProof⟩

def finalizedBlocksFromBodies (headers : List VerifiedHeader) (bodies : List BlockBody) :
    Except HeaderSyncError (List FinalizedBlock) := do
  rejectIf (bodies.length ≠ headers.length) .bodyCount
  mapAll finalizedBlockFromBody (headers.zip bodies)

/-! ## Blocks -/

/-- What block synchronization needs of the application: failures are of type `ε`. -/
structure BlockImport (σ ε : Type) where
  status : σ → Except ε SyncStatus
  verifyFinality : σ → FinalizedBlock → ConsensusBlock → Except String Unit
  importBlock : ConsensusBlock → EStateM ε σ SyncStatus

inductive BlockSyncError (ε : Type) where
  | invalidLimit
  | tooManyBlocks (limit actual : Nat)
  | unsolicitedBlocks
  | emptyResponse (own remote : U64)
  | nonSequentialHeight (expected actual : U64)
  | claimedHeight (claimed decoded : U64)
  | transport (reason : String)
  | decode (error : ChainError)
  | finality (reason : String)
  | application (error : ε)
  /-- The source reports this as an application failure, "importer returned a status
  inconsistent with the committed block". -/
  | inconsistentStatus
  | remoteTip

structure BlockSyncReport where
  before : SyncStatus
  after : SyncStatus
  imported : Nat
  deriving DecidableEq

structure BlockSync where
  maxBlocksPerResponse : Nat

namespace BlockSync

def development : BlockSync := ⟨MAX_BLOCKS_PER_RESPONSE⟩

/-- First height and count of the next request; nothing where the local head is caught up. -/
def nextRequest (sync : BlockSync) (own remote : SyncStatus) : Option (U64 × U16) :=
  if remote.height ≤ own.height then none
  else some (saturatingSucc own.height, BitVec.ofNat 16
    (min (min (remote.height.toNat - own.height.toNat) 65535) sync.maxBlocksPerResponse))

section Import

variable {σ ε : Type}

def give {α : Type} (result : Except (BlockSyncError ε) α) : EStateM (BlockSyncError ε) σ α :=
  fun state =>
    match result with
    | .ok a => .ok a state
    | .error error => .error error state

/-- An import, its failures being the application's. -/
def applied {α : Type} (operation : EStateM ε σ α) : EStateM (BlockSyncError ε) σ α := fun state =>
  match operation state with
  | .ok a state => .ok a state
  | .error error state => .error (.application error) state

variable [Keccak]

/-- The checks of one block before its import; gives the block and its hash. -/
def checkBlock (remote : SyncStatus) (expectedHeight : U64) (finalized : FinalizedBlock) :
    Except (BlockSyncError ε) (ConsensusBlock × B256) := do
  finalized.validateTransport.mapError .transport
  rejectIf (finalized.height ≠ expectedHeight ∨ remote.height < finalized.height)
    (.nonSequentialHeight expectedHeight finalized.height)
  let block ← (ConsensusBlock.decode finalized.block).mapError BlockSyncError.decode
  rejectIf (block.header.height ≠ finalized.height)
    (.claimedHeight finalized.height block.header.height)
  let hash ← block.hash.mapError BlockSyncError.decode
  return (block, hash)

/-- Imports blocks from the expected height on; returns the last status. -/
def importBlocks (importer : BlockImport σ ε) (remote : SyncStatus) :
    (expectedHeight : U64) → (current : SyncStatus) → List FinalizedBlock →
      EStateM (BlockSyncError ε) σ SyncStatus
  | _, current, [] => return current
  | expectedHeight, _, finalized :: rest => do
    let (block, hash) ← give (checkBlock remote expectedHeight finalized)
    let state ← get
    give ((importer.verifyFinality state finalized block).mapError .finality)
    let current ← applied (importer.importBlock block)
    give (rejectIf (current.height ≠ expectedHeight ∨ current.consensusHash ≠ hash)
      .inconsistentStatus)
    importBlocks importer remote (saturatingSucc expectedHeight) current rest

def importResponse (sync : BlockSync) (importer : BlockImport σ ε) (remote : SyncStatus)
    (blocks : List FinalizedBlock) : EStateM (BlockSyncError ε) σ BlockSyncReport := do
  give (rejectIf (sync.maxBlocksPerResponse < blocks.length)
    (.tooManyBlocks sync.maxBlocksPerResponse blocks.length))
  let state ← get
  let before ← give ((importer.status state).mapError .application)
  if remote.height ≤ before.height then
    give (rejectIf (blocks ≠ []) .unsolicitedBlocks)
    return ⟨before, before, 0⟩
  else
    give (rejectIf (blocks = []) (.emptyResponse before.height remote.height))
    let current ← importBlocks importer remote (saturatingSucc before.height) before blocks
    give (rejectIf (current.height = remote.height ∧
      (current.consensusHash ≠ remote.consensusHash ∨
        current.domainHeadsRoot ≠ remote.domainHeadsRoot)) .remoteTip)
    return ⟨before, current, blocks.length⟩

end Import

end BlockSync

end Arbor
