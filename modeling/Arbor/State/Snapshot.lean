import Arbor.Lib.Wire
import Arbor.State.Error

/-!
# Snapshot manifests of one state

A manifest lists the chunks of an authenticated state by index, length and hash.  Its chunks
are numbered from zero without gaps, none is empty and none is larger than the limit.
-/

namespace Arbor

open Result Reader

structure SnapshotChunk where
  index : U32
  bytes : U32
  hash : B256
  deriving DecidableEq

structure SnapshotManifest where
  consensusHeight : U64
  domainId : DomainId
  stateRoot : B256
  chunks : List SnapshotChunk
  deriving DecidableEq

namespace SnapshotManifest

def SNAPSHOT_TAG : Bytes := ascii "ARBOR_SNAPSHOT_MANIFEST_V1"
def SNAPSHOT_VERSION : U8 := 1
def MAX_SNAPSHOT_CHUNKS : Nat := 65536
def MAX_CHUNK_BYTES : Nat := 8 * 1024 * 1024

/-- Checks chunks that are expected to be numbered from `expected` on. -/
def validateChunks : (expected : Nat) → List SnapshotChunk → Except StateError Unit
  | _, [] => .ok ()
  | expected, chunk :: rest => do
    rejectIf (chunk.index.toNat ≠ expected) (.invalidPath "snapshot chunk ordering")
    rejectIf (chunk.bytes = 0 ∨ MAX_CHUNK_BYTES < chunk.bytes.toNat)
      (.limitExceeded "snapshot chunk bytes")
    validateChunks (expected + 1) rest

def validate (manifest : SnapshotManifest) : Except StateError Unit := do
  rejectIf (MAX_SNAPSHOT_CHUNKS < manifest.chunks.length) (.limitExceeded "snapshot chunk count")
  validateChunks 0 manifest.chunks

def encodeChunk (chunk : SnapshotChunk) : Bytes :=
  toBytes chunk.index ++ toBytes chunk.bytes ++ toBytes chunk.hash

def encode (manifest : SnapshotManifest) : Except StateError Bytes := do
  manifest.validate
  return SNAPSHOT_TAG ++ toBytes SNAPSHOT_VERSION ++ toBytes manifest.consensusHeight ++
    toBytes manifest.domainId ++ toBytes manifest.stateRoot ++
    toBytes (BitVec.ofNat 32 manifest.chunks.length) ++ manifest.chunks.flatMap encodeChunk

def takeU32 : Reader StateError U32 := Reader.word (.malformedRlp "snapshot u32") 32
def takeU64 : Reader StateError U64 := Reader.word (.malformedRlp "snapshot u64") 64
def takeHash : Reader StateError B256 := Reader.word (.malformedRlp "snapshot hash") 256

def readChunk : Reader StateError SnapshotChunk := do
  return ⟨← takeU32, ← takeU32, ← takeHash⟩

def readManifest : Reader StateError SnapshotManifest := do
  let version ← Reader.word (.malformedRlp "snapshot manifest tag/length") 8
  failIf (version ≠ SNAPSHOT_VERSION) (.malformedRlp "snapshot manifest version")
  let consensusHeight ← takeU64
  let domainId ← takeHash
  let stateRoot ← takeHash
  let count ← takeU32
  failIf (MAX_SNAPSHOT_CHUNKS < count.toNat) (.limitExceeded "snapshot chunk count")
  let rest ← get
  failIf (rest.length ≠ count.toNat * 40) (.malformedRlp "snapshot manifest trailing/truncated")
  let chunks ← times readChunk count.toNat
  return ⟨consensusHeight, domainId, stateRoot, chunks⟩

def decode (input : Bytes) : Except StateError SnapshotManifest := do
  rejectIf (input.length < SNAPSHOT_TAG.length + 1 + 8 + 32 + 32 + 4 ∨
    SNAPSHOT_TAG.isPrefixOf input = false) (.malformedRlp "snapshot manifest tag/length")
  let (manifest, _) ← readManifest.run (input.drop SNAPSHOT_TAG.length)
  manifest.validate
  return manifest

def verifyChunk [Keccak] (chunk : SnapshotChunk) (bytes : Bytes) : Bool :=
  chunk.bytes.toNat = bytes.length ∧ keccak256 bytes = chunk.hash

end SnapshotManifest

end Arbor
