import Arbor.Consensus.Records

/-!
# The stored checkpoint

The metadata of an imported checkpoint, as one index record: everything but the states, which
are read back from the trie nodes under the roots it names.
-/

namespace Arbor

open Result Reader Device

namespace DevelopmentCheckpoint

def CHECKPOINT_TAG : Bytes := ascii "ARBOR_DEV_CHECKPOINT_V1"
def CHECKPOINT_VERSION : U8 := 1
def MAX_CHECKPOINT_DOMAINS : Nat := 65536
def MAX_CHECKPOINT_METADATA_BYTES : Nat := 16 * 1024 * 1024

/-! ## Encoding -/

def putBytes (bytes : Bytes) : Except ConsensusError Bytes := do
  rejectIf (2 ^ 32 ≤ bytes.length) (.inconsistentStore "checkpoint field length overflow")
  return Canonical.encodeBytes bytes

/-- The descriptor of a domain, or nothing for the root. -/
def encodeDescriptor (descriptor : Option DomainDescriptor) : Except ConsensusError Bytes :=
  match descriptor with
  | none => .ok []
  | some descriptor => ConsensusError.ofCodec (Canonical.encodeDomainDescriptor descriptor)

def encodeDomain (chain : FinalizedChainState) (domain : DomainId × FinalizedDomain) :
    Except ConsensusError Bytes := do
  let header ← ConsensusError.ofCodec (Canonical.encodeDomainHeader domain.2.header)
  let header ← putBytes header
  let descriptor ← encodeDescriptor chain.descriptors[domain.1]?
  let descriptor ← putBytes descriptor
  return toBytes domain.1 ++ toBytes domain.2.config.chainId
    ++ toBytes domain.2.config.protocolRevision ++ toBytes domain.2.config.gasLimit
    ++ toBytes domain.2.config.initialBaseFeePerGas ++ header ++ toBytes domain.2.blockHash
    ++ toBytes domain.2.state.stateRoot ++ descriptor

def encodeHeading [Keccak] (chain : FinalizedChainState) : Bytes :=
  CHECKPOINT_TAG ++ [CHECKPOINT_VERSION] ++ toBytes chain.networkId ++ toBytes chain.height
    ++ toBytes chain.consensusHash ++ toBytes chain.timestamp ++ toBytes chain.validatorSetHash
    ++ toBytes chain.nextValidatorSetHash ++ toBytes chain.rootDomainId
    ++ toBytes chain.governanceAddress ++ toBytes chain.domainHeadsRoot

def encode [Keccak] (checkpoint : DevelopmentCheckpoint) : Except ConsensusError Bytes := do
  let domains := checkpoint.state.domains.toList
  rejectIf (2 ^ 32 ≤ domains.length) (.inconsistentStore "checkpoint domain count overflow")
  let validatorSet ← ConsensusError.ofCodec (Canonical.encodeValidatorSet checkpoint.validatorSet)
  let validatorSet ← putBytes validatorSet
  let finalityProof ← putBytes checkpoint.finalityProof
  let entries ← mapAll (encodeDomain checkpoint.state) domains
  let output := encodeHeading checkpoint.state ++ validatorSet ++ finalityProof
    ++ Canonical.encodeCount domains.length ++ entries.flatten
  rejectIf (MAX_CHECKPOINT_METADATA_BYTES < output.length)
    (.inconsistentStore "checkpoint metadata exceeds limit")
  return output

/-! ## Decoding -/

def takeWord (w : Nat) : Reader ConsensusError (BitVec w) :=
  Reader.word (.inconsistentStore "truncated checkpoint metadata") w

def takeBytes : Reader ConsensusError Bytes := do
  let length ← takeWord 32
  Reader.take (.inconsistentStore "truncated checkpoint metadata") length.toNat

structure Heading where
  networkId : NetworkId
  height : ConsensusHeight
  consensusHash : B256
  timestamp : U64
  validatorSetHash : B256
  nextValidatorSetHash : B256
  rootDomainId : DomainId
  governanceAddress : Address
  domainHeadsRoot : B256
  validatorSet : ValidatorSet
  finalityProof : Bytes
  count : Nat

def readHeading : Reader ConsensusError Heading := do
  let tag ← Reader.take (.inconsistentStore "truncated checkpoint metadata") CHECKPOINT_TAG.length
  failIf (tag ≠ CHECKPOINT_TAG) (.inconsistentStore "checkpoint metadata tag mismatch")
  let version ← takeWord 8
  failIf (version ≠ CHECKPOINT_VERSION)
    (.inconsistentStore "unsupported checkpoint metadata version")
  let networkId ← takeWord 256
  let height ← takeWord 64
  let consensusHash ← takeWord 256
  let timestamp ← takeWord 64
  let validatorSetHash ← takeWord 256
  let nextValidatorSetHash ← takeWord 256
  let rootDomainId ← takeWord 256
  let governanceAddress ← takeWord 160
  let domainHeadsRoot ← takeWord 256
  let encoded ← takeBytes
  let validatorSet ← StateT.lift (ConsensusError.ofCodec (Canonical.decodeValidatorSet encoded))
  let finalityProof ← takeBytes
  let count ← takeWord 32
  failIf (count.toNat = 0 ∨ MAX_CHECKPOINT_DOMAINS < count.toNat)
    (.inconsistentStore "invalid checkpoint domain count")
  return { networkId, height, consensusHash, timestamp, validatorSetHash, nextValidatorSetHash,
           rootDomainId, governanceAddress, domainHeadsRoot, validatorSet, finalityProof,
           count := count.toNat }

/-- One domain of the record; its state is named by the root only. -/
structure Entry where
  domainId : DomainId
  config : DomainConfig
  header : DomainBlockHeader
  blockHash : B256
  stateRoot : B256
  descriptor : Option DomainDescriptor

def decodeDescriptor (bytes : Bytes) : Except ConsensusError (Option DomainDescriptor) :=
  if bytes = [] then .ok none
  else do
    let descriptor ← ConsensusError.ofCodec (Canonical.decodeDomainDescriptor bytes)
    return some descriptor

def readEntry : Reader ConsensusError Entry := do
  let domainId ← takeWord 256
  let chainId ← takeWord 64
  let protocolRevision ← takeWord 32
  let gasLimit ← takeWord 64
  let initialBaseFeePerGas ← takeWord 128
  let encoded ← takeBytes
  let header ← StateT.lift (ConsensusError.ofCodec (Canonical.decodeDomainHeader encoded))
  let blockHash ← takeWord 256
  let stateRoot ← takeWord 256
  let encoded ← takeBytes
  let descriptor ← StateT.lift (decodeDescriptor encoded)
  return { domainId, config := ⟨chainId, protocolRevision, gasLimit, initialBaseFeePerGas⟩,
           header, blockHash, stateRoot, descriptor }

section Loading

variable [Keccak]

/-- The state below a root, from the nodes and contract bodies of the database. -/
def reload (tables : Tables Column) (stateRoot : B256) : Except EvmError ExecutionState :=
  ExecutionState.fromPersisted stateRoot (Database.nodeStore tables) fun codeHash =>
    (value (Database.contractCode codeHash) tables).mapError fun error => .state error.display

/-- Reads a state back; a failed read is reported as the state's own error. -/
def loadState (stateRoot : B256) : Program Column ConsensusError ExecutionState := do
  let loaded ← query (fun what => .invalidGenesisOwned (EvmError.display (.state what)))
    fun tables => reload tables stateRoot
  give (ConsensusError.ofEvm loaded)

def loadDomains : Nat → Bytes → Program Column ConsensusError
      (List FinalizedDomainCheckpoint × Bytes)
  | 0, bytes => pure ([], bytes)
  | count + 1, bytes => do
    let (entry, bytes) ← give (readEntry.run bytes)
    let state ← loadState entry.stateRoot
    let (domains, bytes) ← loadDomains count bytes
    return (⟨entry.domainId, entry.config, entry.header, entry.blockHash, state,
      entry.descriptor⟩ :: domains, bytes)

def decode (input : Bytes) : Program Column ConsensusError DevelopmentCheckpoint := do
  give (rejectIf (MAX_CHECKPOINT_METADATA_BYTES < input.length)
    (.inconsistentStore "checkpoint metadata exceeds limit"))
  let (heading, bytes) ← give (readHeading.run input)
  let (domains, bytes) ← loadDomains heading.count bytes
  give (rejectIf (bytes ≠ []) (.inconsistentStore "trailing checkpoint metadata"))
  let state ← give ((FinalizedChainState.fromCheckpoint
    { networkId := heading.networkId
      height := heading.height
      consensusHash := heading.consensusHash
      timestamp := heading.timestamp
      validatorSetHash := heading.validatorSetHash
      nextValidatorSetHash := heading.nextValidatorSetHash
      rootDomainId := heading.rootDomainId
      governanceAddress := heading.governanceAddress
      domainHeadsRoot := heading.domainHeadsRoot
      domains }).mapError .chain)
  return { state, validatorSet := heading.validatorSet, finalityProof := heading.finalityProof }

variable [Secp256k1]

/-- The checkpoint must be of the engine's own network, root, governance and validators. -/
def checkIdentity (genesis : DevGenesis) (checkpoint : DevelopmentCheckpoint) (what : String) :
    Except ConsensusError Unit := do
  let validatorHash ← ConsensusError.ofCrypto (Crypto.validatorSetHash checkpoint.validatorSet)
  rejectIf (checkpoint.validatorSet ≠ genesis.validatorSet ∨
      validatorHash ≠ checkpoint.state.validatorSetHash ∨
      checkpoint.state.nextValidatorSetHash ≠ validatorHash ∨
      checkpoint.state.networkId ≠ genesis.networkId ∨
      checkpoint.state.rootDomainId ≠ genesis.rootDomainId ∨
      checkpoint.state.governanceAddress ≠ genesis.governanceAddress)
    (.inconsistentStore what)

/-- The checkpoint the database starts from, if it has one. -/
def load (genesis : DevGenesis) :
    Program Column ConsensusError (Option DevelopmentCheckpoint) := do
  match ← Consensus.stored (Database.index Consensus.KEY_DEV_CHECKPOINT) with
  | none => return none
  | some bytes => do
    let checkpoint ← decode bytes
    give (checkIdentity genesis checkpoint "persisted checkpoint identity mismatch")
    give (rejectIf (checkpoint.finalityProof ≠ [])
      (.inconsistentStore "persisted checkpoint identity mismatch"))
    return some checkpoint

end Loading

end DevelopmentCheckpoint

end Arbor
