import Arbor.Lib.Wire
import Arbor.Primitives

/-!
# Canonical codecs

Every Arbor-native object has one encoding: a tag that names its type, a version
byte, and its fields in order, words big-endian and variable parts behind a 32-bit
length.  Encoding is also hashing's preimage, so it has to be faithful: a decoder
reads back exactly what was encoded (`decodeTagged_encodeTagged` and its instances),
and two objects with equal encodings are equal.
-/

namespace Arbor

open Result Reader

def MAX_TRANSACTION_ENVELOPE_BYTES : Nat := 256 * 1024
def MAX_CALLDATA_BYTES : Nat := 128 * 1024
def MAX_INITCODE_BYTES : Nat := 49152
def MAX_ACCESS_LIST_ADDRESSES : Nat := 1024
def MAX_ACCESS_LIST_STORAGE_KEYS : Nat := 1024
def MAX_BATCHES_PER_BLOCK : Nat := 256
def MAX_TRANSACTIONS_PER_BATCH : Nat := 10000
def MAX_ACTIVE_VALIDATORS : Nat := 100
def MAX_CANONICAL_OBJECT_BYTES : Nat := 16 * 1024 * 1024

inductive CodecError where
  | inputTooLarge (kind : String) (limit actual : Nat)
  | unexpectedEof
  | invalidTag
  | unknownVersion (version : Byte)
  | trailingBytes
  | limitExceeded (field : String) (limit actual : Nat)
  | invalidUtf8 (field : String)
  | invalidValue (field : String)
  | nonCanonicalOrder (field : String)
  | rlp (what : String)
  deriving DecidableEq

def CodecError.display : CodecError → String
  | inputTooLarge kind limit actual => s!"{kind} is {actual} bytes; limit is {limit}"
  | unexpectedEof => "unexpected end of canonical input"
  | invalidTag => "invalid canonical domain tag"
  | unknownVersion version => s!"unsupported canonical codec version {version.toNat}"
  | trailingBytes => "trailing bytes after canonical value"
  | limitExceeded field limit actual =>
    s!"{field} contains {actual} items or bytes; limit is {limit}"
  | invalidUtf8 field => s!"{field} is not valid UTF-8"
  | invalidValue field => s!"invalid value for {field}"
  | nonCanonicalOrder field => s!"{field} must be strictly sorted and unique"
  | rlp what => s!"invalid Ethereum RLP: {what}"

namespace Canonical

def checkLimit (field : String) (actual limit : Nat) : Except CodecError Unit :=
  rejectIf (limit < actual) (.limitExceeded field limit actual)

def strictlySorted : List B256 → Bool
  | a :: b :: rest => a < b && strictlySorted (b :: rest)
  | _ => true

theorem strictlySorted_iff {values : List B256} :
    strictlySorted values = true ↔ values.Pairwise (· < ·) := by
  have htrans : ∀ {a b c : B256}, a < b → b < c → a < c := fun hab hbc => BitVec.lt_trans hab hbc
  induction values using strictlySorted.induct with
  | case1 a b rest ih =>
    rw [strictlySorted, Bool.and_eq_true, decide_eq_true_iff, List.pairwise_cons]
    constructor
    · rintro ⟨hab, hrest⟩
      refine ⟨fun c hc => ?_, ih.mp hrest⟩
      rcases List.mem_cons.mp hc with rfl | hc
      · exact hab
      · exact htrans hab ((List.pairwise_cons.mp (ih.mp hrest)).1 c hc)
    · rintro ⟨hall, hrest⟩
      exact ⟨hall b List.mem_cons_self, ih.mpr hrest⟩
  | case2 values h =>
    match values, h with
    | [], _ => simp [strictlySorted]
    | [a], _ => simp [strictlySorted]
    | a :: b :: rest, h => exact absurd rfl (h a b rest)

def checkStrictlySorted (values : List B256) (field : String) : Except CodecError Unit :=
  rejectIf (strictlySorted values = false) (.nonCanonicalOrder field)

/-! ## Fields -/

def encodeBytes (value : Bytes) : Bytes :=
  toBytes (BitVec.ofNat 32 value.length) ++ value

def encodeCount (count : Nat) : Bytes := toBytes (BitVec.ofNat 32 count)

def readWord (w : Nat) : Reader CodecError (BitVec w) := Reader.word .unexpectedEof w

def readCount (field : String) (limit : Nat) : Reader CodecError Nat := do
  let count ← readWord 32
  StateT.lift (checkLimit field count.toNat limit)
  return count.toNat

def readBytes (field : String) (limit : Nat) : Reader CodecError Bytes := do
  let length ← readCount field limit
  Reader.take .unexpectedEof length

def readString (field : String) (limit : Nat) : Reader CodecError String := do
  let value ← readBytes field limit
  match fromUtf8 value with
  | some text => return text
  | none => throw (.invalidUtf8 field)

variable {limit : Nat}

theorem checkLimit_eq_ok {field : String} {actual : Nat} {u : Unit} :
    checkLimit field actual limit = .ok u ↔ actual ≤ limit := by
  simp [checkLimit]

theorem reads_readWord {w : Nat} (hw : 8 ∣ w) (x : BitVec w) : Reads (readWord w) (toBytes x) x :=
  reads_word hw _ x

variable (field : String)

theorem reads_readCount {count : Nat} (hcount : count ≤ limit)
    (hlimit : limit < 2 ^ 32) : Reads (readCount field limit) (encodeCount count) count := by
  have hnat : (BitVec.ofNat 32 count).toNat = count := by
    rw [BitVec.toNat_ofNat]
    exact Nat.mod_eq_of_lt (by omega)
  have hcheck : checkLimit field (BitVec.ofNat 32 count).toNat limit = .ok () := by
    rw [hnat]
    exact checkLimit_eq_ok.mpr hcount
  refine (reads_readWord (by decide) (BitVec.ofNat 32 count)).finally ?_
  refine (reads_lift hcheck).after ?_
  rw [hnat]
  exact reads_pure count

theorem reads_readBytes {value : Bytes} (hvalue : value.length ≤ limit) (hlimit : limit < 2 ^ 32) :
    Reads (readBytes field limit) (encodeBytes value) value :=
  (reads_readCount field hvalue hlimit).bind (reads_take rfl _)

theorem reads_readString {text : String}
    (htext : (utf8Bytes text).length ≤ limit) (hlimit : limit < 2 ^ 32) :
    Reads (readString field limit) (encodeBytes (utf8Bytes text)) text := by
  refine (reads_readBytes field htext hlimit).finally ?_
  rw [fromUtf8_utf8Bytes]
  exact reads_pure text

/-! ## Tagged objects -/

def CONSENSUS_HEADER_TAG : Bytes := ascii "ARBOR_CONSENSUS_HEADER_V1"
def DOMAIN_HEADER_TAG : Bytes := ascii "ARBOR_DOMAIN_HEADER_V1"
def DOMAIN_BATCH_TAG : Bytes := ascii "ARBOR_DOMAIN_BATCH_V1"
def DOMAIN_DESCRIPTOR_TAG : Bytes := ascii "ARBOR_DOMAIN_DESCRIPTOR_V1"
def DOMAIN_GENESIS_TAG : Bytes := ascii "ARBOR_DOMAIN_GENESIS_V1"
def VALIDATOR_SET_TAG : Bytes := ascii "ARBOR_VALIDATOR_SET_V1"

/-- Tag, version and fields, within the size budget of canonical objects. -/
def encodeTagged (tag fields : Bytes) : Except CodecError Bytes := do
  let bytes := tag ++ CANONICAL_CODEC_VERSION :: fields
  checkLimit "canonical object" bytes.length MAX_CANONICAL_OBJECT_BYTES
  return bytes

def decodeTagged {α : Type} (tag : Bytes) (body : Reader CodecError α) (input : Bytes) :
    Except CodecError α := do
  checkLimit "canonical object" input.length MAX_CANONICAL_OBJECT_BYTES
  let found ← (Reader.take .unexpectedEof tag.length).run input
  rejectIf (found.1 ≠ tag) .invalidTag
  let version ← (readWord 8).run found.2
  rejectIf (version.1 ≠ CANONICAL_CODEC_VERSION) (.unknownVersion version.1)
  let value ← body.run version.2
  rejectIf (value.2 ≠ []) .trailingBytes
  return value.1

theorem encodeTagged_eq_ok {tag fields bytes : Bytes} : encodeTagged tag fields = .ok bytes ↔
      bytes = tag ++ CANONICAL_CODEC_VERSION :: fields ∧
        bytes.length ≤ MAX_CANONICAL_OBJECT_BYTES := by
  simp only [encodeTagged, bind_eq_ok, checkLimit_eq_ok, pure_eq, Except.ok.injEq]
  constructor
  · rintro ⟨_, hlen, rfl⟩
    exact ⟨rfl, hlen⟩
  · rintro ⟨rfl, hlen⟩
    exact ⟨(), hlen, rfl⟩

/-- **Round trip.**  If a reader reads back the fields, decoding inverts encoding. -/
theorem decodeTagged_encodeTagged {α : Type} {tag fields bytes : Bytes}
    {body : Reader CodecError α} {value : α} (hbody : Reads body fields value)
    (henc : encodeTagged tag fields = .ok bytes) : decodeTagged tag body bytes = .ok value := by
  obtain ⟨rfl, hlen⟩ := encodeTagged_eq_ok.mp henc
  have htag : (Reader.take CodecError.unexpectedEof tag.length).run
      (tag ++ CANONICAL_CODEC_VERSION :: fields) = .ok (tag, CANONICAL_CODEC_VERSION :: fields) :=
    run_take rfl _ _
  have hversion : (readWord 8).run (CANONICAL_CODEC_VERSION :: fields)
      = .ok (CANONICAL_CODEC_VERSION, fields) :=
    reads_readWord (by decide) CANONICAL_CODEC_VERSION fields
  have hfields := hbody []
  rw [List.append_nil] at hfields
  have hlimit : checkLimit "canonical object" (tag ++ CANONICAL_CODEC_VERSION :: fields).length
      MAX_CANONICAL_OBJECT_BYTES = .ok () := checkLimit_eq_ok.mpr hlen
  simp only [decodeTagged, hlimit, ok_bind, htag, hversion, hfields, ne_eq, not_true_eq_false,
    rejectIf_false, pure_eq]

theorem encodeTagged_inj {α : Type} {tag : Bytes} {body : Reader CodecError α} {f g bytes : Bytes}
    {a b : α} (ha : Reads body f a) (hb : Reads body g b)
    (hea : encodeTagged tag f = .ok bytes) (heb : encodeTagged tag g = .ok bytes) : a = b := by
  have h := decodeTagged_encodeTagged ha hea
  rw [decodeTagged_encodeTagged hb heb] at h
  exact (Except.ok.inj h).symm

/-! ### Headers -/

def consensusHeaderFields (value : ConsensusBlockHeader) : Bytes :=
  toBytes value.protocolVersion ++ toBytes value.networkId ++ toBytes value.height ++
    toBytes value.parentHash ++ toBytes value.timestamp ++ toBytes value.batchesRoot ++
    toBytes value.domainResultsRoot ++ toBytes value.domainHeadsRoot ++
    toBytes value.validatorSetHash ++ toBytes value.nextValidatorSetHash ++ toBytes value.proposer

def readConsensusHeader : Reader CodecError ConsensusBlockHeader := do
  let protocolVersion ← readWord 32
  let networkId ← readWord 256
  let height ← readWord 64
  let parentHash ← readWord 256
  let timestamp ← readWord 64
  let batchesRoot ← readWord 256
  let domainResultsRoot ← readWord 256
  let domainHeadsRoot ← readWord 256
  let validatorSetHash ← readWord 256
  let nextValidatorSetHash ← readWord 256
  let proposer ← readWord 160
  return { protocolVersion, networkId, height, parentHash, timestamp, batchesRoot,
           domainResultsRoot, domainHeadsRoot, validatorSetHash, nextValidatorSetHash, proposer }

def encodeConsensusHeader (value : ConsensusBlockHeader) : Except CodecError Bytes :=
  encodeTagged CONSENSUS_HEADER_TAG (consensusHeaderFields value)

def decodeConsensusHeader (input : Bytes) : Except CodecError ConsensusBlockHeader :=
  decodeTagged CONSENSUS_HEADER_TAG readConsensusHeader input

theorem reads_readConsensusHeader (value : ConsensusBlockHeader) :
    Reads readConsensusHeader (consensusHeaderFields value) value := by
  simp only [consensusHeaderFields, List.append_assoc]
  iterate 10 refine (reads_readWord (by decide) _).bind ?_
  exact (reads_readWord (by decide) _).finally (reads_pure _)

def domainHeaderFields (value : DomainBlockHeader) : Bytes :=
  toBytes value.protocolVersion ++ toBytes value.domainId ++ toBytes value.number ++
    toBytes value.parentHash ++ toBytes value.consensusHeight ++ toBytes value.transactionsRoot ++
    toBytes value.stateRoot ++ toBytes value.receiptsRoot ++ toBytes value.logsBloom ++
    toBytes value.gasLimit ++ toBytes value.gasUsed ++ toBytes value.baseFeePerGas

def readDomainHeader : Reader CodecError DomainBlockHeader := do
  let protocolVersion ← readWord 32
  let domainId ← readWord 256
  let number ← readWord 64
  let parentHash ← readWord 256
  let consensusHeight ← readWord 64
  let transactionsRoot ← readWord 256
  let stateRoot ← readWord 256
  let receiptsRoot ← readWord 256
  let logsBloom ← readWord 2048
  let gasLimit ← readWord 64
  let gasUsed ← readWord 64
  let baseFeePerGas ← readWord 128
  return { protocolVersion, domainId, number, parentHash, consensusHeight, transactionsRoot,
           stateRoot, receiptsRoot, logsBloom, gasLimit, gasUsed, baseFeePerGas }

def encodeDomainHeader (value : DomainBlockHeader) : Except CodecError Bytes :=
  encodeTagged DOMAIN_HEADER_TAG (domainHeaderFields value)

def decodeDomainHeader (input : Bytes) : Except CodecError DomainBlockHeader :=
  decodeTagged DOMAIN_HEADER_TAG readDomainHeader input

variable (value : DomainBlockHeader)

theorem reads_readDomainHeader : Reads readDomainHeader (domainHeaderFields value) value := by
  simp only [domainHeaderFields, List.append_assoc]
  iterate 11 refine (reads_readWord (by decide) _).bind ?_
  exact (reads_readWord (by decide) _).finally (reads_pure _)

/-- The encoding of a domain header: its size is fixed and within the budget. -/
def domainHeaderBytes (value : DomainBlockHeader) : Bytes :=
  DOMAIN_HEADER_TAG ++ CANONICAL_CODEC_VERSION :: domainHeaderFields value

theorem encodeDomainHeader_eq : encodeDomainHeader value = .ok (domainHeaderBytes value) := by
  refine encodeTagged_eq_ok.mpr ⟨rfl, ?_⟩
  simp [domainHeaderBytes, domainHeaderFields, DOMAIN_HEADER_TAG, ascii, MAX_CANONICAL_OBJECT_BYTES]

theorem domainHeaderBytes_inj {a b : DomainBlockHeader}
    (h : domainHeaderBytes a = domainHeaderBytes b) : a = b := by
  have hb := encodeDomainHeader_eq b
  rw [← h] at hb
  exact encodeTagged_inj (reads_readDomainHeader a) (reads_readDomainHeader b)
    (encodeDomainHeader_eq a) hb

/-! ### Batches -/

def domainBatchFields (value : DomainBatch) : Bytes :=
  toBytes value.domainId ++ toBytes value.parentDomainBlockHash ++
    encodeCount value.transactions.length ++ value.transactions.flatMap encodeBytes

def readDomainBatch : Reader CodecError DomainBatch := do
  let domainId ← readWord 256
  let parentDomainBlockHash ← readWord 256
  let count ← readCount "domain batch transactions" MAX_TRANSACTIONS_PER_BATCH
  let transactions ←
    Reader.times (readBytes "transaction envelope" MAX_TRANSACTION_ENVELOPE_BYTES) count
  return { domainId, parentDomainBlockHash, transactions }

def encodeDomainBatch (value : DomainBatch) : Except CodecError Bytes := do
  checkLimit "domain batch transactions" value.transactions.length MAX_TRANSACTIONS_PER_BATCH
  checkAll (fun transaction =>
    checkLimit "transaction envelope" transaction.length MAX_TRANSACTION_ENVELOPE_BYTES)
    value.transactions
  encodeTagged DOMAIN_BATCH_TAG (domainBatchFields value)

def decodeDomainBatch (input : Bytes) : Except CodecError DomainBatch :=
  decodeTagged DOMAIN_BATCH_TAG readDomainBatch input

theorem encodeDomainBatch_eq_ok {value : DomainBatch} {bytes : Bytes} :
    encodeDomainBatch value = .ok bytes ↔
      value.transactions.length ≤ MAX_TRANSACTIONS_PER_BATCH ∧
      (∀ transaction ∈ value.transactions,
        transaction.length ≤ MAX_TRANSACTION_ENVELOPE_BYTES) ∧
      encodeTagged DOMAIN_BATCH_TAG (domainBatchFields value) = .ok bytes := by
  simp [encodeDomainBatch, check_bind_eq_ok, checkLimit_eq_ok, checkAll_eq_ok]

theorem reads_readDomainBatch {value : DomainBatch}
    (hcount : value.transactions.length ≤ MAX_TRANSACTIONS_PER_BATCH)
    (hsize : ∀ transaction ∈ value.transactions,
      transaction.length ≤ MAX_TRANSACTION_ENVELOPE_BYTES) :
    Reads readDomainBatch (domainBatchFields value) value := by
  simp only [domainBatchFields, List.append_assoc]
  iterate 2 refine (reads_readWord (by decide) _).bind ?_
  refine (reads_readCount _ hcount (by decide)).bind ?_
  refine Reads.finally ?_ (reads_pure _)
  exact Reads.times _ fun transaction hmem => reads_readBytes _ (hsize transaction hmem) (by decide)

/-! ### Descriptors and genesis preimages -/

def DomainStatus.toByte : DomainStatus → Byte
  | .pending => 0
  | .active => 1
  | .frozen => 2

def readStatus : Reader CodecError DomainStatus := do
  let status ← readWord 8
  match status with
  | 0 => return .pending
  | 1 => return .active
  | 2 => return .frozen
  | _ => throw (.invalidValue "domain status")

def domainDescriptorFields (value : DomainDescriptor) : Bytes :=
  toBytes value.domainId ++ toBytes value.parentDomainId ++ toBytes value.jointDomainBlockHash ++
    toBytes value.createTxHash ++ toBytes value.originHash ++ encodeBytes (utf8Bytes value.name) ++
    encodeBytes (utf8Bytes value.symbol) ++ toBytes value.evmChainId ++ toBytes value.owner ++
    toBytes value.protocolRevision ++ toBytes value.gasLimit ++ toBytes value.initialBaseFee ++
    toBytes value.initialSupply ++ toBytes value.creationDeposit ++
    toBytes (DomainStatus.toByte value.status)

def readDomainDescriptor : Reader CodecError DomainDescriptor := do
  let domainId ← readWord 256
  let parentDomainId ← readWord 256
  let jointDomainBlockHash ← readWord 256
  let createTxHash ← readWord 256
  let originHash ← readWord 256
  let name ← readString "domain name" 64
  let symbol ← readString "domain symbol" 16
  let evmChainId ← readWord 64
  failIf (evmChainId = 0) (.invalidValue "evm chain id")
  let owner ← readWord 160
  let protocolRevision ← readWord 32
  let gasLimit ← readWord 64
  let initialBaseFee ← readWord 128
  let initialSupply ← readWord 256
  let creationDeposit ← readWord 256
  let status ← readStatus
  return { domainId, parentDomainId, jointDomainBlockHash, createTxHash, originHash, name, symbol,
           evmChainId, owner, protocolRevision, gasLimit, initialBaseFee, initialSupply,
           creationDeposit, status }

/-- The limits on names and the chain ID that descriptors and genesis preimages share. -/
def checkMetadata (name symbol : String) (evmChainId : U64) : Except CodecError Unit := do
  checkLimit "domain name" (utf8Bytes name).length 64
  checkLimit "domain symbol" (utf8Bytes symbol).length 16
  rejectIf (evmChainId = 0) (.invalidValue "evm chain id")

def encodeDomainDescriptor (value : DomainDescriptor) : Except CodecError Bytes := do
  checkMetadata value.name value.symbol value.evmChainId
  encodeTagged DOMAIN_DESCRIPTOR_TAG (domainDescriptorFields value)

def decodeDomainDescriptor (input : Bytes) : Except CodecError DomainDescriptor :=
  decodeTagged DOMAIN_DESCRIPTOR_TAG readDomainDescriptor input

theorem checkMetadata_eq_ok {name symbol : String} {evmChainId : U64} {u : Unit} :
    checkMetadata name symbol evmChainId = .ok u ↔
      (utf8Bytes name).length ≤ 64 ∧ (utf8Bytes symbol).length ≤ 16 ∧ evmChainId ≠ 0 := by
  simp [checkMetadata, check_bind_eq_ok, checkLimit_eq_ok]

theorem reads_readStatus (status : DomainStatus) :
    Reads readStatus (toBytes (DomainStatus.toByte status)) status := by
  refine (reads_readWord (by decide) _).finally ?_
  cases status <;> exact reads_pure _

theorem reads_readDomainDescriptor {value : DomainDescriptor}
    (hmeta : checkMetadata value.name value.symbol value.evmChainId = .ok ()) :
    Reads readDomainDescriptor (domainDescriptorFields value) value := by
  obtain ⟨hname, hsymbol, hchain⟩ := checkMetadata_eq_ok.mp hmeta
  simp only [domainDescriptorFields, List.append_assoc]
  iterate 5 refine (reads_readWord (by decide) _).bind ?_
  refine (reads_readString _ hname (by decide)).bind ?_
  refine (reads_readString _ hsymbol (by decide)).bind ?_
  refine (reads_readWord (by decide) _).bind ((reads_failIf hchain).after ?_)
  iterate 6 refine (reads_readWord (by decide) _).bind ?_
  exact (reads_readStatus _).finally (reads_pure _)

def domainGenesisFields (value : DomainGenesis) : Bytes :=
  toBytes value.domainId ++ toBytes value.parentDomainId ++ toBytes value.jointDomainBlockHash ++
    toBytes value.createTxHash ++ encodeBytes (utf8Bytes value.name) ++
    encodeBytes (utf8Bytes value.symbol) ++ toBytes value.evmChainId ++ toBytes value.owner ++
    toBytes value.protocolRevision ++ toBytes value.gasLimit ++ toBytes value.initialBaseFee ++
    toBytes value.initialSupply ++ toBytes value.initialStateRoot

def encodeDomainGenesis (value : DomainGenesis) : Except CodecError Bytes := do
  checkMetadata value.name value.symbol value.evmChainId
  encodeTagged DOMAIN_GENESIS_TAG (domainGenesisFields value)

def readDomainGenesis : Reader CodecError DomainGenesis := do
  let domainId ← readWord 256
  let parentDomainId ← readWord 256
  let jointDomainBlockHash ← readWord 256
  let createTxHash ← readWord 256
  let name ← readString "domain name" 64
  let symbol ← readString "domain symbol" 16
  let evmChainId ← readWord 64
  failIf (evmChainId = 0) (.invalidValue "evm chain id")
  let owner ← readWord 160
  let protocolRevision ← readWord 32
  let gasLimit ← readWord 64
  let initialBaseFee ← readWord 128
  let initialSupply ← readWord 256
  let initialStateRoot ← readWord 256
  return { domainId, parentDomainId, jointDomainBlockHash, createTxHash, name, symbol, evmChainId,
           owner, protocolRevision, gasLimit, initialBaseFee, initialSupply, initialStateRoot }

def decodeDomainGenesis (input : Bytes) : Except CodecError DomainGenesis :=
  decodeTagged DOMAIN_GENESIS_TAG readDomainGenesis input

/-! ### Validator sets -/

def validatorSetFields (value : ValidatorSet) : Bytes :=
  toBytes value.epoch ++ encodeCount value.validators.length ++
    value.validators.flatMap fun validator =>
      toBytes validator.id ++ toBytes validator.publicKey ++ toBytes validator.power

def encodeValidatorSet (value : ValidatorSet) : Except CodecError Bytes := do
  checkLimit "validators" value.validators.length MAX_ACTIVE_VALIDATORS
  rejectIf (value.validators = []) (.invalidValue "validator set")
  checkStrictlySorted (value.validators.map (·.id)) "validators"
  checkAll (fun validator => rejectIf (validator.power = 0) (.invalidValue "validator power"))
    value.validators
  encodeTagged VALIDATOR_SET_TAG (validatorSetFields value)

def readValidator : Reader CodecError Validator := do
  let id ← readWord 256
  let publicKey ← readWord 264
  let power ← readWord 64
  failIf (power = 0) (.invalidValue "validator power")
  return { id, publicKey, power }

def readValidatorSet : Reader CodecError ValidatorSet := do
  let epoch ← readWord 64
  let count ← readCount "validators" MAX_ACTIVE_VALIDATORS
  failIf (count = 0) (.invalidValue "validator set")
  let validators ← readValidator.times count
  StateT.lift (checkStrictlySorted (validators.map (·.id)) "validators")
  return { epoch, validators }

def decodeValidatorSet (input : Bytes) : Except CodecError ValidatorSet :=
  decodeTagged VALIDATOR_SET_TAG readValidatorSet input

end Canonical

end Arbor
