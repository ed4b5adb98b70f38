import Mathlib.Data.Fintype.Basic
import Arbor.Crypto

/-!
# Native system contracts

The ABI and the state rules of the root chain registry.  A creation request is
normalised and checked before anything is derived from it; a prepared creation then
fixes the descriptor and the seven storage words that make the new domain visible to
consensus.  Registry words live at hashed slots: `RegistrySlot` names them, and
`RegistrySlot.preimage_injective` separates their preimages.
-/

namespace Arbor

open Result

def SYSTEM_ADDRESS_REGISTRY_VERSION : U32 := 1
def PROTOCOL_INFO_GAS : Nat := 500
def CHAIN_REGISTRY_CREATE_GAS : Nat := 180000
def CHAIN_REGISTRY_DEPOSIT_GAS : Nat := 45000
/-- Root-governed anti-spam deposit of protocol revision one. -/
def MIN_CREATION_DEPOSIT : U256 := 1000000000000000000
def CREATION_DEPOSIT_LOCK_BLOCKS : Nat := 100
def PROTOCOL_INFO_ADDRESS : Address := 0x800
def CHAIN_REGISTRY_ADDRESS : Address := 0x801

def PROTOCOL_INFO_ABI_SIGNATURE : Bytes := ascii "protocolInfo()"
def CREATE_CHAIN_ABI_SIGNATURE : Bytes :=
  ascii "createChain(bytes32,string,string,uint64,address,uint64,uint128,uint256,uint32)"
def REFUND_DEPOSIT_ABI_SIGNATURE : Bytes := ascii "refundDeposit(bytes32)"
def BURN_DEPOSIT_ABI_SIGNATURE : Bytes := ascii "burnDeposit(bytes32)"

def REGISTRY_DESCRIPTOR_TAG : Bytes := ascii "ARBOR_CHAIN_REGISTRY_DESCRIPTOR_V1"
def REGISTRY_CHAIN_ID_TAG : Bytes := ascii "ARBOR_CHAIN_REGISTRY_CHAIN_ID_V1"
def REGISTRY_CREATION_HEIGHT_TAG : Bytes := ascii "ARBOR_CHAIN_REGISTRY_CREATION_HEIGHT_V1"
def REGISTRY_DEPOSIT_TAG : Bytes := ascii "ARBOR_CHAIN_REGISTRY_DEPOSIT_V1"
def REGISTRY_DEPOSIT_UNLOCK_TAG : Bytes := ascii "ARBOR_CHAIN_REGISTRY_DEPOSIT_UNLOCK_V1"
def REGISTRY_OWNER_TAG : Bytes := ascii "ARBOR_CHAIN_REGISTRY_OWNER_V1"
def REGISTRY_DEPOSIT_STATUS_TAG : Bytes := ascii "ARBOR_CHAIN_REGISTRY_DEPOSIT_STATUS_V1"
def ROOT_DOMAIN_MARKER_TAG : Bytes := ascii "ARBOR_ROOT_DOMAIN_MARKER_V1"

structure CreateChainRequest where
  parentDomainId : DomainId
  name : String
  symbol : String
  evmChainId : U64
  owner : Address
  gasLimit : U64
  initialBaseFee : U128
  initialSupply : U256
  protocolRevision : U32
  deriving DecidableEq

/-- Creation data supplied to the journaled native precompile. -/
structure PreparedChainCreation where
  request : CreateChainRequest
  descriptor : DomainDescriptor
  descriptorHash : B256
  creationHeight : U64
  depositUnlockHeight : U64
  deriving DecidableEq

structure ChainRegistryRuntime where
  rootDomainId : DomainId
  executingDomainId : DomainId
  consensusHeight : U64
  governanceAddress : Address
  preparedCreation : Option PreparedChainCreation
  deriving DecidableEq

inductive CreationDepositStatus where
  | locked
  | refunded
  | burned
  deriving DecidableEq

def CreationDepositStatus.word : CreationDepositStatus → U256
  | locked => 1
  | refunded => 2
  | burned => 3

inductive ChainRegistryError where
  | invalidCalldata
  | invalidMetadata
  | invalidParameter (what : String)
  | insufficientDeposit (minimum actual : U256)
  | heightOverflow
  | encoding (what : String)
  deriving DecidableEq

namespace SystemContract

/-! ## Requests -/

def validateRequest (request : CreateChainRequest) : Except ChainRegistryError Unit := do
  rejectIf (request.parentDomainId = 0) (.invalidParameter "zero parent domain")
  rejectIf (request.evmChainId = 0) (.invalidParameter "zero EVM chain ID")
  rejectIf (request.owner = 0) (.invalidParameter "zero owner")
  rejectIf (request.gasLimit = 0 ∨ 30000000 < request.gasLimit.toNat)
    (.invalidParameter "domain gas limit")
  rejectIf (2 ^ 64 ≤ request.initialBaseFee.toNat) (.invalidParameter "initial base fee")
  rejectIf (request.protocolRevision ≠ 1) (.invalidParameter "protocol revision")

theorem validateRequest_eq_ok {request : CreateChainRequest} {u : Unit} :
    validateRequest request = .ok u ↔
      request.parentDomainId ≠ 0 ∧ request.evmChainId ≠ 0 ∧ request.owner ≠ 0 ∧
      (request.gasLimit ≠ 0 ∧ request.gasLimit.toNat ≤ 30000000) ∧
      request.initialBaseFee.toNat < 2 ^ 64 ∧ request.protocolRevision = 1 := by
  simp [validateRequest, check_bind_eq_ok]

def isAsciiWhitespace (c : Char) : Bool :=
  c.toNat = 0x20 ∨ c.toNat = 0x09 ∨ c.toNat = 0x0a ∨ c.toNat = 0x0c ∨ c.toNat = 0x0d

/-- Unicode white space, as `str::trim` removes it. -/
def isWhitespace (c : Char) : Bool :=
  (0x09 ≤ c.toNat ∧ c.toNat ≤ 0x0d) ∨ c.toNat = 0x20 ∨ c.toNat = 0x85 ∨ c.toNat = 0xa0 ∨
    c.toNat = 0x1680 ∨ (0x2000 ≤ c.toNat ∧ c.toNat ≤ 0x200a) ∨ c.toNat = 0x2028 ∨
    c.toNat = 0x2029 ∨ c.toNat = 0x202f ∨ c.toNat = 0x205f ∨ c.toNat = 0x3000

def isAsciiAlphanumeric (byte : Byte) : Bool :=
  (0x30 ≤ byte.toNat ∧ byte.toNat ≤ 0x39) ∨ (0x41 ≤ byte.toNat ∧ byte.toNat ≤ 0x5a) ∨
    (0x61 ≤ byte.toNat ∧ byte.toNat ≤ 0x7a)

def isNameByte (byte : Byte) : Bool :=
  isAsciiAlphanumeric byte ∨ byte.toNat = 0x20 ∨ byte.toNat = 0x2d ∨ byte.toNat = 0x5f ∨
    byte.toNat = 0x2e

def toAsciiUppercase (c : Char) : Char :=
  if 0x61 ≤ c.toNat ∧ c.toNat ≤ 0x7a then Char.ofNat (c.toNat - 0x20) else c

/-- The words between ASCII white space; `word` is the one being read, reversed. -/
def splitWords : List Char → List Char → List (List Char)
  | word, [] => if word = [] then [] else [word.reverse]
  | word, c :: rest =>
    if isAsciiWhitespace c then
      if word = [] then splitWords [] rest else word.reverse :: splitWords [] rest
    else splitWords (c :: word) rest

def joinWords (words : List (List Char)) : List Char :=
  List.intercalate [' '] words

def trim (chars : List Char) : List Char :=
  ((chars.dropWhile isWhitespace).reverse.dropWhile isWhitespace).reverse

/-- A nonempty string of at most `limit` bytes, all allowed. -/
def checkText (limit : Nat) (allowed : Byte → Bool) (text : String) :
    Except ChainRegistryError String :=
  if utf8Bytes text = [] ∨ limit < (utf8Bytes text).length ∨ (utf8Bytes text).all allowed = false
  then .error .invalidMetadata
  else .ok text

def normalizeName (bytes : Bytes) : Except ChainRegistryError String :=
  match fromUtf8 bytes with
  | none => .error .invalidMetadata
  | some value =>
    checkText 64 isNameByte (String.ofList (joinWords (splitWords [] value.toList)))

def normalizeSymbol (bytes : Bytes) : Except ChainRegistryError String :=
  match fromUtf8 bytes with
  | none => .error .invalidMetadata
  | some value =>
    checkText 16 isAsciiAlphanumeric
      (String.ofList ((trim value.toList).map toAsciiUppercase))

theorem checkText_eq_ok {limit : Nat} {allowed : Byte → Bool} {text result : String}
    (h : checkText limit allowed text = .ok result) :
    result = text ∧ (utf8Bytes text).length ≤ limit := by
  unfold checkText at h
  split at h
  · cases h
  · rename_i hpass
    cases h
    constructor
    · rfl
    · by_contra hlong
      exact hpass (Or.inr (Or.inl (by omega)))

/-! ## Calldata -/

section Selectors

variable [Keccak]

def selector (signature : Bytes) : Bytes := (toBytes (keccak256 signature)).take 4

def protocolInfoSelector : Bytes := selector PROTOCOL_INFO_ABI_SIGNATURE
def createChainSelector : Bytes := selector CREATE_CHAIN_ABI_SIGNATURE
def refundDepositSelector : Bytes := selector REFUND_DEPOSIT_ABI_SIGNATURE
def burnDepositSelector : Bytes := selector BURN_DEPOSIT_ABI_SIGNATURE

def encodeDomainIdCall (selector : Bytes) (domainId : DomainId) : Bytes :=
  selector ++ toBytes domainId

def decodeDomainIdCall (input selector : Bytes) : Option DomainId :=
  if input.length = 36 ∧ input.take 4 = selector then some (ofBytes 256 (input.drop 4)) else none

def encodeRefundDepositCall (domainId : DomainId) : Bytes :=
  encodeDomainIdCall refundDepositSelector domainId

def encodeBurnDepositCall (domainId : DomainId) : Bytes :=
  encodeDomainIdCall burnDepositSelector domainId

def decodeRefundDepositCall (input : Bytes) : Option DomainId :=
  decodeDomainIdCall input refundDepositSelector

def decodeBurnDepositCall (input : Bytes) : Option DomainId :=
  decodeDomainIdCall input burnDepositSelector

end Selectors

def zeros (n : Nat) : Bytes := List.replicate n 0

def putWord {w : Nat} (value : BitVec w) : Bytes := zeros (32 - w / 8) ++ toBytes value

/-- Output of `protocolInfo()`: revision, EVM revision, registry version and chain ID. -/
def encodeProtocolInfo (protocolRevision : U32) (evmRevision : U8) (chainId : U64) : Bytes :=
  putWord protocolRevision ++ putWord evmRevision ++ putWord SYSTEM_ADDRESS_REGISTRY_VERSION ++
    putWord chainId

def putWordUsize (value : Nat) : Bytes := putWord (BitVec.ofNat 64 value)

/-- The tail of a dynamic argument: its length and its bytes, padded to whole words. -/
def abiBytesTail (value : Bytes) : Bytes :=
  putWordUsize value.length ++ value ++ zeros ((value.length + 31) / 32 * 32 - value.length)

/-- `bytes[start..end]`, if the range lies inside. -/
def slice (bytes : Bytes) (first last : Nat) : Option Bytes :=
  if first ≤ last ∧ last ≤ bytes.length then some ((bytes.take last).drop first) else none

/-- A word of `w` bits, right-aligned in 32 bytes. -/
def decodeWord (w : Nat) (word : Bytes) : Except ChainRegistryError (BitVec w) :=
  if word.length ≠ 32 ∨ word.take (32 - w / 8) ≠ zeros (32 - w / 8) then .error .invalidCalldata
  else .ok (ofBytes w (word.drop (32 - w / 8)))

def decodeUsizeWord (word : Bytes) : Except ChainRegistryError Nat := do
  let value ← decodeWord 64 word
  return value.toNat

def orInvalid (bytes : Option Bytes) : Except ChainRegistryError Bytes :=
  match bytes with
  | some bytes => .ok bytes
  | none => .error .invalidCalldata

def decodeDynamicBytes (args : Bytes) (offset limit : Nat) :
    Except ChainRegistryError (Bytes × Nat) := do
  rejectIf (offset % 32 ≠ 0) .invalidCalldata
  let lengthWord ← orInvalid (slice args offset (offset + 32))
  let length ← decodeUsizeWord lengthWord
  rejectIf (limit < length) .invalidMetadata
  let start := offset + 32
  let last := start + (length + 31) / 32 * 32
  let data ← orInvalid (slice args start (start + length))
  let padding ← orInvalid (slice args (start + length) last)
  rejectIf (padding.any (· ≠ 0) = true) .invalidCalldata
  return (data, last)

def HEAD_BYTES : Nat := 9 * 32

section Calls

variable [Keccak]

def encodeCreateChainCall (request : CreateChainRequest) : Except ChainRegistryError Bytes := do
  let name ← normalizeName (utf8Bytes request.name)
  let symbol ← normalizeSymbol (utf8Bytes request.symbol)
  validateRequest { request with name, symbol }
  let nameTail := abiBytesTail (utf8Bytes name)
  let symbolTail := abiBytesTail (utf8Bytes symbol)
  return createChainSelector ++ toBytes request.parentDomainId ++ putWordUsize HEAD_BYTES ++
    putWordUsize (HEAD_BYTES + nameTail.length) ++ putWord request.evmChainId ++
    putWord request.owner ++ putWord request.gasLimit ++ putWord request.initialBaseFee ++
    toBytes request.initialSupply ++ putWord request.protocolRevision ++ nameTail ++ symbolTail

/-- The request that exact calldata carries, its names normalised. -/
def decodeCreateChainCall (input : Bytes) : Except ChainRegistryError CreateChainRequest := do
  rejectIf (input.length < 4 + HEAD_BYTES ∨ input.take 4 ≠ createChainSelector) .invalidCalldata
  let args := input.drop 4
  let word := fun index => orInvalid (slice args (index * 32) ((index + 1) * 32))
  let parentDomainId ← word 0
  let nameOffset ← (word 1).bind decodeUsizeWord
  let symbolOffset ← (word 2).bind decodeUsizeWord
  rejectIf (nameOffset ≠ HEAD_BYTES ∨ symbolOffset < nameOffset + 32) .invalidCalldata
  let (nameBytes, nameEnd) ← decodeDynamicBytes args nameOffset 64
  rejectIf (symbolOffset ≠ nameEnd) .invalidCalldata
  let (symbolBytes, symbolEnd) ← decodeDynamicBytes args symbolOffset 16
  rejectIf (symbolEnd ≠ args.length) .invalidCalldata
  let evmChainId ← (word 3).bind (decodeWord 64)
  let owner ← (word 4).bind (decodeWord 160)
  let gasLimit ← (word 5).bind (decodeWord 64)
  let initialBaseFee ← (word 6).bind (decodeWord 128)
  let initialSupply ← word 7
  let protocolRevision ← (word 8).bind (decodeWord 32)
  let name ← normalizeName nameBytes
  let symbol ← normalizeSymbol symbolBytes
  let request : CreateChainRequest :=
    { parentDomainId := ofBytes 256 parentDomainId, name, symbol, evmChainId, owner, gasLimit,
      initialBaseFee, initialSupply := ofBytes 256 initialSupply, protocolRevision }
  validateRequest request
  return request

end Calls

/-! ## Registry slots -/

/-- The words the registry keeps, by what they are about. -/
inductive RegistrySlot where
  | descriptor (domainId : DomainId)
  | chainId (chainId : U64)
  | creationHeight (domainId : DomainId)
  | deposit (domainId : DomainId)
  | depositUnlock (domainId : DomainId)
  | owner (domainId : DomainId)
  | depositStatus (domainId : DomainId)
  deriving DecidableEq

inductive SlotKind where
  | descriptor
  | chainId
  | creationHeight
  | deposit
  | depositUnlock
  | owner
  | depositStatus
  deriving DecidableEq

instance : Fintype SlotKind where
  elems := {.descriptor, .chainId, .creationHeight, .deposit, .depositUnlock, .owner,
    .depositStatus}
  complete kind := by cases kind <;> decide

def SlotKind.tag : SlotKind → Bytes
  | .descriptor => REGISTRY_DESCRIPTOR_TAG
  | .chainId => REGISTRY_CHAIN_ID_TAG
  | .creationHeight => REGISTRY_CREATION_HEIGHT_TAG
  | .deposit => REGISTRY_DEPOSIT_TAG
  | .depositUnlock => REGISTRY_DEPOSIT_UNLOCK_TAG
  | .owner => REGISTRY_OWNER_TAG
  | .depositStatus => REGISTRY_DEPOSIT_STATUS_TAG

def SlotKind.keyLength : SlotKind → Nat
  | .chainId => 8
  | _ => 32

def RegistrySlot.kind : RegistrySlot → SlotKind
  | .descriptor _ => .descriptor
  | .chainId _ => .chainId
  | .creationHeight _ => .creationHeight
  | .deposit _ => .deposit
  | .depositUnlock _ => .depositUnlock
  | .owner _ => .owner
  | .depositStatus _ => .depositStatus

def RegistrySlot.key : RegistrySlot → Bytes
  | .chainId id => toBytes id
  | .descriptor domainId | .creationHeight domainId | .deposit domainId | .depositUnlock domainId
  | .owner domainId | .depositStatus domainId => toBytes domainId

def RegistrySlot.preimage (slot : RegistrySlot) : Bytes := slot.kind.tag ++ slot.key

theorem SlotKind.tag_injective : Function.Injective SlotKind.tag := by decide

theorem SlotKind.length_tag_eq : ∀ a b : SlotKind,
    a.tag.length + a.keyLength = b.tag.length + b.keyLength → a.tag.length = b.tag.length := by
  decide

theorem RegistrySlot.length_key (slot : RegistrySlot) : slot.key.length = slot.kind.keyLength := by
  cases slot <;> exact length_toBytes _

theorem RegistrySlot.eq_of_kind_of_key {a b : RegistrySlot} (hkind : a.kind = b.kind)
    (hkey : a.key = b.key) : a = b := by
  have hid : ∀ x y : DomainId, toBytes x = toBytes y → x = y :=
    fun x y h => toBytes_injective (by decide) h
  cases a <;> cases b
  case chainId.chainId => exact congrArg _ (toBytes_injective (by decide) hkey)
  all_goals first
    | (cases hkind; done)
    | exact congrArg _ (hid _ _ hkey)

/-- **Slots have their own preimages.**  The lengths tell all kinds apart but two,
whose tags differ. -/
theorem RegistrySlot.preimage_injective : Function.Injective RegistrySlot.preimage := by
  intro a b h
  have hlen := congrArg List.length h
  rw [preimage, preimage, List.length_append, List.length_append, length_key, length_key] at hlen
  obtain ⟨htag, hkey⟩ := List.append_inj h (SlotKind.length_tag_eq _ _ hlen)
  exact eq_of_kind_of_key (SlotKind.tag_injective htag) hkey

section Slots

variable [Keccak]

def taggedSlot (tag key : Bytes) : U256 := keccak256 (tag ++ key)

def RegistrySlot.word (slot : RegistrySlot) : U256 := taggedSlot slot.kind.tag slot.key

def descriptorSlot (domainId : DomainId) : U256 := (RegistrySlot.descriptor domainId).word
def chainIdSlot (chainId : U64) : U256 := (RegistrySlot.chainId chainId).word
def creationHeightSlot (domainId : DomainId) : U256 := (RegistrySlot.creationHeight domainId).word
def depositSlot (domainId : DomainId) : U256 := (RegistrySlot.deposit domainId).word
def depositUnlockSlot (domainId : DomainId) : U256 := (RegistrySlot.depositUnlock domainId).word
def ownerSlot (domainId : DomainId) : U256 := (RegistrySlot.owner domainId).word
def depositStatusSlot (domainId : DomainId) : U256 := (RegistrySlot.depositStatus domainId).word

/-- Slots whose preimages do not collide are told apart. -/
theorem RegistrySlot.word_inj {slots : Set RegistrySlot}
    (hinj : Set.InjOn keccak256 (RegistrySlot.preimage '' slots)) {a b : RegistrySlot}
    (ha : a ∈ slots) (hb : b ∈ slots) : a.word = b.word ↔ a = b := by
  constructor
  · intro h
    exact preimage_injective (hinj (Set.mem_image_of_mem _ ha) (Set.mem_image_of_mem _ hb) h)
  · intro h
    rw [h]

/-! ## Creation -/

def requestGenesis (request : CreateChainRequest) (domainId : DomainId)
    (jointDomainBlockHash createTxHash initialStateRoot : B256) : DomainGenesis where
  domainId := domainId
  parentDomainId := request.parentDomainId
  jointDomainBlockHash := jointDomainBlockHash
  createTxHash := createTxHash
  name := request.name
  symbol := request.symbol
  evmChainId := request.evmChainId
  owner := request.owner
  protocolRevision := request.protocolRevision
  gasLimit := request.gasLimit
  initialBaseFee := request.initialBaseFee
  initialSupply := request.initialSupply
  initialStateRoot := initialStateRoot

def requestDescriptor (request : CreateChainRequest) (domainId : DomainId)
    (jointDomainBlockHash createTxHash originHash : B256) (creationDeposit : U256) :
    DomainDescriptor where
  domainId := domainId
  parentDomainId := request.parentDomainId
  jointDomainBlockHash := jointDomainBlockHash
  createTxHash := createTxHash
  originHash := originHash
  name := request.name
  symbol := request.symbol
  evmChainId := request.evmChainId
  owner := request.owner
  protocolRevision := request.protocolRevision
  gasLimit := request.gasLimit
  initialBaseFee := request.initialBaseFee
  initialSupply := request.initialSupply
  creationDeposit := creationDeposit
  status := .active

def prepareChainCreation (request : CreateChainRequest) (networkId : NetworkId)
    (createTxHash jointDomainBlockHash initialStateRoot : B256) (creationDeposit : U256)
    (creationHeight : U64) : Except ChainRegistryError PreparedChainCreation := do
  let name ← normalizeName (utf8Bytes request.name)
  let symbol ← normalizeSymbol (utf8Bytes request.symbol)
  let request := { request with name, symbol }
  validateRequest request
  rejectIf (creationDeposit < MIN_CREATION_DEPOSIT)
    (.insufficientDeposit MIN_CREATION_DEPOSIT creationDeposit)
  let domainId := Crypto.deriveDomainId networkId request.parentDomainId createTxHash
  let originHash ← (Crypto.domainGenesisHash
    (requestGenesis request domainId jointDomainBlockHash createTxHash initialStateRoot)).mapError
      fun error => .encoding error.display
  let descriptor := requestDescriptor request domainId jointDomainBlockHash createTxHash originHash
    creationDeposit
  let encoded ← (Canonical.encodeDomainDescriptor descriptor).mapError
    fun error => .encoding error.display
  rejectIf (2 ^ 64 ≤ creationHeight.toNat + CREATION_DEPOSIT_LOCK_BLOCKS) .heightOverflow
  return { request, descriptor, descriptorHash := keccak256 encoded, creationHeight,
           depositUnlockHeight := creationHeight + BitVec.ofNat 64 CREATION_DEPOSIT_LOCK_BLOCKS }

/-- A prepared creation: the request with its texts normalised and checked, the descriptor
made from it, and what the registry will hold of it. -/
structure PreparedFrom (request : CreateChainRequest) (networkId : NetworkId)
    (createTxHash jointDomainBlockHash initialStateRoot : B256) (creationDeposit : U256)
    (creationHeight : U64) (prepared : PreparedChainCreation) (originHash : B256) : Prop where
  parent : prepared.request.parentDomainId = request.parentDomainId
  owner : prepared.request.owner = request.owner
  initialSupply : prepared.request.initialSupply = request.initialSupply
  valid : validateRequest prepared.request = .ok ()
  deposit : MIN_CREATION_DEPOSIT ≤ creationDeposit
  origin : Crypto.domainGenesisHash (requestGenesis prepared.request
    (Crypto.deriveDomainId networkId request.parentDomainId createTxHash) jointDomainBlockHash
    createTxHash initialStateRoot) = .ok originHash
  descriptor : prepared.descriptor = requestDescriptor prepared.request
    (Crypto.deriveDomainId networkId request.parentDomainId createTxHash) jointDomainBlockHash
    createTxHash originHash creationDeposit
  hashed : ∃ encoded, Canonical.encodeDomainDescriptor prepared.descriptor = .ok encoded ∧
    prepared.descriptorHash = keccak256 encoded
  height : prepared.creationHeight = creationHeight

theorem prepareChainCreation_eq_ok {request : CreateChainRequest} {networkId : NetworkId}
    {createTxHash jointDomainBlockHash initialStateRoot : B256} {creationDeposit : U256}
    {creationHeight : U64} {prepared : PreparedChainCreation}
    (h : prepareChainCreation request networkId createTxHash jointDomainBlockHash initialStateRoot
      creationDeposit creationHeight = .ok prepared) :
    ∃ originHash, PreparedFrom request networkId createTxHash jointDomainBlockHash initialStateRoot
      creationDeposit creationHeight prepared originHash := by
  obtain ⟨name, _, h⟩ := bind_eq_ok.mp h
  obtain ⟨symbol, _, h⟩ := bind_eq_ok.mp h
  obtain ⟨hvalid, h⟩ := check_bind_eq_ok.mp h
  obtain ⟨hdeposit, h⟩ := check_bind_eq_ok.mp h
  obtain ⟨originHash, horigin, h⟩ := bind_eq_ok.mp h
  obtain ⟨encoded, hencoded, h⟩ := bind_eq_ok.mp h
  obtain ⟨_, h⟩ := check_bind_eq_ok.mp h
  cases h
  rw [rejectIf_eq_ok, BitVec.not_lt] at hdeposit
  exact ⟨originHash, rfl, rfl, rfl, hvalid, hdeposit, mapError_eq_ok.mp horigin, rfl,
    ⟨encoded, mapError_eq_ok.mp hencoded, rfl⟩, rfl⟩

/-- The words that make a descriptor, chain ID, deposit and owner visible. -/
def creationStorageWrites (prepared : PreparedChainCreation) : List (U256 × U256) :=
  let domainId := prepared.descriptor.domainId
  [ (descriptorSlot domainId, prepared.descriptorHash),
    (chainIdSlot prepared.descriptor.evmChainId, domainId),
    (creationHeightSlot domainId, prepared.creationHeight.setWidth 256),
    (depositSlot domainId, prepared.descriptor.creationDeposit),
    (depositUnlockSlot domainId, prepared.depositUnlockHeight.setWidth 256),
    (ownerSlot domainId, prepared.descriptor.owner.setWidth 256),
    (depositStatusSlot domainId, CreationDepositStatus.locked.word) ]

def rootDomainMarker (rootDomainId : DomainId) : U256 :=
  keccak256 (ROOT_DOMAIN_MARKER_TAG ++ toBytes rootDomainId)

/-- Genesis storage of the registry: the root's marker and its chain ID. -/
def rootRegistryGenesisStorage (rootDomainId : DomainId) (rootChainId : U64) : BTreeMap U256 U256 :=
  ((∅ : BTreeMap U256 U256).insert (descriptorSlot rootDomainId)
    (rootDomainMarker rootDomainId)).insert
    (chainIdSlot rootChainId) rootDomainId

end Slots

end SystemContract

end Arbor
