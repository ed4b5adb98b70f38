import Arbor.Codec.Canonical
import Arbor.Lib.Rlp

/-!
# Ethereum envelopes

Transactions travel as type-2 envelopes, `0x02` followed by one list of fields, and
receipts are committed in the same form.  The decoder checks what the encoder checks,
so a decoded transaction is always one that may be encoded (`validate_of_decode`).
-/

namespace Arbor

open Result Reader

def EIP_1559_TX_TYPE : Byte := 0x02

namespace Ethereum

def checkStorageKeys (item : AccessListItem) : Except CodecError Unit :=
  Canonical.checkLimit "EIP-1559 storage keys" item.storageKeys.length MAX_ACCESS_LIST_STORAGE_KEYS

def inputLimit (transaction : Eip1559Transaction) : Nat :=
  if transaction.recipient = none then MAX_INITCODE_BYTES else MAX_CALLDATA_BYTES

def validate (transaction : Eip1559Transaction) (requireSignature : Bool) :
    Except CodecError Unit := do
  rejectIf (transaction.chainId = 0) (.invalidValue "EIP-1559 chain id")
  rejectIf (transaction.maxFeePerGas < transaction.maxPriorityFeePerGas)
    (.invalidValue "EIP-1559 priority fee")
  Canonical.checkLimit "EIP-1559 input" transaction.input.length (inputLimit transaction)
  Canonical.checkLimit "EIP-1559 access list" transaction.accessList.length
    MAX_ACCESS_LIST_ADDRESSES
  checkAll checkStorageKeys transaction.accessList
  rejectIf (requireSignature = true ∧ (transaction.r = 0 ∨ transaction.s = 0))
    (.invalidValue "EIP-1559 signature scalar")

def encodeFixed {w : Nat} (value : BitVec w) : Bytes := Rlp.encodeString (toBytes value)

def encodeAccessListItem (item : AccessListItem) : Bytes :=
  Rlp.encodeList
    (encodeFixed item.address ++ Rlp.encodeList (item.storageKeys.flatMap encodeFixed))

def encodeAccessList (accessList : List AccessListItem) : Bytes :=
  Rlp.encodeList (accessList.flatMap encodeAccessListItem)

def boolByte (value : Bool) : Byte := if value then 1 else 0

def encodeRecipient : Option Address → Bytes
  | some address => encodeFixed address
  | none => Rlp.encodeString []

def encodeFields (transaction : Eip1559Transaction) (signed : Bool) : Bytes :=
  Rlp.encodeUint transaction.chainId ++ Rlp.encodeUint transaction.nonce ++
    Rlp.encodeUint transaction.maxPriorityFeePerGas ++ Rlp.encodeUint transaction.maxFeePerGas ++
    Rlp.encodeUint transaction.gasLimit ++ encodeRecipient transaction.recipient ++
    Rlp.encodeUint transaction.value ++ Rlp.encodeString transaction.input ++
    encodeAccessList transaction.accessList ++
    if signed then
      Rlp.encodeUint (boolByte transaction.yParity) ++ Rlp.encodeUint transaction.r ++
        Rlp.encodeUint transaction.s
    else []

def encodeEnvelope (transaction : Eip1559Transaction) (signed : Bool) :
    Except CodecError Bytes := do
  validate transaction signed
  let encoded := EIP_1559_TX_TYPE :: Rlp.encodeList (encodeFields transaction signed)
  rejectIf (MAX_TRANSACTION_ENVELOPE_BYTES < encoded.length)
    (.inputTooLarge "EIP-1559 envelope" MAX_TRANSACTION_ENVELOPE_BYTES encoded.length)
  return encoded

def encodeEip1559SigningPayload (transaction : Eip1559Transaction) : Except CodecError Bytes :=
  encodeEnvelope transaction false

def encodeEip1559 (transaction : Eip1559Transaction) : Except CodecError Bytes :=
  encodeEnvelope transaction true

/-! ## Decoding -/

/-- A reader of the RLP library, its errors wrapped. -/
def rlp {α : Type} (r : Reader Rlp.Error α) : Reader CodecError α := fun input =>
  (r.run input).mapError fun e => .rlp e.display

def listPayload (field : String) : Reader CodecError Bytes := do
  let header ← rlp Rlp.header
  failIf (header.list = false) (.invalidValue field)
  Reader.take .unexpectedEof header.payloadLength

/-- `r` run on a payload of its own, which it has to use up. -/
def within {α : Type} (payload : Bytes) (r : Reader CodecError α) : Reader CodecError α := do
  let (value, rest) ← StateT.lift (r.run payload)
  failIf (rest ≠ []) .trailingBytes
  return value

/-- Items until the input is used up, at most `limit - count` of them. -/
def items {α : Type} (field : String) (limit : Nat) (r : Reader CodecError α) :
    Nat → Reader CodecError (List α)
  | 0 => fun input =>
    if input = [] then .ok ([], []) else .error (.limitExceeded field limit (limit + 1))
  | n + 1 => fun input =>
    if input = [] then .ok ([], [])
    else StateT.run (do
      let item ← r
      let rest ← items field limit r n
      return item :: rest) input

def readAccessListItem : Reader CodecError AccessListItem := do
  let item ← listPayload "EIP-1559 access-list item"
  let (address, keys) ← within item do
    let address ← rlp (Rlp.fixed 160)
    let keys ← listPayload "EIP-1559 storage-key list"
    return (address, keys)
  let storageKeys ← within keys
    (items "EIP-1559 storage keys" MAX_ACCESS_LIST_STORAGE_KEYS (rlp (Rlp.fixed 256))
      MAX_ACCESS_LIST_STORAGE_KEYS)
  return { address, storageKeys }

def readAccessList : Reader CodecError (List AccessListItem) := do
  let list ← listPayload "EIP-1559 access list"
  within list
    (items "EIP-1559 access list" MAX_ACCESS_LIST_ADDRESSES readAccessListItem
      MAX_ACCESS_LIST_ADDRESSES)

def readRecipient : Reader CodecError (Option Address) := do
  let bytes ← rlp Rlp.string
  if bytes.length = 0 then return none
  else if bytes.length = 20 then return some (ofBytes 160 bytes)
  else throw (.invalidValue "EIP-1559 destination")

def readBool (field : String) : Reader CodecError Bool := do
  let value ← rlp (Rlp.uint 8)
  if value = 0 then return false
  else if value = 1 then return true
  else throw (.invalidValue field)

def readFields : Reader CodecError Eip1559Transaction := do
  let chainId ← rlp (Rlp.uint 64)
  let nonce ← rlp (Rlp.uint 64)
  let maxPriorityFeePerGas ← rlp (Rlp.uint 128)
  let maxFeePerGas ← rlp (Rlp.uint 128)
  let gasLimit ← rlp (Rlp.uint 64)
  let recipient ← readRecipient
  let value ← rlp (Rlp.uint 256)
  let input ← rlp Rlp.string
  let accessList ← readAccessList
  let yParity ← readBool "EIP-1559 y parity"
  let r ← rlp (Rlp.uint 256)
  let s ← rlp (Rlp.uint 256)
  return { chainId, nonce, maxPriorityFeePerGas, maxFeePerGas, gasLimit, recipient, value, input,
           accessList, yParity, r, s }

def decodeEip1559 (input : Bytes) : Except CodecError Eip1559Transaction := do
  rejectIf (MAX_TRANSACTION_ENVELOPE_BYTES < input.length)
    (.inputTooLarge "EIP-1559 envelope" MAX_TRANSACTION_ENVELOPE_BYTES input.length)
  match input with
  | [] => throw .unexpectedEof
  | transactionType :: body => do
    rejectIf (transactionType ≠ EIP_1559_TX_TYPE) (.invalidValue "EIP-2718 transaction type")
    let (fields, outer) ← (listPayload "EIP-1559 payload").run body
    rejectIf (outer ≠ []) .trailingBytes
    let (transaction, rest) ← readFields.run fields
    rejectIf (rest ≠ []) .trailingBytes
    validate transaction true
    return transaction

/-! ## Receipts -/

def checkLog (log : Log) : Except CodecError Unit := do
  Canonical.checkLimit "log topics" log.topics.length 4
  Canonical.checkLimit "log data" log.data.length (MAX_CALLDATA_BYTES * 2)

def encodeLog (log : Log) : Bytes :=
  Rlp.encodeList
    (encodeFixed log.address ++ Rlp.encodeList (log.topics.flatMap encodeFixed) ++
      Rlp.encodeString log.data)

def encodeLogs (logs : List Log) : Except CodecError Bytes := do
  Canonical.checkLimit "receipt logs" logs.length 1024
  checkAll checkLog logs
  return Rlp.encodeList (logs.flatMap encodeLog)

def encodeEip1559Receipt (receipt : Receipt) : Except CodecError Bytes := do
  let logs ← encodeLogs receipt.logs
  let encoded := EIP_1559_TX_TYPE :: Rlp.encodeList
    (Rlp.encodeUint (boolByte receipt.status) ++ Rlp.encodeUint receipt.cumulativeGasUsed ++
      encodeFixed receipt.logsBloom ++ logs)
  rejectIf (MAX_CANONICAL_OBJECT_BYTES < encoded.length)
    (.inputTooLarge "EIP-1559 receipt" MAX_CANONICAL_OBJECT_BYTES encoded.length)
  return encoded

/-- **Decoding validates.**  What is decoded passes every check of the encoder. -/
theorem validate_of_decode {input : Bytes} {transaction : Eip1559Transaction}
    (h : decodeEip1559 input = .ok transaction) : validate transaction true = .ok () := by
  unfold decodeEip1559 at h
  rw [check_bind_eq_ok] at h
  obtain ⟨_, h⟩ := h
  cases input with
  | nil => cases h
  | cons transactionType body =>
    rw [check_bind_eq_ok] at h
    obtain ⟨_, h⟩ := h
    obtain ⟨⟨fields, outer⟩, _, h⟩ := bind_eq_ok.mp h
    rw [check_bind_eq_ok] at h
    obtain ⟨_, h⟩ := h
    obtain ⟨⟨decoded, rest⟩, _, h⟩ := bind_eq_ok.mp h
    rw [check_bind_eq_ok, check_bind_eq_ok] at h
    obtain ⟨_, hvalid, hok⟩ := h
    cases hok
    exact hvalid

end Ethereum

end Arbor
