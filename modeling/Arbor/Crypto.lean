import Arbor.Codec.Ethereum

/-!
# Hashing and sender recovery

Identifiers and hashes are Keccak-256 of tagged canonical encodings.  The curve
arithmetic of the signature library enters as the class `Secp256k1`.
-/

namespace Arbor

open Result

class Secp256k1 where
  /-- Whether normalising the scalar `s` changes it. -/
  highS : U256 → Bool
  /-- The address that signed a prehash, if the signature recovers. -/
  recoverAddress : B256 → U256 → U256 → Bool → Option Address
  /-- Whether 33 bytes are a compressed curve point. -/
  validPublicKey : BitVec 264 → Bool

/-- A curve on which the scalar `r` names the signer, for runs on fixed inputs. -/
@[reducible] def namingCurve : Secp256k1 :=
  ⟨fun _ => false, fun _ r _ _ => some (r.setWidth 160), fun _ => true⟩

inductive CryptoError where
  | codec (error : CodecError)
  | invalidPublicKey
  | invalidSignature
  | validatorMismatch
  | unknownValidator
  | insufficientQuorum
  | votingPowerOverflow
  deriving DecidableEq

def CryptoError.display : CryptoError → String
  | codec error => error.display
  | invalidPublicKey => "invalid secp256k1 consensus public key"
  | invalidSignature => "invalid or non-canonical secp256k1 signature"
  | validatorMismatch => "consensus key does not match vote validator id"
  | unknownValidator => "certificate references an unknown validator"
  | insufficientQuorum =>
    "certificate does not have strictly greater than two-thirds voting power"
  | votingPowerOverflow => "validator voting power overflow"

namespace Crypto

def DOMAIN_ID_TAG : Bytes := ascii "ARBOR_DOMAIN_V1"
def VALIDATOR_ID_TAG : Bytes := ascii "ARBOR_VALIDATOR_ID_V1"

section Hashes

variable [Keccak]

def hashEncoded (encoded : Except CodecError Bytes) : Except CryptoError B256 := do
  let bytes ← encoded.mapError .codec
  return keccak256 bytes

def domainIdPreimage (networkId : NetworkId) (parentDomainId : DomainId) (createTxHash : B256) :
    Bytes :=
  DOMAIN_ID_TAG ++ [CANONICAL_CODEC_VERSION] ++ toBytes networkId ++ toBytes parentDomainId ++
    toBytes createTxHash

def deriveDomainId (networkId : NetworkId) (parentDomainId : DomainId) (createTxHash : B256) :
    DomainId :=
  keccak256 (domainIdPreimage networkId parentDomainId createTxHash)

def consensusHeaderHash (value : ConsensusBlockHeader) : Except CryptoError B256 :=
  hashEncoded (Canonical.encodeConsensusHeader value)

def domainHeaderHash (value : DomainBlockHeader) : Except CryptoError B256 :=
  hashEncoded (Canonical.encodeDomainHeader value)

def domainGenesisHash (value : DomainGenesis) : Except CryptoError B256 :=
  hashEncoded (Canonical.encodeDomainGenesis value)

def eip1559SigningHash (value : Eip1559Transaction) : Except CryptoError B256 :=
  hashEncoded (Ethereum.encodeEip1559SigningPayload value)

def eip1559TransactionHash (value : Eip1559Transaction) : Except CryptoError B256 :=
  hashEncoded (Ethereum.encodeEip1559 value)

def validatorId (publicKey : BitVec 264) : ValidatorId :=
  keccak256 (VALIDATOR_ID_TAG ++ [CANONICAL_CODEC_VERSION] ++ toBytes publicKey)

end Hashes

section Signatures

variable [Keccak] [Secp256k1]

/-- The sender of a transaction; signatures that could be normalised are refused. -/
def recoverEip1559Sender (value : Eip1559Transaction) : Except CryptoError Address := do
  rejectIf (Secp256k1.highS value.s = true) .invalidSignature
  let prehash ← eip1559SigningHash value
  match Secp256k1.recoverAddress prehash value.r value.s value.yParity with
  | some address => return address
  | none => throw .invalidSignature

/-- The voting power of a validator list, each key checked on the way. -/
def totalPower : List Validator → Nat → Except CryptoError Nat
  | [], total => .ok total
  | validator :: rest, total => do
    rejectIf (Secp256k1.validPublicKey validator.publicKey = false) .invalidPublicKey
    rejectIf (validator.id ≠ validatorId validator.publicKey) .validatorMismatch
    rejectIf (2 ^ 128 ≤ total + validator.power.toNat) .votingPowerOverflow
    totalPower rest (total + validator.power.toNat)

def validateValidatorSet (value : ValidatorSet) : Except CryptoError Unit := do
  let total ← totalPower value.validators 0
  rejectIf (total = 0) .insufficientQuorum

def validatorSetHash (value : ValidatorSet) : Except CryptoError B256 := do
  validateValidatorSet value
  hashEncoded (Canonical.encodeValidatorSet value)

end Signatures

end Crypto

end Arbor
