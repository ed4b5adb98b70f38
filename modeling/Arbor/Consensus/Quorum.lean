import Arbor.Lib.Quorum
import Arbor.Lib.Slice
import Arbor.Crypto

/-!
# Quorum certificates

A certificate carries the signatures of validators on one vote.  It is accepted if its
signers are listed in order, belong to the validator set, all signed, and hold more than
two thirds of the set's voting power.  Two accepted certificates then share signers that
hold more than one third of it.

Curve arithmetic is the class `Ecdsa`; whether a signature is valid is not interpreted.
-/

namespace Arbor

open Result Canonical List

/-- Signature checks of the curve library on 64-byte signatures. -/
class Ecdsa where
  /-- Whether 64 bytes are a signature. -/
  parses : BitVec 512 → Bool
  /-- Whether normalising the scalar `s` changes it. -/
  normalizes : BitVec 512 → Bool
  /-- Whether a key signed a prehash. -/
  verifyPrehash : BitVec 264 → B256 → BitVec 512 → Bool

/-- Vote intent of one validator; the phase is a byte. -/
structure Vote where
  networkId : NetworkId
  height : ConsensusHeight
  round : ConsensusRound
  phase : U8
  blockHash : B256
  validatorId : ValidatorId
  deriving DecidableEq

structure CommitSignature where
  validatorId : ValidatorId
  signature : BitVec 512
  deriving DecidableEq

structure QuorumCertificate where
  networkId : NetworkId
  height : ConsensusHeight
  round : ConsensusRound
  phase : U8
  blockHash : B256
  signatures : List CommitSignature
  deriving DecidableEq

namespace Canonical

def VOTE_TAG : Bytes := ascii "ARBOR_VOTE_V1"
def QC_TAG : Bytes := ascii "ARBOR_QC_V1"

def voteFields (value : Vote) : Bytes :=
  toBytes value.networkId ++ toBytes value.height ++ toBytes value.round ++ toBytes value.phase ++
    toBytes value.blockHash ++ toBytes value.validatorId

def encodeVote (value : Vote) : Except CodecError Bytes := do
  rejectIf (value.phase = 0) (.invalidValue "vote phase")
  encodeTagged VOTE_TAG (voteFields value)

def readVote : Reader CodecError Vote := do
  let networkId ← readWord 256
  let height ← readWord 64
  let round ← readWord 64
  let phase ← readWord 8
  Reader.failIf (phase = 0) (.invalidValue "vote phase")
  let blockHash ← readWord 256
  let validatorId ← readWord 256
  return { networkId, height, round, phase, blockHash, validatorId }

def decodeVote (input : Bytes) : Except CodecError Vote :=
  decodeTagged VOTE_TAG readVote input

def quorumCertificateFields (value : QuorumCertificate) : Bytes :=
  toBytes value.networkId ++ toBytes value.height ++ toBytes value.round ++ toBytes value.phase ++
    toBytes value.blockHash ++ encodeCount value.signatures.length ++
    value.signatures.flatMap fun signature =>
      toBytes signature.validatorId ++ toBytes signature.signature

def encodeQuorumCertificate (value : QuorumCertificate) : Except CodecError Bytes := do
  rejectIf (value.phase = 0) (.invalidValue "certificate phase")
  checkLimit "certificate signatures" value.signatures.length MAX_ACTIVE_VALIDATORS
  rejectIf (value.signatures = []) (.invalidValue "certificate signatures")
  checkStrictlySorted (value.signatures.map (·.validatorId)) "certificate signatures"
  encodeTagged QC_TAG (quorumCertificateFields value)

def readCommitSignature : Reader CodecError CommitSignature := do
  let validatorId ← readWord 256
  let signature ← readWord 512
  return { validatorId, signature }

def readQuorumCertificate : Reader CodecError QuorumCertificate := do
  let networkId ← readWord 256
  let height ← readWord 64
  let round ← readWord 64
  let phase ← readWord 8
  Reader.failIf (phase = 0) (.invalidValue "certificate phase")
  let blockHash ← readWord 256
  let count ← readCount "certificate signatures" MAX_ACTIVE_VALIDATORS
  Reader.failIf (count = 0) (.invalidValue "certificate signatures")
  let signatures ← readCommitSignature.times count
  StateT.lift (checkStrictlySorted (signatures.map (·.validatorId)) "certificate signatures")
  return { networkId, height, round, phase, blockHash, signatures }

def decodeQuorumCertificate (input : Bytes) : Except CodecError QuorumCertificate :=
  decodeTagged QC_TAG readQuorumCertificate input

/-- The encoding of a vote: its size is fixed and within the budget. -/
def voteBytes (value : Vote) : Bytes := VOTE_TAG ++ CANONICAL_CODEC_VERSION :: voteFields value

theorem encodeVote_eq {value : Vote} (hphase : value.phase ≠ 0) :
    encodeVote value = .ok (voteBytes value) := by
  rw [encodeVote, rejectIf_neg hphase, ok_bind]
  refine encodeTagged_eq_ok.mpr ⟨rfl, ?_⟩
  simp [voteBytes, voteFields, VOTE_TAG, ascii, MAX_CANONICAL_OBJECT_BYTES]

theorem encodeQuorumCertificate_ok_iff {value : QuorumCertificate} :
    (∃ bytes, encodeQuorumCertificate value = .ok bytes) ↔ value.phase ≠ 0 ∧
      (1 ≤ value.signatures.length ∧ value.signatures.length ≤ 100) ∧
      (value.signatures.map (·.validatorId)).Pairwise (· < ·) := by
  have hsize : value.signatures.length ≤ 100 →
      (QC_TAG ++ CANONICAL_CODEC_VERSION :: quorumCertificateFields value).length
        ≤ MAX_CANONICAL_OBJECT_BYTES := by
    intro hle
    have hsignatures : (value.signatures.flatMap fun signature =>
        toBytes signature.validatorId ++ toBytes signature.signature).length
          = value.signatures.length * 96 := by
      simp [length_flatMap]
    simp only [quorumCertificateFields, encodeCount, QC_TAG, ascii, MAX_CANONICAL_OBJECT_BYTES,
      length_append, length_cons, hsignatures, length_toBytes]
    simp
    omega
  simp only [encodeQuorumCertificate, check_bind_eq_ok, rejectIf_eq_ok, checkLimit_eq_ok,
    checkStrictlySorted, Bool.not_eq_false, strictlySorted_iff, encodeTagged_eq_ok,
    MAX_ACTIVE_VALIDATORS]
  constructor
  · rintro ⟨bytes, hphase, hle, hne, hsorted, -⟩
    exact ⟨hphase, ⟨length_pos_iff.mpr hne, hle⟩, hsorted⟩
  · rintro ⟨hphase, ⟨hpos, hle⟩, hsorted⟩
    exact ⟨_, hphase, hle, length_pos_iff.mp hpos, hsorted, rfl, hsize hle⟩

end Canonical

def QuorumCertificate.vote (certificate : QuorumCertificate) (validatorId : ValidatorId) : Vote :=
  { networkId := certificate.networkId, height := certificate.height, round := certificate.round,
    phase := certificate.phase, blockHash := certificate.blockHash, validatorId }

/-- Whether a certificate lists a validator among its signers. -/
def QuorumCertificate.signedBy (certificate : QuorumCertificate) (validator : Validator) : Bool :=
  certificate.signatures.any fun commit => commit.validatorId == validator.id

def ValidatorSet.find (set : ValidatorSet) (id : ValidatorId) : Option Validator :=
  (binarySearchByKey (·.id) id set.validators).bind fun index => set.validators[index]?

namespace Crypto

section Certificates

variable [Keccak] [Secp256k1] [Ecdsa]

variable {set : ValidatorSet}

def verifyVoteSignature (publicKey : BitVec 264) (vote : Vote) (signature : BitVec 512) :
    Except CryptoError Unit := do
  rejectIf (vote.validatorId ≠ validatorId publicKey) .validatorMismatch
  rejectIf (Secp256k1.validPublicKey publicKey = false) .invalidPublicKey
  rejectIf (Ecdsa.parses signature = false) .invalidSignature
  rejectIf (Ecdsa.normalizes signature = true) .invalidSignature
  let bytes ← (Canonical.encodeVote vote).mapError .codec
  rejectIf (Ecdsa.verifyPrehash publicKey (keccak256 bytes) signature = false) .invalidSignature

/-- The power of a validator list, kept within 128 bits. -/
def sumPower : List Validator → Nat → Except CryptoError Nat
  | [], total => .ok total
  | validator :: rest, total => do
    rejectIf (2 ^ 128 ≤ total + validator.power.toNat) .votingPowerOverflow
    sumPower rest (total + validator.power.toNat)

/-- The power of a certificate's signers, each signature checked on the way. -/
def signedPower (certificate : QuorumCertificate) (set : ValidatorSet) :
    List CommitSignature → Nat → Except CryptoError Nat
  | [], power => .ok power
  | commit :: rest, power =>
    match set.find commit.validatorId with
    | none => throw .unknownValidator
    | some validator => do
      verifyVoteSignature validator.publicKey (certificate.vote commit.validatorId)
        commit.signature
      rejectIf (2 ^ 128 ≤ power + validator.power.toNat) .votingPowerOverflow
      signedPower certificate set rest (power + validator.power.toNat)

def verifyQuorumCertificate (certificate : QuorumCertificate) (set : ValidatorSet) :
    Except CryptoError Unit := do
  validateValidatorSet set
  let _ ← (Canonical.encodeQuorumCertificate certificate).mapError .codec
  let total ← sumPower set.validators 0
  let signed ← signedPower certificate set certificate.signatures 0
  rejectIf (signed * 3 ≤ total * 2) .insufficientQuorum

/-- A key signed a vote: the signature is well formed, normal and verifies on the vote's bytes. -/
def Signed (publicKey : BitVec 264) (vote : Vote) (signature : BitVec 512) : Prop :=
  Ecdsa.parses signature = true ∧ Ecdsa.normalizes signature = false ∧
    Ecdsa.verifyPrehash publicKey (keccak256 (Canonical.voteBytes vote)) signature = true

theorem verifyVoteSignature_eq_ok_iff {publicKey : BitVec 264} {vote : Vote}
    {signature : BitVec 512} (hphase : vote.phase ≠ 0)
    (hid : vote.validatorId = validatorId publicKey)
    (hkey : Secp256k1.validPublicKey publicKey = true) :
    verifyVoteSignature publicKey vote signature = .ok () ↔ Signed publicKey vote signature := by
  simp only [verifyVoteSignature, encodeVote_eq hphase, mapError_ok, ok_bind,
    check_bind_eq_ok, rejectIf_eq_ok, hid, hkey, Signed, ne_eq, not_true_eq_false,
    not_false_eq_true, true_and, Bool.not_eq_false, Bool.not_eq_true, Bool.true_eq_false]

/-- A validator set as the codec accepts it, with identifiers derived from valid keys. -/
structure SoundSet (set : ValidatorSet) : Prop where
  sorted : set.validators.Pairwise fun a b => a.id < b.id
  few : set.validators.length ≤ 100
  power : ∃ validator ∈ set.validators, validator.power ≠ 0
  keys : ∀ validator ∈ set.validators, Secp256k1.validPublicKey validator.publicKey = true ∧
    validator.id = validatorId validator.publicKey

omit [Ecdsa] in
theorem soundSet_of_encode {bytes : Bytes} (hencode : encodeValidatorSet set = .ok bytes)
    (hkeys : ∀ validator ∈ set.validators, Secp256k1.validPublicKey validator.publicKey = true ∧
      validator.id = validatorId validator.publicKey) : SoundSet set := by
  simp only [encodeValidatorSet, check_bind_eq_ok, rejectIf_eq_ok,
    checkLimit_eq_ok, checkStrictlySorted, Bool.not_eq_false,
    strictlySorted_iff, pairwise_map, checkAll_eq_ok] at hencode
  obtain ⟨hfew, hne, hsorted, hpower, -⟩ := hencode
  obtain ⟨validator, rest, hset⟩ := exists_cons_of_ne_nil hne
  have hmem : validator ∈ set.validators := by simp [hset]
  exact ⟨hsorted, hfew, ⟨validator, hmem, hpower validator hmem⟩, hkeys⟩

def votes (validator : Validator) : Nat := validator.power.toNat

variable {validators : List Validator}

omit [Keccak] [Secp256k1] [Ecdsa] in
theorem sumPower_eq {start : Nat} (hroom : start + validators.length * 2 ^ 64 ≤ 2 ^ 128) :
    sumPower validators start = .ok (start + Quorum.total votes validators) := by
  induction validators generalizing start with
  | nil => rfl
  | cons validator rest ih =>
    have hpower : votes validator < 2 ^ 64 := validator.power.isLt
    rw [length_cons] at hroom
    have hfits : ¬2 ^ 128 ≤ start + validator.power.toNat := by
      omega
    rw [sumPower, rejectIf_neg hfits, ih (by change start + votes validator + _ ≤ _; omega)]
    simp [Quorum.total, votes, Nat.add_assoc]

omit [Ecdsa] in
/-- With valid keys the checking sum is the plain one. -/
theorem totalPower_eq_sumPower {start : Nat}
    (hkeys : ∀ validator ∈ validators, Secp256k1.validPublicKey validator.publicKey = true ∧
      validator.id = validatorId validator.publicKey) :
    totalPower validators start = sumPower validators start := by
  induction validators generalizing start with
  | nil => rfl
  | cons validator rest ih =>
    obtain ⟨hkey, hid⟩ := hkeys validator mem_cons_self
    have hvalid : ¬Secp256k1.validPublicKey validator.publicKey = false := by simp [hkey]
    rw [totalPower, rejectIf_neg hvalid, ok_bind, rejectIf_neg (not_not.mpr hid), ok_bind]
    congr 1
    funext _
    exact ih fun other hother => hkeys other (mem_cons_of_mem _ hother)

section

variable (hset : SoundSet set)
include hset

omit [Ecdsa] in
theorem SoundSet.sumPower :
    sumPower set.validators 0 = .ok (Quorum.total votes set.validators) := by
  have hfew := hset.few
  rw [sumPower_eq (by omega), Nat.zero_add]

omit [Ecdsa] in
theorem SoundSet.validate : validateValidatorSet set = .ok () := by
  have htotal : Quorum.total votes set.validators ≠ 0 := by
    obtain ⟨validator, hmem, hpower⟩ := hset.power
    intro hzero
    have hnone := sum_eq_zero_iff.mp hzero (votes validator) (mem_map_of_mem hmem)
    exact hpower (BitVec.eq_of_toNat_eq hnone)
  rw [validateValidatorSet, totalPower_eq_sumPower hset.keys, hset.sumPower, ok_bind,
    rejectIf_neg htotal]

omit [Ecdsa] in
theorem SoundSet.find_eq_some {id : ValidatorId} {validator : Validator} :
    set.find id = some validator ↔ validator ∈ set.validators ∧ validator.id = id := by
  rw [ValidatorSet.find, Option.bind_eq_some_iff]
  exact binarySearchByKey_eq_some (fun b => BitVec.lt_irrefl b) hset.sorted

/-- `validator` is the member of the set that made the signature, and the signature is valid. -/
def Signs (certificate : QuorumCertificate) (set : ValidatorSet) (commit : CommitSignature)
    (validator : Validator) : Prop :=
  (validator ∈ set.validators ∧ validator.id = commit.validatorId) ∧
    Signed validator.publicKey (certificate.vote commit.validatorId) commit.signature

variable {certificate : QuorumCertificate}

theorem signedPower_cons (hphase : certificate.phase ≠ 0)
    {commit : CommitSignature} {rest : List CommitSignature} {power result : Nat}
    (hroom : power + 2 ^ 64 ≤ 2 ^ 128) :
    signedPower certificate set (commit :: rest) power = .ok result ↔
      ∃ validator, Signs certificate set commit validator ∧
        signedPower certificate set rest (power + votes validator) = .ok result := by
  have hverify : ∀ validator ∈ set.validators, validator.id = commit.validatorId →
      (verifyVoteSignature validator.publicKey (certificate.vote commit.validatorId)
        commit.signature = .ok () ↔
        Signed validator.publicKey (certificate.vote commit.validatorId) commit.signature) := by
    intro validator hmem hid
    obtain ⟨hkey, hderived⟩ := hset.keys validator hmem
    exact verifyVoteSignature_eq_ok_iff hphase (hid.symm.trans hderived) hkey
  rw [signedPower]
  cases hfind : set.find commit.validatorId with
  | none =>
    constructor
    · intro h
      cases h
    · rintro ⟨validator, ⟨hmember, -⟩, -⟩
      rw [hset.find_eq_some.mpr hmember] at hfind
      cases hfind
  | some validator =>
    obtain ⟨hmem, hid⟩ := hset.find_eq_some.mp hfind
    have hfits : ¬2 ^ 128 ≤ power + validator.power.toNat := by
      omega
    simp only [check_bind_eq_ok, rejectIf_eq_ok, hverify validator hmem hid]
    constructor
    · rintro ⟨hsigned, -, h⟩
      exact ⟨validator, ⟨⟨hmem, hid⟩, hsigned⟩, h⟩
    · rintro ⟨other, ⟨hmember, hsigned⟩, h⟩
      -- Only one member has the identifier.
      have hsame : other = validator := by
        have := hset.find_eq_some.mpr hmember
        rw [hfind] at this
        exact (Option.some.inj this).symm
      rw [hsame] at hsigned h
      exact ⟨hsigned, hfits, h⟩

/-- The members a list of signatures names. -/
def signersOf (set : ValidatorSet) (commits : List CommitSignature) : List Validator :=
  commits.filterMap fun commit => set.find commit.validatorId

theorem signedPower_eq_ok_iff (hphase : certificate.phase ≠ 0)
    {commits : List CommitSignature} {power result : Nat}
    (hroom : power + commits.length * 2 ^ 64 ≤ 2 ^ 128) :
    signedPower certificate set commits power = .ok result ↔
      (∀ commit ∈ commits, ∃ validator, Signs certificate set commit validator) ∧
        result = power + ((signersOf set commits).map votes).sum := by
  induction commits generalizing power with
  | nil => simp [signedPower, signersOf, eq_comm]
  | cons commit rest ih =>
    rw [length_cons] at hroom
    rw [signedPower_cons hset hphase (by omega), forall_mem_cons]
    -- The power added is that of the signer the search finds.
    have hadd : ∀ validator, Signs certificate set commit validator →
        ((signersOf set (commit :: rest)).map votes).sum
          = votes validator + ((signersOf set rest).map votes).sum := by
      intro validator hsigns
      simp [signersOf, hset.find_eq_some.mpr hsigns.1]
    have hrest : ∀ validator : Validator,
        power + votes validator + rest.length * 2 ^ 64 ≤ 2 ^ 128 := by
      intro validator
      have hpower : votes validator < 2 ^ 64 := validator.power.isLt
      omega
    constructor
    · rintro ⟨validator, hsigns, h⟩
      obtain ⟨hall, rfl⟩ := (ih (hrest validator)).mp h
      exact ⟨⟨⟨validator, hsigns⟩, hall⟩, by rw [hadd validator hsigns, Nat.add_assoc]⟩
    · rintro ⟨⟨⟨validator, hsigns⟩, hall⟩, rfl⟩
      refine ⟨validator, hsigns, (ih (hrest validator)).mpr ⟨hall, ?_⟩⟩
      rw [hadd validator hsigns, Nat.add_assoc]

def signersPower (certificate : QuorumCertificate) (set : ValidatorSet) : Nat :=
  Quorum.weightOf votes certificate.signedBy set.validators

omit [Ecdsa] in
theorem sum_signersOf (hsorted : (certificate.signatures.map (·.validatorId)).Pairwise (· < ·)) :
    ((signersOf set certificate.signatures).map votes).sum = signersPower certificate set := by
  have hne : ∀ {a b : B256}, a < b → a ≠ b := fun hlt heq => BitVec.lt_irrefl _ (heq ▸ hlt)
  refine Quorum.sum_eq_weightOf votes ?_ ?_ ?_
  · exact hset.sorted.imp fun hlt heq => hne hlt (congrArg Validator.id heq)
  · refine (pairwise_map.mp hsorted).filterMap _ fun a b hlt validator ha other hb heq => ?_
    have hida := (hset.find_eq_some.mp ha).2
    have hidb := (hset.find_eq_some.mp hb).2
    rw [heq, hidb] at hida
    exact hne hlt hida.symm
  · intro validator
    simp only [signersOf, mem_filterMap, hset.find_eq_some, QuorumCertificate.signedBy,
      any_eq_true, beq_iff_eq]
    constructor
    · rintro ⟨commit, hcommit, hmem, hid⟩
      exact ⟨hmem, commit, hcommit, hid.symm⟩
    · rintro ⟨hmem, commit, hcommit, hid⟩
      exact ⟨commit, hcommit, hmem, hid.symm⟩

/-- What a certificate is checked for. -/
theorem verifyQuorumCertificate_eq_ok_iff :
    verifyQuorumCertificate certificate set = .ok () ↔ certificate.phase ≠ 0 ∧
      (1 ≤ certificate.signatures.length ∧ certificate.signatures.length ≤ 100) ∧
      (certificate.signatures.map (·.validatorId)).Pairwise (· < ·) ∧
      (∀ commit ∈ certificate.signatures, ∃ validator, Signs certificate set commit validator) ∧
      2 * Quorum.total votes set.validators < 3 * signersPower certificate set := by
  simp only [verifyQuorumCertificate, hset.validate, hset.sumPower, ok_bind, bind_eq_ok,
    rejectIf_eq_ok, mapError_eq_ok]
  constructor
  · rintro ⟨bytes, hencode, signed, hsigned, hquorum⟩
    obtain ⟨hphase, hcount, hsorted⟩ := encodeQuorumCertificate_ok_iff.mp ⟨_, hencode⟩
    obtain ⟨hall, rfl⟩ := (signedPower_eq_ok_iff hset hphase (by omega)).mp hsigned
    rw [sum_signersOf hset hsorted] at hquorum
    exact ⟨hphase, hcount, hsorted, hall, by omega⟩
  · rintro ⟨hphase, hcount, hsorted, hall, hquorum⟩
    obtain ⟨bytes, hencode⟩ :=
      encodeQuorumCertificate_ok_iff.mpr ⟨hphase, hcount, hsorted⟩
    refine ⟨bytes, hencode, _, (signedPower_eq_ok_iff hset hphase (by omega)).mpr ⟨hall, rfl⟩, ?_⟩
    rw [sum_signersOf hset hsorted]
    omega

end

/-- **Quorum certificates.**  Under a set the codec accepts, with identifiers derived from
valid keys, a certificate is accepted exactly if its phase is set, its one to a hundred
signers are in strict order and members that signed the vote, and they hold more than two
thirds of the power.  Validators that signed two accepted certificates of one network,
height, round and phase hold more than a third. -/
theorem quorum_certificates (set : ValidatorSet) (bytes : Bytes)
    (hencode : Canonical.encodeValidatorSet set = .ok bytes)
    (hkeys : ∀ validator ∈ set.validators, Secp256k1.validPublicKey validator.publicKey = true ∧
      validator.id = validatorId validator.publicKey) :
    (∀ certificate : QuorumCertificate, verifyQuorumCertificate certificate set = .ok () ↔
      certificate.phase ≠ 0 ∧
      (1 ≤ certificate.signatures.length ∧ certificate.signatures.length ≤ 100) ∧
      (certificate.signatures.map (·.validatorId)).Pairwise (· < ·) ∧
      (∀ commit ∈ certificate.signatures, ∃ validator ∈ set.validators,
        validator.id = commit.validatorId ∧
        Signed validator.publicKey (certificate.vote commit.validatorId) commit.signature) ∧
      2 * Quorum.total votes set.validators < 3 * signersPower certificate set) ∧
    ∀ first second : QuorumCertificate, first.networkId = second.networkId →
      first.height = second.height → first.round = second.round → first.phase = second.phase →
      first.blockHash ≠ second.blockHash →
      verifyQuorumCertificate first set = .ok () → verifyQuorumCertificate second set = .ok () →
      Quorum.total votes set.validators < 3 * Quorum.weightOf votes
        (fun validator => first.signedBy validator && second.signedBy validator)
        set.validators := by
  have hset := soundSet_of_encode hencode hkeys
  constructor
  · intro certificate
    rw [verifyQuorumCertificate_eq_ok_iff hset]
    simp only [Signs, and_assoc]
  · intro first second _ _ _ _ _ hfirst hsecond
    obtain ⟨-, -, -, -, hquorum⟩ := (verifyQuorumCertificate_eq_ok_iff hset).mp hfirst
    obtain ⟨-, -, -, -, hquorum'⟩ := (verifyQuorumCertificate_eq_ok_iff hset).mp hsecond
    exact Quorum.total_lt_weightOf_inter votes hquorum hquorum'

end Certificates

section Sample

@[reducible] def tailKeccak : Keccak := ⟨fun input => BitVec.ofNat 256 (BigEndian.beNat input)⟩
@[reducible] def anyKey : Secp256k1 := ⟨fun _ => false, fun _ _ _ _ => none, fun _ => true⟩
@[reducible] def anySignature : Ecdsa := ⟨fun _ => true, fun _ => false, fun _ _ _ => true⟩

attribute [local instance] tailKeccak anyKey anySignature

def sampleSet : ValidatorSet where
  epoch := 0
  validators := [1, 2, 3, 4].map fun key => ⟨validatorId key, key, 1⟩

def sampleCertificate (blockHash : B256) (signers : List (BitVec 264)) : QuorumCertificate :=
  ⟨5, 7, 0, 1, blockHash, signers.map fun key => ⟨validatorId key, 0⟩⟩

/-- Two certificates for different blocks, three of four signers each. -/
theorem quorum_certificates_of_four :
    (verifyQuorumCertificate (sampleCertificate 8 [1, 2, 3]) sampleSet = .ok () ∧
      verifyQuorumCertificate (sampleCertificate 9 [2, 3, 4]) sampleSet = .ok ()) ∧
    Quorum.total votes sampleSet.validators < 3 * Quorum.weightOf votes
      (fun validator => (sampleCertificate 8 [1, 2, 3]).signedBy validator &&
        (sampleCertificate 9 [2, 3, 4]).signedBy validator) sampleSet.validators := by
  have hfirst : verifyQuorumCertificate (sampleCertificate 8 [1, 2, 3]) sampleSet = .ok () := by
    decide +kernel
  have hsecond : verifyQuorumCertificate (sampleCertificate 9 [2, 3, 4]) sampleSet = .ok () := by
    decide +kernel
  have hencode : encodeValidatorSet sampleSet
      = .ok (VALIDATOR_SET_TAG ++ CANONICAL_CODEC_VERSION ::
          validatorSetFields sampleSet) := by decide +kernel
  have h := quorum_certificates sampleSet _ hencode (by decide +kernel)
  exact ⟨⟨hfirst, hsecond⟩, h.2 _ _ rfl rfl rfl rfl (by decide) hfirst hsecond⟩

end Sample

end Crypto

end Arbor
