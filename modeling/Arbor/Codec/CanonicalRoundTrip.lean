import Arbor.Consensus.Quorum

/-!
# One encoding for every object

The decoder of each Arbor-native type accepts exactly the encodings of that type: it reads
back what was encoded (`Reads`) and accepts nothing else (`Consumes`).  Both are shown
field by field, and `exact_tagged` puts the tag, the version and the size budget around
the fields.  No tag is a prefix of another, so a byte string is an encoding of one type at
most.
-/

namespace Arbor

open Result Reader List

namespace Canonical

/-! ## Fields -/

section Fields

variable {α : Type} {Q : Bytes → α → Prop}

theorem consumes_readWord {w : Nat} (hw : 8 ∣ w) {f : BitVec w → Reader CodecError α}
    (h : ∀ x, Consumes (f x) fun bytes a => Q (toBytes x ++ bytes) a) :
    Consumes (readWord w >>= f) Q := by
  refine ((consumes_word hw _).mono ?_).bind
  rintro _ x rfl
  exact h x

variable (field : String) (limit : Nat)

theorem consumes_readCount :
    Consumes (readCount field limit) fun bytes count => bytes = encodeCount count ∧
    count ≤ limit := by
  refine consumes_readWord (by decide) fun count => Consumes.bind (consumes_lift fun _ hcheck => ?_)
  refine consumes_pure ⟨?_, checkLimit_eq_ok.mp hcheck⟩
  rw [encodeCount, BitVec.ofNat_toNat, BitVec.setWidth_eq, append_nil, append_nil]

theorem consumes_readBytes : Consumes (readBytes field limit) fun bytes value =>
      bytes = encodeBytes value ∧ value.length ≤ limit := by
  refine ((consumes_readCount field limit).mono ?_).bind
  rintro _ length ⟨rfl, hlimit⟩
  refine (consumes_take _ length).mono ?_
  rintro _ value ⟨rfl, rfl⟩
  exact ⟨rfl, hlimit⟩

theorem consumes_readString : Consumes (readString field limit) fun bytes text =>
      bytes = encodeBytes (utf8Bytes text) ∧ (utf8Bytes text).length ≤ limit := by
  refine ((consumes_readBytes field limit).mono ?_).bind
  rintro _ value ⟨rfl, hlimit⟩
  split
  · rename_i text htext
    obtain rfl := utf8Bytes_of_fromUtf8 htext
    exact consumes_pure ⟨append_nil _, hlimit⟩
  · exact consumes_throw

theorem consumes_readStatus :
    Consumes readStatus fun bytes status => bytes = toBytes (DomainStatus.toByte status) := by
  refine consumes_readWord (by decide) fun status => ?_
  split
  · exact consumes_pure rfl
  · exact consumes_pure rfl
  · exact consumes_pure rfl
  · exact consumes_throw

end Fields

/-! ## Tagged objects -/

theorem encodeTagged_of_decodeTagged {α : Type} {tag input : Bytes} {body : Reader CodecError α}
    {Q : Bytes → α → Prop} {value : α} (hbody : Consumes body Q)
    (h : decodeTagged tag body input = .ok value) :
    ∃ fields, Q fields value ∧ encodeTagged tag fields = .ok input := by
  obtain ⟨hsize, h⟩ := check_bind_eq_ok.mp h
  obtain ⟨⟨found, afterTag⟩, htag, h⟩ := bind_eq_ok.mp h
  obtain ⟨hfound, h⟩ := check_bind_eq_ok.mp h
  obtain ⟨⟨version, afterVersion⟩, hversion, h⟩ := bind_eq_ok.mp h
  obtain ⟨hone, h⟩ := check_bind_eq_ok.mp h
  obtain ⟨⟨decoded, rest⟩, hfields, h⟩ := bind_eq_ok.mp h
  obtain ⟨hrest, h⟩ := check_bind_eq_ok.mp h
  cases h
  obtain rfl : found = tag := not_not.mp (rejectIf_eq_ok.mp hfound)
  obtain rfl : version = CANONICAL_CODEC_VERSION := not_not.mp (rejectIf_eq_ok.mp hone)
  obtain rfl : rest = [] := not_not.mp (rejectIf_eq_ok.mp hrest)
  obtain ⟨_, rfl, rfl, _⟩ := consumes_take _ _ htag
  obtain ⟨_, rfl, rfl⟩ := consumes_word (by decide) _ hversion
  obtain ⟨fields, rfl, hQ⟩ := hbody hfields
  refine ⟨fields, hQ, encodeTagged_eq_ok.mpr ⟨?_, checkLimit_eq_ok.mp hsize⟩⟩
  rw [append_nil]
  rfl

/-- Decoding accepts exactly the encodings, and returns what was encoded. -/
def Exact {α : Type} (encode : α → Except CodecError Bytes) (decode : Bytes → Except CodecError α) :
    Prop :=
  ∀ value bytes, encode value = .ok bytes ↔ decode bytes = .ok value

/-- **Exact tagged codecs.**  If a body reads back the fields of every value that may be
encoded and accepts no others, its codec is exact. -/
theorem exact_tagged {α : Type} {tag : Bytes} {fields : α → Bytes} (valid : α → Prop)
    {body : Reader CodecError α} {encode : α → Except CodecError Bytes} (hencode : ∀ value bytes,
      encode value = .ok bytes ↔ valid value ∧ encodeTagged tag (fields value) = .ok bytes)
    (hreads : ∀ value, valid value → Reads body (fields value) value)
    (hconsumes : Consumes body fun bytes value => bytes = fields value ∧ valid value) :
    Exact encode (decodeTagged tag body) := by
  intro value bytes
  rw [hencode]
  constructor
  · rintro ⟨hvalid, htagged⟩
    exact decodeTagged_encodeTagged (hreads value hvalid) htagged
  · intro h
    obtain ⟨_, ⟨rfl, hvalid⟩, htagged⟩ := encodeTagged_of_decodeTagged hconsumes h
    exact ⟨hvalid, htagged⟩

/-! ## Headers -/

theorem exact_consensusHeader : Exact encodeConsensusHeader decodeConsensusHeader := by
  refine exact_tagged (fun _ => True) (fun _ _ => (true_and _).symm.to_iff) (fun value _ =>
    reads_readConsensusHeader value) ?_
  iterate 11 refine consumes_readWord (by decide) fun _ => ?_
  refine consumes_pure ⟨?_, trivial⟩
  simp only [consensusHeaderFields, append_assoc, append_nil]

theorem exact_domainHeader : Exact encodeDomainHeader decodeDomainHeader := by
  refine exact_tagged (fun _ => True) (fun _ _ => (true_and _).symm.to_iff) (fun value _ =>
    reads_readDomainHeader value) ?_
  iterate 12 refine consumes_readWord (by decide) fun _ => ?_
  refine consumes_pure ⟨?_, trivial⟩
  simp only [domainHeaderFields, append_assoc, append_nil]

/-! ## Batches -/

theorem exact_domainBatch : Exact encodeDomainBatch decodeDomainBatch := by
  refine exact_tagged
    (fun value => value.transactions.length ≤ MAX_TRANSACTIONS_PER_BATCH ∧
      ∀ transaction ∈ value.transactions, transaction.length ≤ MAX_TRANSACTION_ENVELOPE_BYTES)
    (fun _ _ => by rw [encodeDomainBatch_eq_ok, and_assoc])
    (fun _ hvalid => reads_readDomainBatch hvalid.1 hvalid.2) ?_
  iterate 2 refine consumes_readWord (by decide) fun _ => ?_
  refine ((consumes_readCount _ _).mono ?_).bind
  rintro _ count ⟨rfl, hcount⟩
  refine (((consumes_readBytes _ _).times count).mono ?_).bind
  rintro _ transactions ⟨rfl, rfl, hsized⟩
  refine consumes_pure ⟨?_, hcount, hsized⟩
  simp only [domainBatchFields, append_assoc, append_nil]

/-! ## Descriptors and genesis preimages -/

theorem exact_domainDescriptor : Exact encodeDomainDescriptor decodeDomainDescriptor := by
  refine exact_tagged (fun value => checkMetadata value.name value.symbol value.evmChainId = .ok ())
    (fun _ _ => check_bind_eq_ok) (fun _ => reads_readDomainDescriptor) ?_
  iterate 5 refine consumes_readWord (by decide) fun _ => ?_
  refine ((consumes_readString _ _).mono ?_).bind
  rintro _ name ⟨rfl, hname⟩
  refine ((consumes_readString _ _).mono ?_).bind
  rintro _ symbol ⟨rfl, hsymbol⟩
  refine consumes_readWord (by decide) fun evmChainId =>
    Consumes.bind (consumes_failIf fun hchain => ?_)
  iterate 6 refine consumes_readWord (by decide) fun _ => ?_
  refine (consumes_readStatus.mono ?_).bind
  rintro _ status rfl
  refine consumes_pure ⟨?_, checkMetadata_eq_ok.mpr ⟨hname, hsymbol, hchain⟩⟩
  simp only [domainDescriptorFields, append_assoc, append_nil, nil_append]

theorem reads_readDomainGenesis {value : DomainGenesis}
    (hmeta : checkMetadata value.name value.symbol value.evmChainId = .ok ()) :
    Reads readDomainGenesis (domainGenesisFields value) value := by
  obtain ⟨hname, hsymbol, hchain⟩ := checkMetadata_eq_ok.mp hmeta
  simp only [domainGenesisFields, append_assoc]
  iterate 4 refine (reads_readWord (by decide) _).bind ?_
  refine (reads_readString _ hname (by decide)).bind ?_
  refine (reads_readString _ hsymbol (by decide)).bind ?_
  refine (reads_readWord (by decide) _).bind ((reads_failIf hchain).after ?_)
  iterate 5 refine (reads_readWord (by decide) _).bind ?_
  exact (reads_readWord (by decide) _).finally (reads_pure _)

theorem exact_domainGenesis : Exact encodeDomainGenesis decodeDomainGenesis := by
  refine exact_tagged (fun value => checkMetadata value.name value.symbol value.evmChainId = .ok ())
    (fun _ _ => check_bind_eq_ok) (fun _ => reads_readDomainGenesis) ?_
  iterate 4 refine consumes_readWord (by decide) fun _ => ?_
  refine ((consumes_readString _ _).mono ?_).bind
  rintro _ name ⟨rfl, hname⟩
  refine ((consumes_readString _ _).mono ?_).bind
  rintro _ symbol ⟨rfl, hsymbol⟩
  refine consumes_readWord (by decide) fun evmChainId =>
    Consumes.bind (consumes_failIf fun hchain => ?_)
  iterate 6 refine consumes_readWord (by decide) fun _ => ?_
  refine consumes_pure ⟨?_, checkMetadata_eq_ok.mpr ⟨hname, hsymbol, hchain⟩⟩
  simp only [domainGenesisFields, append_assoc, append_nil, nil_append]

/-! ## Validator sets -/

def validatorFields (value : Validator) : Bytes :=
  toBytes value.id ++ toBytes value.publicKey ++ toBytes value.power

theorem checkStrictlySorted_eq_ok {values : List B256} {field : String} :
    checkStrictlySorted values field = .ok () ↔ strictlySorted values = true := by
  rw [checkStrictlySorted, rejectIf_eq_ok, Bool.not_eq_false]

/-- What a validator set has to meet to be encoded. -/
structure ValidatorSet.Listed (value : ValidatorSet) : Prop where
  few : value.validators.length ≤ MAX_ACTIVE_VALIDATORS
  some : value.validators ≠ []
  sorted : strictlySorted (value.validators.map (·.id)) = true
  powered : ∀ validator ∈ value.validators, validator.power ≠ 0

theorem encodeValidatorSet_eq_ok {value : ValidatorSet} {bytes : Bytes} :
    encodeValidatorSet value = .ok bytes ↔ ValidatorSet.Listed value ∧
      encodeTagged VALIDATOR_SET_TAG (validatorSetFields value) = .ok bytes := by
  simp only [encodeValidatorSet, check_bind_eq_ok, checkLimit_eq_ok, rejectIf_eq_ok,
    checkStrictlySorted_eq_ok, checkAll_eq_ok]
  constructor
  · rintro ⟨hfew, hsome, hsorted, hpowered, h⟩
    exact ⟨⟨hfew, hsome, hsorted, hpowered⟩, h⟩
  · rintro ⟨hlisted, h⟩
    exact ⟨hlisted.few, hlisted.some, hlisted.sorted, hlisted.powered, h⟩

theorem reads_readValidator {value : Validator} (hpower : value.power ≠ 0) :
    Reads readValidator (validatorFields value) value := by
  iterate 2 refine (reads_readWord (by decide) _).bind ?_
  exact (reads_readWord (by decide) _).finally ((reads_failIf hpower).after (reads_pure _))

theorem consumes_readValidator :
    Consumes readValidator fun bytes value => bytes = validatorFields value ∧ value.power ≠ 0 := by
  iterate 3 refine consumes_readWord (by decide) fun _ => ?_
  refine Consumes.bind (consumes_failIf fun hpower => consumes_pure ⟨?_, hpower⟩)
  simp only [validatorFields, append_assoc, append_nil]

theorem reads_readValidatorSet {value : ValidatorSet} (hlisted : ValidatorSet.Listed value) :
    Reads readValidatorSet (validatorSetFields value) value := by
  refine (reads_readWord (by decide) _).bind ?_
  refine (reads_readCount _ hlisted.few (by decide)).bind ?_
  refine (reads_failIf (by simpa using hlisted.some)).after ?_
  refine Reads.finally (@Reads.times _ _ _ validatorFields _ fun validator hmem =>
    reads_readValidator (hlisted.powered validator hmem)) ?_
  exact (reads_lift (checkStrictlySorted_eq_ok.mpr hlisted.sorted)).after (reads_pure _)

theorem exact_validatorSet : Exact encodeValidatorSet decodeValidatorSet := by
  refine exact_tagged ValidatorSet.Listed (fun _ _ => encodeValidatorSet_eq_ok)
    (fun _ => reads_readValidatorSet) ?_
  refine consumes_readWord (by decide) fun epoch => ?_
  refine ((consumes_readCount _ _).mono ?_).bind
  rintro _ count ⟨rfl, hcount⟩
  refine Consumes.bind (consumes_failIf fun hsome => ?_)
  refine ((consumes_readValidator.times count).mono ?_).bind
  rintro _ validators ⟨rfl, rfl, hpowered⟩
  refine Consumes.bind (consumes_lift fun _ hsorted => ?_)
  refine consumes_pure ⟨?_, hcount, ?_, checkStrictlySorted_eq_ok.mp hsorted, hpowered⟩
  · simp only [validatorSetFields, append_assoc, append_nil, nil_append]
    rfl
  · simpa using hsome

/-! ## Votes and certificates -/

theorem exact_vote : Exact encodeVote decodeVote := by
  refine exact_tagged (fun value => value.phase ≠ 0)
    (fun _ _ => check_bind_eq_ok.trans (and_congr_left' rejectIf_eq_ok)) ?_ ?_
  · intro value hphase
    iterate 3 refine (reads_readWord (by decide) _).bind ?_
    refine (reads_readWord (by decide) _).bind ((reads_failIf hphase).after ?_)
    refine (reads_readWord (by decide) _).bind ?_
    exact (reads_readWord (by decide) _).finally (reads_pure _)
  · iterate 4 refine consumes_readWord (by decide) fun _ => ?_
    refine Consumes.bind (consumes_failIf fun hphase => ?_)
    iterate 2 refine consumes_readWord (by decide) fun _ => ?_
    refine consumes_pure ⟨?_, hphase⟩
    simp only [voteFields, append_assoc, append_nil, nil_append]

def commitSignatureFields (value : CommitSignature) : Bytes :=
  toBytes value.validatorId ++ toBytes value.signature

/-- What a certificate has to meet to be encoded. -/
structure QuorumCertificate.Listed (value : QuorumCertificate) : Prop where
  phased : value.phase ≠ 0
  few : value.signatures.length ≤ MAX_ACTIVE_VALIDATORS
  some : value.signatures ≠ []
  sorted : strictlySorted (value.signatures.map (·.validatorId)) = true

variable {value : QuorumCertificate}

theorem encodeQuorumCertificate_eq_ok {bytes : Bytes} :
    encodeQuorumCertificate value = .ok bytes ↔ QuorumCertificate.Listed value ∧
      encodeTagged QC_TAG (quorumCertificateFields value) = .ok bytes := by
  simp only [encodeQuorumCertificate, check_bind_eq_ok, checkLimit_eq_ok, rejectIf_eq_ok,
    checkStrictlySorted_eq_ok]
  constructor
  · rintro ⟨hphased, hfew, hsome, hsorted, h⟩
    exact ⟨⟨hphased, hfew, hsome, hsorted⟩, h⟩
  · rintro ⟨hlisted, h⟩
    exact ⟨hlisted.phased, hlisted.few, hlisted.some, hlisted.sorted, h⟩

theorem reads_readCommitSignature (value : CommitSignature) :
    Reads readCommitSignature (commitSignatureFields value) value :=
  (reads_readWord (by decide) _).bind ((reads_readWord (by decide) _).finally (reads_pure _))

theorem consumes_readCommitSignature :
    Consumes readCommitSignature fun bytes value => bytes = commitSignatureFields value ∧ True := by
  iterate 2 refine consumes_readWord (by decide) fun _ => ?_
  refine consumes_pure ⟨?_, trivial⟩
  rw [commitSignatureFields, append_nil]

theorem reads_readQuorumCertificate (hlisted : QuorumCertificate.Listed value) :
    Reads readQuorumCertificate (quorumCertificateFields value) value := by
  iterate 3 refine (reads_readWord (by decide) _).bind ?_
  refine (reads_readWord (by decide) _).bind ((reads_failIf hlisted.phased).after ?_)
  refine (reads_readWord (by decide) _).bind ?_
  refine (reads_readCount _ hlisted.few (by decide)).bind ?_
  refine (reads_failIf (by simpa using hlisted.some)).after ?_
  refine Reads.finally (@Reads.times _ _ _ commitSignatureFields _ fun signature _ =>
    reads_readCommitSignature signature) ?_
  exact (reads_lift (checkStrictlySorted_eq_ok.mpr hlisted.sorted)).after (reads_pure _)

theorem exact_quorumCertificate : Exact encodeQuorumCertificate decodeQuorumCertificate := by
  refine exact_tagged QuorumCertificate.Listed (fun _ _ => encodeQuorumCertificate_eq_ok)
    (fun _ => reads_readQuorumCertificate) ?_
  iterate 4 refine consumes_readWord (by decide) fun _ => ?_
  refine Consumes.bind (consumes_failIf fun hphased => ?_)
  refine consumes_readWord (by decide) fun blockHash => ?_
  refine ((consumes_readCount _ _).mono ?_).bind
  rintro _ count ⟨rfl, hcount⟩
  refine Consumes.bind (consumes_failIf fun hsome => ?_)
  refine ((consumes_readCommitSignature.times count).mono ?_).bind
  rintro _ signatures ⟨rfl, rfl, _⟩
  refine Consumes.bind (consumes_lift fun _ hsorted => ?_)
  refine consumes_pure ⟨?_, hphased, hcount, ?_, checkStrictlySorted_eq_ok.mp hsorted⟩
  · simp only [quorumCertificateFields, append_assoc, append_nil, nil_append]
    rfl
  · simpa using hsome

/-! ## All types -/

inductive Kind where
  | consensusHeader
  | domainHeader
  | domainBatch
  | domainDescriptor
  | domainGenesis
  | validatorSet
  | vote
  | quorumCertificate
  deriving DecidableEq

namespace Kind

def Value : Kind → Type
  | consensusHeader => ConsensusBlockHeader
  | domainHeader => DomainBlockHeader
  | domainBatch => DomainBatch
  | domainDescriptor => DomainDescriptor
  | domainGenesis => DomainGenesis
  | validatorSet => ValidatorSet
  | vote => Vote
  | quorumCertificate => QuorumCertificate

def encode : (kind : Kind) → kind.Value → Except CodecError Bytes
  | consensusHeader => encodeConsensusHeader
  | domainHeader => encodeDomainHeader
  | domainBatch => encodeDomainBatch
  | domainDescriptor => encodeDomainDescriptor
  | domainGenesis => encodeDomainGenesis
  | validatorSet => encodeValidatorSet
  | vote => encodeVote
  | quorumCertificate => encodeQuorumCertificate

def decode : (kind : Kind) → Bytes → Except CodecError kind.Value
  | consensusHeader => decodeConsensusHeader
  | domainHeader => decodeDomainHeader
  | domainBatch => decodeDomainBatch
  | domainDescriptor => decodeDomainDescriptor
  | domainGenesis => decodeDomainGenesis
  | validatorSet => decodeValidatorSet
  | vote => decodeVote
  | quorumCertificate => decodeQuorumCertificate

def tag : Kind → Bytes
  | consensusHeader => CONSENSUS_HEADER_TAG
  | domainHeader => DOMAIN_HEADER_TAG
  | domainBatch => DOMAIN_BATCH_TAG
  | domainDescriptor => DOMAIN_DESCRIPTOR_TAG
  | domainGenesis => DOMAIN_GENESIS_TAG
  | validatorSet => VALIDATOR_SET_TAG
  | vote => VOTE_TAG
  | quorumCertificate => QC_TAG

theorem exact_codec (kind : Kind) : Exact kind.encode kind.decode := by
  cases kind with
  | consensusHeader => exact exact_consensusHeader
  | domainHeader => exact exact_domainHeader
  | domainBatch => exact exact_domainBatch
  | domainDescriptor => exact exact_domainDescriptor
  | domainGenesis => exact exact_domainGenesis
  | validatorSet => exact exact_validatorSet
  | vote => exact exact_vote
  | quorumCertificate => exact exact_quorumCertificate

/-- Tags differ within the length of the shorter one. -/
theorem eq_of_tag_begins {a b : Kind} (h : a.tag <+: b.tag) : a = b := by
  revert h
  cases a <;> cases b <;> decide

/-- An encoding begins with its type's tag. -/
theorem tag_begins {kind : Kind} {value : kind.Value} {bytes : Bytes}
    (h : kind.encode value = .ok bytes) : kind.tag <+: bytes := by
  have htagged : ∃ fields, encodeTagged kind.tag fields = .ok bytes := by
    cases kind with
    | consensusHeader => exact ⟨_, h⟩
    | domainHeader => exact ⟨_, h⟩
    | domainBatch => exact ⟨_, (encodeDomainBatch_eq_ok.mp h).2.2⟩
    | domainDescriptor => exact ⟨_, (check_bind_eq_ok.mp h).2⟩
    | domainGenesis => exact ⟨_, (check_bind_eq_ok.mp h).2⟩
    | validatorSet => exact ⟨_, (encodeValidatorSet_eq_ok.mp h).2⟩
    | vote => exact ⟨_, (check_bind_eq_ok.mp h).2⟩
    | quorumCertificate => exact ⟨_, (encodeQuorumCertificate_eq_ok.mp h).2⟩
  obtain ⟨fields, htagged⟩ := htagged
  obtain ⟨rfl, _⟩ := encodeTagged_eq_ok.mp htagged
  exact prefix_append _ _

/-- **Canonical codecs.**  For every type, decoding accepts exactly the encodings and
returns what was encoded; and no byte string is an encoding of two types. -/
theorem canonical_codecs : (∀ (kind : Kind) (value : kind.Value) (bytes : Bytes),
      kind.encode value = .ok bytes → kind.decode bytes = .ok value) ∧
    (∀ (kind : Kind) (bytes : Bytes) (value : kind.Value),
      kind.decode bytes = .ok value → kind.encode value = .ok bytes) ∧
    ∀ (a b : Kind) (x : a.Value) (y : b.Value) (bytes : Bytes),
      a.encode x = .ok bytes → b.encode y = .ok bytes → a = b := by
  refine ⟨fun kind value bytes => (exact_codec kind value bytes).mp,
    fun kind bytes value => (exact_codec kind value bytes).mpr, ?_⟩
  intro a b x y bytes ha hb
  rcases prefix_or_prefix_of_prefix (tag_begins ha) (tag_begins hb) with h | h
  · exact eq_of_tag_begins h
  · exact (eq_of_tag_begins h).symm

end Kind

end Canonical

end Arbor
