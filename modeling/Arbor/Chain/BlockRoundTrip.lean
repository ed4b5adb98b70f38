import Arbor.Chain.Machine
import Arbor.Codec.CanonicalRoundTrip

/-!
# One stored form for every block

A block's body nests canonical encodings behind their lengths.  Reading a nested object is
the converse of writing it (`reads_takeObject`, `consumes_takeObject`), whatever exact codec
it belongs to, so a block that the machine executed is read back from its encoding, and a
body that is accepted is the encoding of the block it decodes to.
-/

namespace Arbor

open Result Reader Canonical

namespace ConsensusBlock

variable {block : ConsensusBlock} {bytes : Bytes}

/-! ## Nested objects -/

section Objects

variable {α : Type} {encode : α → Except CodecError Bytes} {decode : Bytes → Except CodecError α}

variable {bytes : Bytes}

/-- An object behind the length of its encoding. -/
def putObject (encode : α → Except CodecError Bytes) (value : α) : Except ChainError Bytes := do
  putBytes (← ChainError.ofCodec (encode value))

theorem putU32_eq_ok_iff {value : Nat} :
    putU32 value = .ok bytes ↔ value < 2 ^ 32 ∧ bytes = toBytes (BitVec.ofNat 32 value) := by
  simp only [putU32, check_bind_eq_ok, rejectIf_eq_ok, not_le, pure_eq, Except.ok.injEq]
  exact and_congr_right fun _ => eq_comm

theorem putObject_eq_ok {value : α} :
    putObject encode value = .ok bytes ↔ ∃ object, encode value = .ok object ∧
      object.length < 2 ^ 32 ∧ bytes = toBytes (BitVec.ofNat 32 object.length) ++ object := by
  constructor
  · intro h
    obtain ⟨object, hobject, h⟩ := bind_eq_ok.mp h
    obtain ⟨length, hlength, h⟩ := bind_eq_ok.mp h
    cases h
    obtain ⟨hsmall, rfl⟩ := putU32_eq_ok_iff.mp hlength
    exact ⟨object, mapError_eq_ok.mp hobject, hsmall, rfl⟩
  · rintro ⟨object, hobject, hsmall, rfl⟩
    rw [putObject, hobject]
    exact putBytes_eq_ok object hsmall

theorem reads_takeU32 {value : Nat} (h : value < 2 ^ 32) :
    Reads takeU32 (toBytes (BitVec.ofNat 32 value)) value := by
  refine (reads_word (by decide) _ _).finally ?_
  rw [BitVec.toNat_ofNat, Nat.mod_eq_of_lt h]
  exact reads_pure value

theorem consumes_takeU32 : Consumes takeU32 fun bytes value =>
    bytes = toBytes (BitVec.ofNat 32 value) ∧ value < 2 ^ 32 := by
  refine ((consumes_word (by decide) _).mono ?_).bind
  rintro _ word rfl
  refine consumes_pure ⟨?_, word.isLt⟩
  rw [BitVec.ofNat_toNat, BitVec.setWidth_eq, List.append_nil]

/-- A nested object is read back. -/
theorem reads_takeObject (hexact : Exact encode decode)
    (hbounded : ∀ value bytes, encode value = .ok bytes → bytes.length ≤ MAX_CANONICAL_OBJECT_BYTES)
    (what : String) {value : α} (h : putObject encode value = .ok bytes) :
    Reads (takeObject decode what) bytes value := by
  obtain ⟨object, hobject, hsmall, rfl⟩ := putObject_eq_ok.mp h
  have hlength := hbounded value object hobject
  have hbytes : Reads takeBytes (toBytes (BitVec.ofNat 32 object.length) ++ object) object :=
    (reads_takeU32 hsmall).bind ((reads_failIf (not_lt.mpr hlength)).after (reads_take rfl _))
  refine hbytes.finally (reads_lift ?_)
  rw [(hexact value object).mp hobject]
  rfl

/-- Nothing but a nested object is accepted. -/
theorem consumes_takeObject (hexact : Exact encode decode) (what : String) :
    Consumes (takeObject decode what) fun bytes value => putObject encode value = .ok bytes := by
  have hbytes : Consumes takeBytes fun bytes object => object.length < 2 ^ 32 ∧
      bytes = toBytes (BitVec.ofNat 32 object.length) ++ object := by
    refine (consumes_takeU32.mono ?_).bind
    rintro _ length ⟨rfl, hsmall⟩
    refine Consumes.bind (consumes_failIf fun _ => (consumes_take _ _).mono ?_)
    rintro object _ ⟨rfl, rfl⟩
    exact ⟨hsmall, rfl⟩
  refine (hbytes.mono ?_).bind
  rintro _ object ⟨hsmall, rfl⟩
  refine consumes_lift fun value hvalue => ?_
  rw [List.append_nil]
  exact putObject_eq_ok.mpr
    ⟨object, (hexact value object).mpr (mapError_eq_ok.mp hvalue), hsmall, rfl⟩

theorem putAll_eq_ok {values : List α} : putAll encode values = .ok bytes ↔ values.length < 2 ^ 32 ∧
      ∃ parts, mapAll (putObject encode) values = .ok parts ∧
        bytes = toBytes (BitVec.ofNat 32 values.length) ++ parts.flatten := by
  constructor
  · intro h
    obtain ⟨count, hcount, h⟩ := bind_eq_ok.mp h
    obtain ⟨parts, hparts, h⟩ := bind_eq_ok.mp h
    cases h
    obtain ⟨hsmall, rfl⟩ := putU32_eq_ok_iff.mp hcount
    exact ⟨hsmall, parts, hparts, rfl⟩
  · rintro ⟨hsmall, parts, hparts, rfl⟩
    refine bind_eq_ok.mpr ⟨_, putU32_eq_ok hsmall, bind_eq_ok.mpr ⟨parts, hparts, rfl⟩⟩

end Objects

/-! ## Blocks -/

structure Encoded (block : ConsensusBlock) (bytes : Bytes) : Prop where
  aligned : block.batches.length = block.domainBlocks.length
  bounded : bytes.length ≤ MAX_CONSENSUS_BLOCK_BYTES
  parts : ∃ header batches results,
    putObject Canonical.encodeConsensusHeader block.header = .ok header ∧
    putAll Canonical.encodeDomainBatch block.batches = .ok batches ∧
    putAll Canonical.encodeDomainHeader block.domainBlocks = .ok results ∧
    bytes = BLOCK_BODY_TAG ++ [CANONICAL_CODEC_VERSION] ++ header ++ batches ++ results

theorem encode_eq_ok : block.encode = .ok bytes ↔ Encoded block bytes := by
  constructor
  · intro h
    obtain ⟨haligned, h⟩ := check_bind_eq_ok.mp h
    obtain ⟨object, hobject, h⟩ := bind_eq_ok.mp h
    obtain ⟨header, hheader, h⟩ := bind_eq_ok.mp h
    obtain ⟨batches, hbatches, h⟩ := bind_eq_ok.mp h
    obtain ⟨results, hresults, h⟩ := bind_eq_ok.mp h
    obtain ⟨hbounded, h⟩ := check_bind_eq_ok.mp h
    cases h
    exact ⟨not_not.mp (rejectIf_eq_ok.mp haligned), not_lt.mp (rejectIf_eq_ok.mp hbounded),
      header, batches, results, bind_eq_ok.mpr ⟨object, hobject, hheader⟩, hbatches, hresults, rfl⟩
  · rintro ⟨haligned, hbounded, header, batches, results, hput, hbatches, hresults, rfl⟩
    obtain ⟨object, hobject, hheader⟩ := bind_eq_ok.mp hput
    refine check_bind_eq_ok.mpr ⟨rejectIf_eq_ok.mpr (not_not.mpr haligned), ?_⟩
    refine bind_eq_ok.mpr ⟨object, hobject, bind_eq_ok.mpr ⟨header, hheader, ?_⟩⟩
    refine bind_eq_ok.mpr ⟨batches, hbatches, bind_eq_ok.mpr ⟨results, hresults, ?_⟩⟩
    exact check_bind_eq_ok.mpr ⟨rejectIf_eq_ok.mpr (not_lt.mpr hbounded), rfl⟩

theorem length_consensusHeader_le (value : ConsensusBlockHeader) (bytes : Bytes)
    (h : encodeConsensusHeader value = .ok bytes) : bytes.length ≤ MAX_CANONICAL_OBJECT_BYTES :=
  (encodeTagged_eq_ok.mp h).2

theorem length_domainHeader_le (value : DomainBlockHeader) (bytes : Bytes)
    (h : encodeDomainHeader value = .ok bytes) : bytes.length ≤ MAX_CANONICAL_OBJECT_BYTES :=
  (encodeTagged_eq_ok.mp h).2

theorem length_domainBatch_le (value : DomainBatch) (bytes : Bytes)
    (h : encodeDomainBatch value = .ok bytes) : bytes.length ≤ MAX_CANONICAL_OBJECT_BYTES :=
  (encodeTagged_eq_ok.mp (encodeDomainBatch_eq_ok.mp h).2.2).2

/-- An encoded block of few enough batches is read back. -/
theorem reads_readBlock (h : Encoded block bytes)
    (hfew : block.batches.length ≤ MAX_BATCHES_PER_BLOCK) : Reads readBlock bytes block := by
  obtain ⟨haligned, _, header, batches, results, hheader, hbatches, hresults, rfl⟩ := h
  obtain ⟨hcount, parts, hparts, rfl⟩ := putAll_eq_ok.mp hbatches
  obtain ⟨_, resultParts, hresultParts, rfl⟩ := putAll_eq_ok.mp hresults
  rw [← haligned] at hresults ⊢
  simp only [List.append_assoc]
  refine (reads_take rfl _).bind ?_
  refine (reads_failIf (not_not.mpr rfl)).after ?_
  refine (reads_take (List.length_singleton (a := CANONICAL_CODEC_VERSION)) _).bind ?_
  refine (reads_failIf (not_not.mpr rfl)).after ?_
  refine (reads_takeObject exact_consensusHeader length_consensusHeader_le _ hheader).bind ?_
  refine (reads_takeU32 hcount).bind ?_
  refine (reads_failIf (not_lt.mpr hfew)).after ?_
  refine (Reads.times_mapAll (fun batch _ _ => reads_takeObject exact_domainBatch
    length_domainBatch_le _) hparts).bind ?_
  refine (reads_takeU32 hcount).bind ?_
  refine (reads_failIf (not_not.mpr rfl)).after ?_
  refine Reads.finally ?_ (reads_pure _)
  rw [haligned]
  exact Reads.times_mapAll (fun header _ _ => reads_takeObject exact_domainHeader
    length_domainHeader_le _) hresultParts

theorem decode_of_encode (h : block.encode = .ok bytes)
    (hfew : block.batches.length ≤ MAX_BATCHES_PER_BLOCK) : decode bytes = .ok block := by
  have hencoded := encode_eq_ok.mp h
  have hread := reads_readBlock hencoded hfew []
  rw [List.append_nil] at hread
  refine check_bind_eq_ok.mpr ⟨rejectIf_eq_ok.mpr (not_lt.mpr hencoded.bounded), ?_⟩
  exact bind_eq_ok.mpr ⟨_, hread, check_bind_eq_ok.mpr ⟨rejectIf_eq_ok.mpr (not_not.mpr rfl), rfl⟩⟩

theorem consumes_readBlock : Consumes readBlock fun bytes block =>
    bytes.length ≤ MAX_CONSENSUS_BLOCK_BYTES → Encoded block bytes := by
  refine ((consumes_take _ _).mono ?_).bind
  rintro tag _ ⟨rfl, _⟩
  refine Consumes.bind (consumes_failIf fun htag => ?_)
  refine ((consumes_take _ _).mono ?_).bind
  rintro version _ ⟨rfl, _⟩
  refine Consumes.bind (consumes_failIf fun hversion => ?_)
  refine ((consumes_takeObject exact_consensusHeader _).mono ?_).bind
  intro header blockHeader hheader
  refine (consumes_takeU32.mono ?_).bind
  rintro _ batchCount ⟨rfl, hsmall⟩
  refine Consumes.bind (consumes_failIf fun _ => ?_)
  refine ((consumes_takeObject exact_domainBatch _).times_mapAll batchCount |>.mono ?_).bind
  rintro _ batches ⟨rfl, parts, hparts, rfl⟩
  refine (consumes_takeU32.mono ?_).bind
  rintro _ resultCount ⟨rfl, hresults⟩
  refine Consumes.bind (consumes_failIf fun haligned => ?_)
  refine ((consumes_takeObject exact_domainHeader _).times_mapAll resultCount |>.mono ?_).bind
  rintro _ domainBlocks ⟨rfl, resultParts, hresultParts, rfl⟩
  refine consumes_pure fun hbounded => ?_
  obtain rfl : tag = BLOCK_BODY_TAG := not_not.mp htag
  obtain rfl : version = [CANONICAL_CODEC_VERSION] := not_not.mp hversion
  refine ⟨(not_not.mp haligned).symm, hbounded, header, _, _, hheader,
    putAll_eq_ok.mpr ⟨hsmall, parts, hparts, rfl⟩,
    putAll_eq_ok.mpr ⟨hresults, resultParts, hresultParts, rfl⟩, ?_⟩
  simp only [List.append_assoc, List.append_nil, List.nil_append]

theorem encode_of_decode (h : decode bytes = .ok block) : block.encode = .ok bytes := by
  obtain ⟨hbounded, h⟩ := check_bind_eq_ok.mp h
  obtain ⟨⟨decoded, rest⟩, hread, h⟩ := bind_eq_ok.mp h
  obtain ⟨hrest, h⟩ := check_bind_eq_ok.mp h
  cases h
  obtain rfl : rest = [] := not_not.mp (rejectIf_eq_ok.mp hrest)
  obtain ⟨read, hinput, hencoded⟩ := consumes_readBlock hread
  rw [List.append_nil] at hinput
  subst hinput
  exact encode_eq_ok.mpr (hencoded (not_lt.mp (rejectIf_eq_ok.mp hbounded)))

/-- **Blocks replay exactly.**  A block the machine executed is read back from its encoding,
and whatever is accepted as a body is the encoding of the block it decodes to. -/
theorem block_codec [Keccak] [Secp256k1] [Revm] [OrderedTrie] :
    (∀ (parent : FinalizedChainState) (batches : List DomainBatch) (timestamp : U64)
      (proposer : Address) (proposal : ValidatedProposal),
      ChainMachine.execute parent batches timestamp proposer = .ok proposal →
        ∃ bytes, proposal.block.encode = .ok bytes ∧ decode bytes = .ok proposal.block) ∧
    ∀ (bytes : Bytes) (block : ConsensusBlock), decode bytes = .ok block →
      block.encode = .ok bytes := by
  refine ⟨fun parent batches timestamp proposer proposal hexecute => ?_, fun _ _ =>
    encode_of_decode⟩
  obtain ⟨executed, hrun⟩ := ChainMachine.execute_eq_ok hexecute
  obtain ⟨_, _, _, hblock, _, ⟨bytes, hbytes, _⟩, _, _⟩ := ChainMachine.sealBlock_eq_ok hrun.sealed
  refine ⟨bytes, hbytes, decode_of_encode hbytes ?_⟩
  rw [hblock]
  exact hrun.count

end ConsensusBlock

end Arbor
