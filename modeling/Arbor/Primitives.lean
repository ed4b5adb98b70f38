import Mathlib.Data.Set.Function
import Std.Data.ExtTreeMap
import Std.Data.ExtTreeSet
import Arbor.Lib.BigEndian

/-!
# Consensus-facing primitive types

The fixed-width words, identifiers and records every other layer is built from.
Words keep their width: an address has 160 bits, a hash or an EVM word 256, so
that arithmetic which wraps in the source wraps here.  A `BTreeMap` is an
extensional ordered map: two maps with the same entries are equal.

Keccak-256 is not part of the repository.  It enters as the class `Keccak`, and
results that need collision resistance say on which preimages.
-/

namespace Arbor

abbrev B256 := BitVec 256
abbrev U256 := BitVec 256
abbrev Address := BitVec 160
abbrev Bloom := BitVec 2048

abbrev U8 := BitVec 8
abbrev U16 := BitVec 16
abbrev U32 := BitVec 32
abbrev U64 := BitVec 64
abbrev U128 := BitVec 128

abbrev NetworkId := B256
abbrev DomainId := B256
abbrev ValidatorId := B256
abbrev ConsensusHeight := U64
abbrev DomainNumber := U64
abbrev ConsensusRound := U64

-- the orders of the words that are keys of maps, named so that every map shares them
instance instTransOrdB256 : Std.TransOrd B256 := inferInstance
instance instLawfulEqOrdB256 : Std.LawfulEqOrd B256 := inferInstance
instance instLawfulBEqB256 : LawfulBEq B256 := inferInstance
instance instTransOrdAddress : Std.TransOrd Address := inferInstance
instance instLawfulEqOrdAddress : Std.LawfulEqOrd Address := inferInstance
instance instTransOrdU64 : Std.TransOrd U64 := inferInstance
instance instLawfulEqOrdU64 : Std.LawfulEqOrd U64 := inferInstance

abbrev BTreeMap (K V : Type) [Ord K] := Std.ExtTreeMap K V compare
abbrev BTreeSet (K : Type) [Ord K] := Std.ExtTreeSet K compare

/-- Pairs are ordered by their first components, then by their second. -/
instance instOrdPair {α β : Type} [Ord α] [Ord β] : Ord (α × β) := lexOrd

/-- Version of the Arbor wire and canonical encoding rules. -/
def PROTOCOL_VERSION : U32 := 1
/-- Version byte following every Arbor-native canonical domain tag. -/
def CANONICAL_CODEC_VERSION : Byte := 1

class Keccak where
  keccak256 : Bytes → B256

export Keccak (keccak256)

/-- A polynomial hash in place of Keccak-256, for runs on fixed inputs. -/
@[reducible] def rollingKeccak : Keccak :=
  ⟨fun input => BitVec.ofNat 256 (input.foldl (fun hash byte =>
    (hash * 0x9e3779b97f4a7c15f39cc0605cedc8341082276bf3a27251f86c6a11d0c18e95 + byte.toNat + 1)
      % 2 ^ 256) 7 * 0xd6e8feb86659fd93c2b2ae3d27d4eb4f165667b19e3779f9a5b35705cc9e2d51)⟩

/-- The factor that scatters words; it is odd. -/
def SCATTER : U256 := 0x9e3779b97f4a7c15f39cc0605cedc8341082276bf3a27251f86c6a11d0c18e95

theorem scatter_injective : Function.Injective fun x : U256 => x * SCATTER := by
  intro x y h
  have hinverse : SCATTER * 0x86463f38f84eb2f5e48d88b85d99f57e8aeac025ebd1d368417c7539b5cfccbd
      = 1#256 := by
    decide
  have hx := congrArg (· * (0x86463f38f84eb2f5e48d88b85d99f57e8aeac025ebd1d368417c7539b5cfccbd :
      U256)) h
  simpa only [BitVec.mul_assoc, hinverse, BitVec.mul_one] using hx

/-- The polynomial hash, except on strings of the length of a word or an address, which it
scatters without collisions. -/
@[reducible] def scatteringKeccak : Keccak :=
  ⟨fun input =>
    if input.length = 20 ∨ input.length = 32 then ofBytes 256 input * SCATTER
    else rollingKeccak.keccak256 input⟩

/-- One more, or the last word again. -/
def saturatingSucc (x : U64) : U64 := if x = BitVec.allOnes 64 then x else x + 1

theorem toNat_saturatingSucc {x : U64} (h : x.toNat < 2 ^ 64 - 1) :
    (saturatingSucc x).toNat = x.toNat + 1 := by
  have hne : x ≠ BitVec.allOnes 64 := by
    intro heq
    rw [heq, BitVec.toNat_allOnes] at h
    omega
  rw [saturatingSucc, if_neg hne, BitVec.toNat_add]
  have hone : (1 : U64).toNat = 1 := rfl
  omega

theorem compare_lt_iff {w : Nat} {x y : BitVec w} : compare x y = .lt ↔ x.toNat < y.toNat := by
  exact compareOfLessAndEq_eq_lt

theorem le_of_isLE {w : Nat} {x y : BitVec w} (h : (compare x y).isLE = true) :
    x.toNat ≤ y.toNat := by
  cases hcompare : compare x y with
  | lt => exact Nat.le_of_lt (compare_lt_iff.mp hcompare)
  | eq => exact (congrArg BitVec.toNat (Std.LawfulEqCmp.compare_eq_iff_eq.mp hcompare)).le
  | gt =>
    rw [hcompare] at h
    cases h

/-- Where the first components agree, the second decide. -/
theorem compare_pair {α β : Type} [Ord α] [Std.ReflOrd α] [Ord β] (a : α) (b c : β) :
    compare (a, b) (a, c) = compare b c := by
  have hself : compare a a = .eq := Std.ReflCmp.compare_self
  change (compare a a).then (compare b c) = compare b c
  rw [hself]
  rfl

/-- Consensus header finalized by the root validator set. -/
structure ConsensusBlockHeader where
  protocolVersion : U32
  networkId : NetworkId
  height : ConsensusHeight
  parentHash : B256
  timestamp : U64
  batchesRoot : B256
  domainResultsRoot : B256
  domainHeadsRoot : B256
  validatorSetHash : B256
  nextValidatorSetHash : B256
  proposer : Address
  deriving DecidableEq

structure DomainBatch where
  domainId : DomainId
  parentDomainBlockHash : B256
  transactions : List Bytes
  deriving DecidableEq

/-- Header of a logical domain block derived from one consensus block. -/
structure DomainBlockHeader where
  protocolVersion : U32
  domainId : DomainId
  number : DomainNumber
  parentHash : B256
  consensusHeight : ConsensusHeight
  transactionsRoot : B256
  stateRoot : B256
  receiptsRoot : B256
  logsBloom : Bloom
  gasLimit : U64
  gasUsed : U64
  baseFeePerGas : U128
  deriving DecidableEq

structure Log where
  address : Address
  topics : List B256
  data : Bytes
  deriving DecidableEq

/-- Consensus fields of an Ethereum-compatible receipt. -/
structure Receipt where
  status : Bool
  cumulativeGasUsed : U64
  logsBloom : Bloom
  logs : List Log
  deriving DecidableEq

/-- EIP-2930 access-list entry used by EIP-1559 transactions. -/
structure AccessListItem where
  address : Address
  storageKeys : List B256
  deriving DecidableEq

/-- Signed EIP-1559 transaction fields carried by a type-2 envelope. -/
structure Eip1559Transaction where
  chainId : U64
  nonce : U64
  maxPriorityFeePerGas : U128
  maxFeePerGas : U128
  gasLimit : U64
  /-- The source's `to`: the recipient, or `none` for contract creation. -/
  recipient : Option Address
  value : U256
  input : Bytes
  accessList : List AccessListItem
  yParity : Bool
  r : U256
  s : U256
  deriving DecidableEq

/-- Domain lifecycle state recorded by the root `ChainRegistry`. -/
inductive DomainStatus where
  | pending
  | active
  | frozen
  deriving DecidableEq

structure DomainDescriptor where
  domainId : DomainId
  parentDomainId : DomainId
  jointDomainBlockHash : B256
  createTxHash : B256
  originHash : B256
  name : String
  symbol : String
  evmChainId : U64
  owner : Address
  protocolRevision : U32
  gasLimit : U64
  initialBaseFee : U128
  initialSupply : U256
  creationDeposit : U256
  status : DomainStatus
  deriving DecidableEq

/-- Immutable genesis preimage committed by `originHash`. -/
structure DomainGenesis where
  domainId : DomainId
  parentDomainId : DomainId
  jointDomainBlockHash : B256
  createTxHash : B256
  name : String
  symbol : String
  evmChainId : U64
  owner : Address
  protocolRevision : U32
  gasLimit : U64
  initialBaseFee : U128
  initialSupply : U256
  initialStateRoot : B256
  deriving DecidableEq

/-- Validator and its power at a finalized root; the key is a compressed curve point. -/
structure Validator where
  id : ValidatorId
  publicKey : BitVec 264
  power : U64
  deriving DecidableEq

structure ValidatorSet where
  epoch : U64
  validators : List Validator
  deriving DecidableEq

end Arbor
