import Arbor.Evm.StateResolve
import Arbor.Executor
import Arbor.System.Calldata

/-!
# Preparing a creation

A call of the registry with calldata that decodes has its creation prepared: the genesis
state of the new domain is built, its descriptor encoded and hashed.  Decoded texts are
normal and short, so nothing of this fails; only a deposit that would unlock after the
last height is not prepared (`prepareRegistryCreation_cases`).
-/

namespace Arbor

open Result Canonical

namespace Canonical

theorem encodeDomainDescriptor_succeeds {value : DomainDescriptor}
    (hmeta : checkMetadata value.name value.symbol value.evmChainId = .ok ()) :
    ∃ bytes, encodeDomainDescriptor value = .ok bytes := by
  obtain ⟨hname, hsymbol, _⟩ := checkMetadata_eq_ok.mp hmeta
  have htag : DOMAIN_DESCRIPTOR_TAG.length ≤ 64 := by decide
  refine ⟨_, check_bind_eq_ok.mpr ⟨hmeta, encodeTagged_eq_ok.mpr ⟨rfl, ?_⟩⟩⟩
  simp only [domainDescriptorFields, encodeBytes, List.length_append, List.length_cons,
    length_toBytes, MAX_CANONICAL_OBJECT_BYTES]
  omega

theorem encodeDomainGenesis_succeeds {value : DomainGenesis}
    (hmeta : checkMetadata value.name value.symbol value.evmChainId = .ok ()) :
    ∃ bytes, encodeDomainGenesis value = .ok bytes := by
  obtain ⟨hname, hsymbol, _⟩ := checkMetadata_eq_ok.mp hmeta
  have htag : DOMAIN_GENESIS_TAG.length ≤ 64 := by decide
  refine ⟨_, check_bind_eq_ok.mpr ⟨hmeta, encodeTagged_eq_ok.mpr ⟨rfl, ?_⟩⟩⟩
  simp only [domainGenesisFields, encodeBytes, List.length_append, List.length_cons,
    length_toBytes, MAX_CANONICAL_OBJECT_BYTES]
  omega

end Canonical

namespace SystemContract

section Requests

variable [Keccak] {input : Bytes} {request : CreateChainRequest}

/-- A request with normal texts and valid parameters. -/
structure Normal (request : CreateChainRequest) : Prop where
  name : normalizeName (utf8Bytes request.name) = .ok request.name
  symbol : normalizeSymbol (utf8Bytes request.symbol) = .ok request.symbol
  valid : validateRequest request = .ok ()

theorem normal_of_decode (h : decodeCreateChainCall input = .ok request) : Normal request := by
  obtain ⟨_, _, hcarries⟩ := carries_of_decode h
  exact ⟨normalizeName_idem hcarries.normalName, normalizeSymbol_idem hcarries.normalSymbol,
    hcarries.valid⟩

omit [Keccak] in
theorem Normal.metadata (h : Normal request) :
    checkMetadata request.name request.symbol request.evmChainId = .ok () :=
  checkMetadata_eq_ok.mpr ⟨length_of_normalizeName h.name,
    length_of_normalizeSymbol h.symbol, (validateRequest_eq_ok.mp h.valid).2.1⟩

theorem prepareChainCreation_cases (h : Normal request) (networkId : NetworkId)
    (createTxHash jointDomainBlockHash initialStateRoot : B256) {creationDeposit : U256}
    (hdeposit : MIN_CREATION_DEPOSIT ≤ creationDeposit) (creationHeight : U64) :
    (2 ^ 64 ≤ creationHeight.toNat + CREATION_DEPOSIT_LOCK_BLOCKS ∧
        prepareChainCreation request networkId createTxHash jointDomainBlockHash initialStateRoot
          creationDeposit creationHeight = .error .heightOverflow) ∨
      creationHeight.toNat + CREATION_DEPOSIT_LOCK_BLOCKS < 2 ^ 64 ∧
        ∃ prepared, prepareChainCreation request networkId createTxHash jointDomainBlockHash
          initialStateRoot creationDeposit creationHeight = .ok prepared ∧
          prepared.request = request := by
  let domainId := Crypto.deriveDomainId networkId request.parentDomainId createTxHash
  obtain ⟨genesis, hgenesis⟩ : ∃ bytes, encodeDomainGenesis (requestGenesis request
      domainId jointDomainBlockHash createTxHash initialStateRoot) = .ok bytes :=
    encodeDomainGenesis_succeeds h.metadata
  have horigin : Crypto.domainGenesisHash (requestGenesis request domainId jointDomainBlockHash
      createTxHash initialStateRoot) = .ok (keccak256 genesis) := by
    rw [Crypto.domainGenesisHash, hgenesis]
    rfl
  obtain ⟨encoded, hencoded⟩ : ∃ bytes, encodeDomainDescriptor (requestDescriptor request
      domainId jointDomainBlockHash createTxHash (keccak256 genesis) creationDeposit) = .ok bytes :=
    encodeDomainDescriptor_succeeds h.metadata
  have hstart : prepareChainCreation request networkId createTxHash jointDomainBlockHash
      initialStateRoot creationDeposit creationHeight = (do
        rejectIf (2 ^ 64 ≤ creationHeight.toNat + CREATION_DEPOSIT_LOCK_BLOCKS) .heightOverflow
        return { request
                 descriptor := requestDescriptor request domainId jointDomainBlockHash createTxHash
                   (keccak256 genesis) creationDeposit
                 descriptorHash := keccak256 encoded
                 creationHeight
                 depositUnlockHeight :=
                   creationHeight + BitVec.ofNat 64 CREATION_DEPOSIT_LOCK_BLOCKS }) := by
    rw [prepareChainCreation, h.name, ok_bind, h.symbol, ok_bind]
    dsimp only
    rw [h.valid, ok_bind, rejectIf_neg (BitVec.not_lt.mpr hdeposit), ok_bind, horigin, mapError_ok,
      ok_bind, hencoded, mapError_ok, ok_bind]
  rw [hstart]
  by_cases hheight : 2 ^ 64 ≤ creationHeight.toNat + CREATION_DEPOSIT_LOCK_BLOCKS
  · refine .inl ⟨hheight, ?_⟩
    rw [rejectIf, if_pos hheight]
    rfl
  · rw [rejectIf_neg hheight]
    exact .inr ⟨Nat.lt_of_not_le hheight, _, rfl, rfl⟩

end Requests

end SystemContract

open SystemContract

namespace Executor

section Preparing

variable [Keccak]

open ExecutionState in
/-- A domain with one owner has a genesis state. -/
theorem fromGenesis_requestAllocation (request : CreateChainRequest) :
    ∃ state, fromGenesis (requestAllocation request) = .ok state := by
  let account : Account := ⟨0, request.initialSupply, Trie.EMPTY_ROOT_HASH, KECCAK_EMPTY⟩
  let leaves : Leaves := if account.isEmpty then ∅
    else (∅ : Leaves).insert (Trie.secureAccountKey request.owner) (encodeAccount account)
  have hfound : materializeAll (requestAllocation request).toList ⟨∅, ∅, ∅⟩
      = .ok ⟨leaves, ∅, ∅⟩ := by
    rw [requestAllocation]
    rfl
  have hvectors : Trie.Vectors leaves ∧ leaves.size ≤ 1 := by
    dsimp only [leaves]
    split
    · exact ⟨vectors_empty, by rw [Std.ExtTreeMap.size_empty]; exact Nat.zero_le _⟩
    · refine ⟨fun key value hvalue => ?_, Std.ExtTreeMap.size_insert_le⟩
      rw [OrdMap.getElem?_insert] at hvalue
      split at hvalue
      · cases hvalue
        exact short_encodeAccount account
      · rw [Std.ExtTreeMap.getElem?_empty] at hvalue
        cases hvalue
  obtain ⟨state, hstate, _⟩ := fromGenesis_of_leaves hfound hvectors.1 (by omega)
  exact ⟨state, hstate⟩

/-- **A decoded call is prepared**, unless its deposit never unlocks. -/
theorem prepareRegistryCreation_cases (index : Nat) {context : ChainRegistryExecutionContext}
    {transaction : Eip1559Transaction} (transactionHash : B256) {joint : B256}
    {request : CreateChainRequest} (hroot : context.executingDomainId = context.rootDomainId)
    (hrecipient : transaction.recipient = some CHAIN_REGISTRY_ADDRESS)
    (hdecode : decodeCreateChainCall transaction.input = .ok request)
    (hparent : context.finalizedHeads[request.parentDomainId]? = some joint)
    (hdeposit : MIN_CREATION_DEPOSIT ≤ transaction.value) :
    (2 ^ 64 ≤ context.creationHeight.toNat + CREATION_DEPOSIT_LOCK_BLOCKS ∧
        prepareRegistryCreation index (some context) transaction transactionHash = .ok none) ∨
      context.creationHeight.toNat + CREATION_DEPOSIT_LOCK_BLOCKS < 2 ^ 64 ∧
        ∃ created, prepareRegistryCreation index (some context) transaction transactionHash
            = .ok (some created) ∧ created.1.request = request ∧
          Preparation (some context) transaction transactionHash created context request joint := by
  obtain ⟨genesisState, hgenesis⟩ := fromGenesis_requestAllocation request
  have hcall : ¬(context.executingDomainId ≠ context.rootDomainId ∨
      transaction.recipient ≠ some CHAIN_REGISTRY_ADDRESS) := by
    rw [not_or, not_not, not_not]
    exact ⟨hroot, hrecipient⟩
  rcases prepareChainCreation_cases (normal_of_decode hdecode) context.networkId transactionHash
    joint genesisState.stateRoot hdeposit context.creationHeight with
    ⟨hlate, hprepare⟩ | ⟨hheight, prepared, hprepare, hrequest⟩
  · refine .inl ⟨hlate, ?_⟩
    simp only [prepareRegistryCreation, if_neg hcall, hdecode, hparent, hgenesis, mapError_ok,
      ok_bind, hprepare]
    rfl
  · refine .inr ⟨hheight, (prepared, genesisState), ?_, hrequest, rfl, hroot, hrecipient, hdecode,
      hparent, hgenesis, hprepare⟩
    simp only [prepareRegistryCreation, if_neg hcall, hdecode, hparent, hgenesis, mapError_ok,
      ok_bind, hprepare]
    rfl

end Preparing

end Executor

end Arbor
