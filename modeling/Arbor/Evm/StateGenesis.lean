import Arbor.Evm.StateResolve

/-!
# Genesis states

A state made of allocations resolves: every account leaf is that of an allocation, whose
storage and code have been collected.
-/

namespace Arbor

open Result Std Trie OrdMap

namespace ExecutionState

section Genesis

variable [Keccak] {P : Set Bytes} {keys : Set B256}

variable {value : Bytes}

theorem vectors_storageLeaves (storage : BTreeMap U256 U256) : Vectors (storageLeaves storage) := by
  intro key value hvalue
  rcases of_getElem?_writes Prod.fst (fun leaf => some leaf.2) hvalue with hnone
    | ⟨leaf, hmem, hleaf⟩
  · cases hnone
  · obtain ⟨slot, _, hslot⟩ := List.mem_filterMap.mp hmem
    obtain ⟨word, hword, rfl⟩ := Option.map_eq_some_iff.mp hslot
    cases hleaf
    exact length_storageTrieValue_lt hword

/-! ## Allocations -/

def allocatedAccount (allocated : GenesisAccount) : Account :=
  ⟨allocated.nonce, allocated.balance, (Trie.snapshot (storageLeaves allocated.storage)).root,
    if allocated.code = [] then KECCAK_EMPTY else keccak256 allocated.code⟩

/-- The tries of a genesis are made of keys and nodes in play. -/
structure GenesisConfined (P : Set Bytes) (keys : Set B256)
    (allocations : BTreeMap Address GenesisAccount) : Prop where
  storage : ∀ (address : Address) (allocated : GenesisAccount),
    allocations[address]? = some allocated → Built P keys (storageLeaves allocated.storage)
  accounts : ∀ found, materializeAll allocations.toList ⟨∅, ∅, ∅⟩ = .ok found →
    Built P keys found.leaves

/-- Whether the tries of a genesis are made of the nodes of a store and of listed keys. -/
def genesisConfinedOf (store : NodeStore) (keys : List B256)
    (allocations : BTreeMap Address GenesisAccount) : Bool :=
  (allocations.toList.all fun allocation =>
    builtOf store keys (storageLeaves allocation.2.storage)) &&
  match materializeAll allocations.toList ⟨∅, ∅, ∅⟩ with
  | .ok found => builtOf store keys found.leaves
  | .error _ => true

variable {allocations : BTreeMap Address GenesisAccount}

theorem genesisConfined_of_genesisConfinedOf {store : NodeStore} {keys : List B256}
    (h : genesisConfinedOf store keys allocations = true) :
    GenesisConfined (nodesOf store) {key | key ∈ keys} allocations := by
  rw [genesisConfinedOf, Bool.and_eq_true, List.all_eq_true] at h
  constructor
  · intro address allocated hallocated
    exact built_of_builtOf (h.1 (address, allocated)
      (ExtTreeMap.mem_toList_iff_getElem?_eq_some.mpr hallocated))
  · intro found hfound
    have hbuilt := h.2
    rw [hfound] at hbuilt
    exact built_of_builtOf hbuilt

/-- What the allocations up to some point have collected. -/
structure Collected (P : Set Bytes) (keys : Set B256)
    (allocations : List (Address × GenesisAccount)) (before after : Materialized) : Prop where
  addressed : Addressed P before.nodes → Addressed P after.nodes
  holds : ∀ leaves, Holds P before.nodes leaves → Holds P after.nodes leaves
  code : ∀ codeHash, HasCode before.code codeHash → HasCode after.code codeHash
  leaf : ∀ (key : B256) (value : Bytes), after.leaves[key]? = some value →
    before.leaves[key]? = some value ∨
      ∃ allocation ∈ allocations, value = encodeAccount (allocatedAccount allocation.2)
  backed : ∀ allocation ∈ allocations, Backed P keys after.nodes after.code
    (encodeAccount (allocatedAccount allocation.2)) (allocatedAccount allocation.2)
    (storageLeaves allocation.2.storage)

theorem Backed.mono {nodes nodes' : NodeStore} {code code' : BTreeMap B256 Bytes}
    {account : Account} {leaves : Leaves} (h : Backed P keys nodes code value account leaves)
    (hheld : Holds P nodes' leaves)
    (hcode : ∀ codeHash, HasCode code codeHash → HasCode code' codeHash) :
    Backed P keys nodes' code' value account leaves :=
  ⟨h.decodes, h.storage.mono hheld, hcode _ h.code⟩

/-- One allocation adds its storage, its code and its leaf. -/
structure Materializes (found after : Materialized) (allocation : Address × GenesisAccount) :
    Prop where
  nodes : after.nodes = found.nodes ∪ (Trie.snapshot (storageLeaves allocation.2.storage)).nodes
  leaf : ∀ (key : B256) (value : Bytes), after.leaves[key]? = some value →
    found.leaves[key]? = some value ∨ value = encodeAccount (allocatedAccount allocation.2)
  size : (storageLeaves allocation.2.storage).size < 2 ^ 32
  code : ∀ codeHash, HasCode found.code codeHash → HasCode after.code codeHash
  hasCode : HasCode after.code (allocatedAccount allocation.2).codeHash

theorem materialize_eq_ok {found after : Materialized} {allocation : Address × GenesisAccount}
    (h : materialize found allocation = .ok after) : Materializes found after allocation := by
  obtain ⟨storage, hstorage, h⟩ := bind_eq_ok.mp h
  obtain ⟨rfl, hsize⟩ := build_eq_ok (ofState_eq_ok.mp hstorage)
  cases h
  refine ⟨rfl, fun key value hvalue => ?_, hsize, fun codeHash hcode => ?_, ?_⟩
  · change (if (allocatedAccount allocation.2).isEmpty = true then found.leaves
      else found.leaves.insert _ (encodeAccount (allocatedAccount allocation.2)))[key]?
        = _ at hvalue
    split at hvalue
    · exact .inl hvalue
    · rw [getElem?_insert] at hvalue
      split at hvalue
      · exact .inr (Option.some.inj hvalue).symm
      · exact .inl hvalue
  · split
    · exact hcode
    · exact hcode.insert rfl
  · unfold allocatedAccount
    split
    · exact .inl rfl
    · exact .inr ⟨allocation.2.code, by rw [getElem?_insert, if_pos rfl], rfl⟩

theorem materializeAll_eq_ok (hash : Hashing P keys) {allocations : List (Address × GenesisAccount)}
    (hbuilt : ∀ allocation ∈ allocations, Built P keys (storageLeaves allocation.2.storage))
    {before after : Materialized} (h : materializeAll allocations before = .ok after) :
    Collected P keys allocations before after := by
  induction allocations generalizing before with
  | nil =>
    cases h
    exact ⟨id, fun _ => id, fun _ => id, fun _ _ => .inl,
      fun _ hmem => absurd hmem List.not_mem_nil⟩
  | cons allocation rest ih =>
    obtain ⟨next, hnext, h⟩ := bind_eq_ok.mp h
    have hone := materialize_eq_ok hnext
    have hrest := ih (fun other hmem => hbuilt other (List.mem_cons_of_mem _ hmem)) h
    have hown := hbuilt allocation List.mem_cons_self
    have hnew := addressed_snapshot hown.nodes
    have hkept : ∀ leaves, Holds P before.nodes leaves → Holds P next.nodes leaves := by
      intro leaves hheld
      rw [hone.nodes]
      exact holds_union_left hash.injOn hheld hnew
    refine ⟨fun hstart => hrest.addressed ?_,
      fun leaves hheld => hrest.holds leaves (hkept leaves hheld),
      fun codeHash hcode => hrest.code codeHash (hone.code codeHash hcode), ?_, ?_⟩
    · rw [hone.nodes]
      exact addressed_union hstart hnew
    · intro key value hvalue
      rcases hrest.leaf key value hvalue with hvalue | ⟨other, hmem, rfl⟩
      · exact (hone.leaf key value hvalue).imp_right fun h => ⟨allocation, List.mem_cons_self, h⟩
      · exact .inr ⟨other, List.mem_cons_of_mem _ hmem, rfl⟩
    · intro other hmem
      rcases List.mem_cons.mp hmem with rfl | hmem
      · refine ⟨decodeAccount_encodeAccount _, ⟨⟨hown.keys, vectors_storageLeaves _⟩, rfl,
          hrest.holds _ ?_, hone.size⟩, hrest.code _ hone.hasCode⟩
        rw [hone.nodes]
        exact holds_union_right (holds_snapshot hash.injOn hown.nodes)
      · exact hrest.backed other hmem

/-- **Genesis.**  A state made of allocations resolves. -/
theorem resolvable_fromGenesis (hash : Hashing P keys)
    {state : ExecutionState} (hconfined : GenesisConfined P keys allocations)
    (h : fromGenesis allocations = .ok state) : Resolvable P keys state := by
  obtain ⟨found, hfound, h⟩ := bind_eq_ok.mp h
  obtain ⟨accounts, haccounts, h⟩ := bind_eq_ok.mp h
  obtain ⟨extended, hextend, h⟩ := bind_eq_ok.mp h
  obtain ⟨rfl, hsize⟩ := build_eq_ok (ofState_eq_ok.mp haccounts)
  obtain ⟨hroot, hleaves⟩ := extendNodes_eq_ok (ofState_eq_ok.mp hextend)
  have hbuilt := hconfined.accounts found hfound
  have hrun := materializeAll_eq_ok hash (fun allocation hmem => hconfined.storage _ _
    (ExtTreeMap.mem_toList_iff_getElem?_eq_some.mp hmem)) hfound
  have hnew := addressed_snapshot hbuilt.nodes
  have hleaf : ∀ (key : B256) (value : Bytes), found.leaves[key]? = some value →
      ∃ allocation ∈ allocations.toList, value = encodeAccount (allocatedAccount allocation.2) :=
    fun key value hvalue => (hrun.leaf key value hvalue).resolve_left
      (by rw [ExtTreeMap.getElem?_empty]; exact fun h => (nomatch h))
  cases h
  refine ⟨⟨?_, ?_, ?_, ?_⟩, addressed_union (hrun.addressed addressed_empty) hnew, ?_⟩
  · rw [hleaves]
    refine ⟨hbuilt.keys, fun key value hvalue => ?_⟩
    obtain ⟨_, _, rfl⟩ := hleaf key value hvalue
    exact short_encodeAccount _
  · rw [hleaves]
    exact hroot
  · rw [hleaves]
    exact holds_union_right (holds_snapshot hash.injOn hbuilt.nodes)
  · rw [hleaves]
    exact hsize
  · intro key value hvalue
    rw [hleaves] at hvalue
    obtain ⟨allocation, hmem, rfl⟩ := hleaf key value hvalue
    have hown := hrun.backed allocation hmem
    exact ⟨_, _, hown.mono (holds_union_left hash.injOn hown.storage.holds hnew) fun _ => id⟩

end Genesis

end ExecutionState

end Arbor
