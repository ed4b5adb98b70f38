import Arbor.Evm.StateGenesis

/-!
# Changes as updates of a map

States come from genesis allocations, from a persisted root or from earlier changes; all of
them resolve (`Obtained.resolvable`).  For every such state applying the changes of a
transaction is the update of a map: untouched accounts keep their fields and slots, removed
ones are gone, and all others have the fields and words of their change.
-/

namespace Arbor

open Result Trie

namespace ExecutionState

section Obtained

variable [Keccak] {P : Set Bytes} {keys : Set B256} {state : ExecutionState}

variable {store : NodeStore} {loadCode : B256 → Except EvmError (Option Bytes)}

/-! ## Persisted roots -/

/-- The tries below a persisted root are made of keys and nodes in play, and their values are
vectors of bytes. -/
structure PersistedConfined (P : Set Bytes) (keys : Set B256) (root : B256) (store : NodeStore) :
    Prop where
  accounts : ∀ leaves, Trie.collectLeaves root store = .ok leaves →
    Built P keys leaves ∧ Trie.Vectors leaves
  storage : ∀ leaves, Trie.collectLeaves root store = .ok leaves →
    ∀ (key : B256) (value : Bytes) (account : Account) (stored : Leaves),
      leaves[key]? = some value → decodeAccount value = .ok account →
      Trie.collectLeaves account.storageRoot store = .ok stored →
      Built P keys stored ∧ Trie.Vectors stored

/-- The leaves of the tries below a persisted root: of the accounts, and of the storage of the
account under a key. -/
inductive Stored (root : B256) (store : NodeStore) : Option B256 → Leaves → Prop
  | accounts {leaves : Leaves} :
      Trie.collectLeaves root store = .ok leaves → Stored root store none leaves
  | storage {accounts leaves : Leaves} {key : B256} {value : Bytes} {account : Account} :
      Trie.collectLeaves root store = .ok accounts → accounts[key]? = some value →
      decodeAccount value = .ok account →
      Trie.collectLeaves account.storageRoot store = .ok leaves →
      Stored root store (some key) leaves

variable {root : B256}

theorem PersistedConfined.stored {owner : Option B256} {leaves : Leaves}
    (hconfined : PersistedConfined P keys root store) (h : Stored root store owner leaves) :
    Built P keys leaves ∧ Vectors leaves := by
  cases h with
  | accounts hcollect => exact hconfined.accounts leaves hcollect
  | storage hcollect hleaf hdecodes hstored =>
    exact hconfined.storage _ hcollect _ _ _ leaves hleaf hdecodes hstored

/-- A root whose leaves were collected from a store and built again, with all nodes of the
build in another. -/
structure Rebuilt (P : Set Bytes) (store nodes : NodeStore) (root : B256) (leaves : Leaves) :
    Prop where
  collect : Trie.collectLeaves root store = .ok leaves
  root_eq : root = (Trie.snapshot leaves).root
  holds : Holds P nodes leaves
  size : leaves.size < 2 ^ 32

theorem Rebuilt.resolves {nodes : NodeStore} {leaves : Leaves}
    (h : Rebuilt P store nodes root leaves) (hfits : Fits keys leaves) :
    Resolves P keys nodes root leaves :=
  ⟨hfits, h.root_eq, h.holds, h.size⟩

theorem rebuilt_reloadStorage (hP : Set.InjOn keccak256 P) {nodes after : NodeStore}
    {account : Account} (haddressed : Addressed P nodes)
    (hstored : ∀ stored, collectLeaves account.storageRoot store = .ok stored →
      ∀ e ∈ encodings stored, e ∈ P) (h : reloadStorage store nodes account = .ok after) :
    Addressed P after ∧ (∀ leaves, Holds P nodes leaves → Holds P after leaves) ∧
      ∃ leaves, Rebuilt P store after account.storageRoot leaves := by
  unfold reloadStorage at h
  split at h
  · rename_i hempty
    cases h
    rw [hempty]
    exact ⟨haddressed, fun _ => id, ∅, if_pos rfl, rfl, holds_empty, by decide⟩
  · obtain ⟨leaves, hleaves, h⟩ := bind_eq_ok.mp h
    obtain ⟨storage, hstorage, h⟩ := bind_eq_ok.mp h
    obtain ⟨hroot, h⟩ := check_bind_eq_ok.mp h
    cases h
    obtain ⟨rfl, hsize⟩ := build_eq_ok (ofState_eq_ok.mp hstorage)
    rw [rejectIf_eq_ok, not_not] at hroot
    have hcollect := ofState_eq_ok.mp hleaves
    have hnodes := hstored leaves hcollect
    have hnew := addressed_snapshot hnodes
    exact ⟨addressed_union haddressed hnew, fun _ hheld => holds_union_left hP hheld hnew, leaves,
      hcollect, hroot.symm, holds_union_right (holds_snapshot hP hnodes), hsize⟩

theorem hasCode_reloadCode {code after : BTreeMap B256 Bytes} {account : Account}
    (h : reloadCode loadCode code account = .ok after) :
    HasCode after account.codeHash ∧ ∀ codeHash, HasCode code codeHash →
    HasCode after codeHash := by
  unfold reloadCode at h
  split at h
  · rename_i hempty
    cases h
    exact ⟨.inl hempty, fun _ => id⟩
  · obtain ⟨loaded, _, h⟩ := bind_eq_ok.mp h
    cases loaded with
    | none => cases h
    | some body =>
      obtain ⟨hbody, h⟩ := check_bind_eq_ok.mp h
      cases h
      rw [rejectIf_eq_ok, not_not] at hbody
      exact ⟨.inr ⟨body, by rw [OrdMap.getElem?_insert, if_pos rfl], hbody⟩,
        fun _ hcode => hcode.insert hbody⟩

/-- An account leaf of a reloaded state: it decodes, its storage is built again and its code
is there. -/
structure Reloaded (P : Set Bytes) (store nodes : NodeStore) (code : BTreeMap B256 Bytes)
    (value : Bytes) (account : Account) (leaves : Leaves) : Prop where
  decodes : decodeAccount value = .ok account
  storage : Rebuilt P store nodes account.storageRoot leaves
  code : HasCode code account.codeHash

theorem reloaded_reloadAccounts (hP : Set.InjOn keccak256 P) {values : List Bytes}
    (hvalues : ∀ value ∈ values, ∀ account stored, decodeAccount value = .ok account →
      collectLeaves account.storageRoot store = .ok stored →
      ∀ e ∈ encodings stored, e ∈ P) :
    ∀ {found after : NodeStore × BTreeMap B256 Bytes}, Addressed P found.1 →
      reloadAccounts store loadCode values found = .ok after →
      Addressed P after.1 ∧ (∀ leaves, Holds P found.1 leaves → Holds P after.1 leaves) ∧
        (∀ codeHash, HasCode found.2 codeHash → HasCode after.2 codeHash) ∧
        ∀ value ∈ values, ∃ account leaves,
          Reloaded P store after.1 after.2 value account leaves := by
  induction values with
  | nil =>
    intro found after haddressed h
    cases h
    exact ⟨haddressed, fun _ => id, fun _ => id, fun value hmem => by cases hmem⟩
  | cons value rest ih =>
    intro found after haddressed h
    obtain ⟨account, haccount, h⟩ := bind_eq_ok.mp h
    obtain ⟨nodes, hnodes, h⟩ := bind_eq_ok.mp h
    obtain ⟨code, hcode, h⟩ := bind_eq_ok.mp h
    have hdecodes := ofState_eq_ok.mp haccount
    obtain ⟨haddressed', hheld, leaves, hstorage⟩ := rebuilt_reloadStorage hP haddressed
      (fun stored => hvalues value List.mem_cons_self account stored hdecodes) hnodes
    obtain ⟨hown, hgrown⟩ := hasCode_reloadCode hcode
    obtain ⟨hafter, hlater, hcodes, hrest⟩ :=
      ih (fun other hmem => hvalues other (List.mem_cons_of_mem _ hmem)) haddressed' h
    refine ⟨hafter, fun other h => hlater other (hheld other h),
      fun codeHash h => hcodes codeHash (hgrown codeHash h), ?_⟩
    intro other hmem
    rcases List.mem_cons.mp hmem with rfl | hmem
    · exact ⟨account, leaves, hdecodes,
        { hstorage with holds := hlater _ hstorage.holds }, hcodes _ hown⟩
    · exact hrest other hmem

/-- **Reloading.**  The tries of a reloaded state were collected from the store, and all their
nodes are in the state. -/
theorem fromPersisted_spec (hP : Set.InjOn keccak256 P)
    (hnodes : ∀ owner leaves, Stored root store owner leaves → ∀ e ∈ encodings leaves, e ∈ P)
    (h : fromPersisted root store loadCode = .ok state) :
    state.accounts.root = root ∧ Rebuilt P store state.trieNodes root state.accounts.leaves ∧
      Addressed P state.trieNodes ∧
      ∀ (key : B256) (value : Bytes), state.accounts.leaves[key]? = some value →
        ∃ account leaves,
          Reloaded P store state.trieNodes state.contractCode value account leaves := by
  obtain ⟨leaves, hcollect, h⟩ := bind_eq_ok.mp h
  obtain ⟨accounts, haccounts, h⟩ := bind_eq_ok.mp h
  obtain ⟨hchecked, h⟩ := check_bind_eq_ok.mp h
  obtain ⟨⟨nodes, code⟩, hreload, h⟩ := bind_eq_ok.mp h
  obtain ⟨extended, hextend, hstate⟩ := bind_eq_ok.mp h
  obtain ⟨rfl, hsize⟩ := build_eq_ok (ofState_eq_ok.mp haccounts)
  obtain ⟨hroot, hleaves⟩ := extendNodes_eq_ok (ofState_eq_ok.mp hextend)
  rw [rejectIf_eq_ok, not_not] at hchecked
  have hcollected := ofState_eq_ok.mp hcollect
  have hown := hnodes none leaves (.accounts hcollected)
  obtain ⟨haddressed, hheld, _, hreloaded⟩ := reloaded_reloadAccounts hP
    (fun value hvalue account stored hdecodes hstored => by
      obtain ⟨⟨key, value⟩, hmem, rfl⟩ := List.mem_map.mp hvalue
      exact hnodes (some key) stored (.storage hcollected
        (Std.ExtTreeMap.mem_toList_iff_getElem?_eq_some.mp hmem) hdecodes hstored))
    (addressed_snapshot hown) hreload
  cases hstate
  refine ⟨hroot.trans hchecked, ⟨?_, ?_, ?_, ?_⟩, haddressed, ?_⟩
  · rwa [hleaves]
  · rw [hleaves]
    exact hchecked.symm
  · rw [hleaves]
    exact hheld _ (holds_snapshot hP hown)
  · rwa [hleaves]
  · intro key value hvalue
    rw [hleaves] at hvalue
    exact hreloaded value (List.mem_map.mpr
      ⟨(key, value), Std.ExtTreeMap.mem_toList_iff_getElem?_eq_some.mpr hvalue, rfl⟩)

/-- A reloaded state resolves. -/
theorem resolvable_fromPersisted (hash : Hashing P keys)
    (hconfined : PersistedConfined P keys root store)
    (h : fromPersisted root store loadCode = .ok state) : Resolvable P keys state := by
  have hfits : ∀ {owner leaves}, Stored root store owner leaves → Fits keys leaves :=
    fun hstored => ⟨(hconfined.stored hstored).1.keys, (hconfined.stored hstored).2⟩
  obtain ⟨hroot, haccounts, haddressed, hreloaded⟩ :=
    fromPersisted_spec hash.injOn (fun _ _ hstored => (hconfined.stored hstored).1.nodes) h
  refine ⟨?_, haddressed, ?_⟩
  · rw [hroot]
    exact haccounts.resolves (hfits (.accounts haccounts.collect))
  · intro key value hvalue
    obtain ⟨account, leaves, hdecodes, hstorage, hcode⟩ := hreloaded key value hvalue
    exact ⟨account, leaves, hdecodes, hstorage.resolves
      (hfits (.storage haccounts.collect hvalue hdecodes hstorage.collect)), hcode⟩

/-! ## Runs -/

/-- States from genesis or a persisted root, and from paired changes to such states. -/
inductive Obtained (P : Set Bytes) (keys : Set B256) : ExecutionState → Prop
  | genesis {allocations : BTreeMap Address GenesisAccount} {state : ExecutionState} :
      GenesisConfined P keys allocations → fromGenesis allocations = .ok state →
      Obtained P keys state
  | persisted {root : B256} {store : NodeStore}
      {loadCode : B256 → Except EvmError (Option Bytes)} {state : ExecutionState} :
      PersistedConfined P keys root store → fromPersisted root store loadCode = .ok state →
      Obtained P keys state
  | applied {state after : ExecutionState} {changes : BTreeMap Address AccountChange} :
      Obtained P keys state → Confined P keys state changes.toList →
      (∀ change ∈ changes.toList, Paired state change.1 change.2) →
      state.applyChanges changes.toList = .ok after → Obtained P keys after

/-- Every such state resolves. -/
theorem Obtained.resolvable (hash : Hashing P keys) (h : Obtained P keys state) :
    Resolvable P keys state := by
  induction h with
  | genesis hconfined h => exact resolvable_fromGenesis hash hconfined h
  | persisted hconfined h => exact resolvable_fromPersisted hash hconfined h
  | applied _ hconfined hpaired h ih => exact (ih.applied hash hconfined hpaired h).1

/-- **Changes are updates of a map.**  They are applied unless a trie outgrows its limit.
Every account then reads as its change says, the new nodes resolve the account trie and the
storage of every account, and every code hash has its body. -/
theorem applyChanges_updates (hash : Hashing P keys) (h : Obtained P keys state)
    (changes : BTreeMap Address AccountChange) (hconfined : Confined P keys state changes.toList)
    (hpaired : ∀ change ∈ changes.toList, Paired state change.1 change.2) :
    ((∃ after, state.applyChanges changes.toList = .ok after) ↔ Sized state changes.toList) ∧
      ∀ after, state.applyChanges changes.toList = .ok after →
        (∀ address, toBytes address ∈ P → ReadsAs P state after address changes[address]?) ∧
        Trie.collectLeaves after.accounts.root after.trieNodes = .ok after.accounts.leaves ∧
        ∀ (key : B256) (value : Bytes), after.accounts.leaves[key]? = some value →
          ∃ account, decodeAccount value = .ok account ∧
            (∃ leaves, Trie.collectLeaves account.storageRoot after.trieNodes = .ok leaves) ∧
            HasCode after.contractCode account.codeHash := by
  have hstate := h.resolvable hash
  refine ⟨⟨fun ⟨after, hafter⟩ => sized_of_applyChanges hafter, fun hsized => ?_⟩, ?_⟩
  · obtain ⟨after, _, hafter, _⟩ := hstate.applyChanges_succeeds hash hconfined hpaired hsized
    exact ⟨after, hafter⟩
  · intro after hchanges
    obtain ⟨hafter, hreads⟩ := hstate.applied hash hconfined hpaired hchanges
    refine ⟨hreads, hafter.trie.collect hash, ?_⟩
    intro key value hvalue
    obtain ⟨account, leaves, hbacked⟩ := hafter.account key value hvalue
    exact ⟨account, hbacked.decodes, ⟨leaves, hbacked.storage.collect hash⟩, hbacked.code⟩

/-- Whether changes bring the bodies of their code hashes, or keep the code of the account. -/
def pairedOf (state : ExecutionState) (changes : List (Address × AccountChange)) : Bool :=
  changes.all fun change => match change.2.code with
    | some body => change.2.codeHash = keccak256 body
    | none => change.2.codeHash = KECCAK_EMPTY || match state.account change.1 with
      | .ok (some account) => change.2.codeHash = account.codeHash
      | _ => false

theorem paired_of_pairedOf {changes : List (Address × AccountChange)}
    (h : pairedOf state changes = true) : ∀ change ∈ changes, Paired state change.1 change.2 := by
  intro change hmem
  have hown := List.all_eq_true.mp h change hmem
  constructor
  · intro body hbody
    rw [hbody] at hown
    simpa using hown
  · intro hnone
    rw [hnone] at hown
    simp only [Bool.or_eq_true, decide_eq_true_eq] at hown
    refine hown.imp id fun hkept => ?_
    split at hkept
    · rename_i account haccount
      exact ⟨account, haccount, by simpa using hkept⟩
    · cases hkept

end Obtained

section Sample

attribute [local instance] scatteringKeccak

def heldAllocations : BTreeMap Address GenesisAccount :=
  ((∅ : BTreeMap Address GenesisAccount).insert 0xc0de
    ⟨1, 7, [0x60, 0x00], (∅ : BTreeMap U256 U256).insert 3 5⟩).insert 0xdead ⟨0, 9, [], ∅⟩

def heldState : ExecutionState :=
  (fromGenesis heldAllocations).toOption.getD ⟨⟨0, ∅, ∅⟩, ∅, ∅, ∅⟩

def heldChanges : BTreeMap Address AccountChange :=
  (((∅ : BTreeMap Address AccountChange).insert 0xc0de
    ⟨1, 8, keccak256 [0x60, 0x00], none,
      ((∅ : BTreeMap U256 (U256 × U256)).insert 3 (5, 0)).insert 4 (0, 6), true, false,
      false⟩).insert
    0xdead ⟨0, 0, KECCAK_EMPTY, none, ∅, true, false, true⟩).insert
    0xbeef ⟨1, 0, keccak256 [0x61], some [0x61], ∅, true, true, false⟩

def heldAfter : ExecutionState :=
  (heldState.applyChanges heldChanges.toList).toOption.getD ⟨⟨0, ∅, ∅⟩, ∅, ∅, ∅⟩

/-- What is hashed, under its hashes. -/
def heldStore : NodeStore :=
  Trie.storeAll (heldState.trieNodes ∪ heldAfter.trieNodes)
    ([[0x80], toBytes (3 : U256), toBytes (4 : U256)] ++
      [(0xc0de : Address), 0xdead, 0xbeef].map toBytes)

def heldKeys : List B256 :=
  [Trie.secureAccountKey 0xc0de, Trie.secureAccountKey 0xdead, Trie.secureAccountKey 0xbeef,
    Trie.secureStorageKey 3, Trie.secureStorageKey 4]

theorem applyChanges_updates_held : ∃ after, heldState.applyChanges heldChanges.toList = .ok after ∧
      ReadsAs (nodesOf heldStore) heldState after 0xc0de heldChanges[(0xc0de : Address)]? ∧
      ReadsAs (nodesOf heldStore) heldState after 0xdead heldChanges[(0xdead : Address)]? := by
  have hgenesis : (fromGenesis heldAllocations).isOk = true := by decide +kernel
  have hconfined : genesisConfinedOf heldStore heldKeys heldAllocations = true := by decide +kernel
  have hchanges : confinedOf heldStore heldKeys heldState heldChanges.toList = true := by
    decide +kernel
  have happlied : (heldState.applyChanges heldChanges.toList).isOk = true := by decide +kernel
  have hash : Hashing (nodesOf heldStore) {key | key ∈ heldKeys} :=
    ⟨injOn_nodesOf heldStore, inStore_iff.mp (by decide +kernel),
      spread_of_spreadOf (by decide +kernel)⟩
  have hobtained : Obtained (nodesOf heldStore) {key | key ∈ heldKeys} heldState :=
    .genesis (genesisConfined_of_genesisConfinedOf hconfined) (eq_ok_of_isOk hgenesis _)
  have hafter := eq_ok_of_isOk happlied ⟨⟨0, ∅, ∅⟩, ∅, ∅, ∅⟩
  have hreads := ((applyChanges_updates hash hobtained heldChanges (confined_of_confinedOf hchanges)
    (paired_of_pairedOf (by decide +kernel))).2 _ hafter).1
  exact ⟨_, hafter, hreads 0xc0de (inStore_iff.mp (by decide +kernel)),
    hreads 0xdead (inStore_iff.mp (by decide +kernel))⟩

end Sample

end ExecutionState

end Arbor
