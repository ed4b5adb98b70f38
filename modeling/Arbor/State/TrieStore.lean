import Arbor.State.Account
import Arbor.State.TrieBuild

/-!
# Content-addressed stores and account leaves

A store whose nodes stand under their hashes can be joined with another without losing a
node, as long as the hash has no collisions on the nodes in play (`Hashing`).  Account
leaves and storage words are read back as they were written, and a root is walked back to
its leaves in every store that holds them (`collectLeaves_of_holds`).
-/

namespace Arbor

open Result BigEndian Trie Rlp List

/-! ## Fields of leaves -/

theorem decodeUint_digits {w : Nat} (hw : 8 ∣ w) (overflow : String) (x : BitVec w) :
    decodeUint w overflow (digits (w / 8) x.toNat) = .ok x := by
  have hlt : x.toNat < 256 ^ (w / 8) := by
    rw [pow_256, Nat.mul_div_cancel' hw]
    exact x.isLt
  have hhead := head?_digits_ne_zero (w / 8) x.toNat
  have hshort : ¬w / 8 < (digits (w / 8) x.toNat).length :=
    Nat.not_lt.mpr (length_digits_le _ _)
  rw [decodeUint, rejectIf_neg hhead, rejectIf_neg hshort, beNat_digits hlt, BitVec.ofNat_toNat,
    BitVec.setWidth_eq]
  rfl

theorem decodeHash_toBytes (field : String) (x : B256) : decodeHash field (toBytes x) = .ok x := by
  rw [decodeHash, ofBytes_toBytes (by decide)]
  rfl

theorem decodeStorageTrieValue_encodeUint {word : U256} (hne : word ≠ 0) :
    decodeStorageTrieValue (encodeUint word) = .ok word := by
  have hread := decodeStorageTrieValue_storageTrieValue hne
  rw [storageTrieValue, if_neg hne] at hread
  exact Option.some.inj hread

/-- The leaf of a word is short. -/
theorem length_storageTrieValue_lt {word : U256} {value : Bytes}
    (h : storageTrieValue word = some value) : value.length < Tree.VALUE_LIMIT := by
  have hdigits := length_digits_le (256 / 8) word.toNat
  have hencode := Tree.length_encodeString_le (digits (256 / 8) word.toNat)
  have hlimit : 41 < Tree.VALUE_LIMIT := by decide
  unfold storageTrieValue at h
  split at h
  · cases h
  · cases h
    change (encodeString (digits (256 / 8) word.toNat)).length < _
    omega

/-! ## Accounts -/

def accountFields (account : Account) : List Bytes :=
  [Rlp.digits (64 / 8) account.nonce.toNat, Rlp.digits (256 / 8) account.balance.toNat,
    toBytes account.storageRoot, toBytes account.codeHash]

variable (account : Account)

theorem length_accountFields : ∀ payload ∈ accountFields account, payload.length ≤ 32 := by
  have hnonce := length_digits_le (64 / 8) account.nonce.toNat
  have hbalance := length_digits_le (256 / 8) account.balance.toNat
  intro payload hmem
  simp only [accountFields, mem_cons, not_mem_nil, or_false] at hmem
  rcases hmem with rfl | rfl | rfl | rfl
  · omega
  · omega
  · simp
  · simp

theorem length_encodeAccount_lt : ((accountFields account).flatMap encodeString).length < 200 := by
  have hfields : ∀ payload ∈ accountFields account, (encodeString payload).length ≤ 41 := by
    intro payload hmem
    have hle := Tree.length_encodeString_le payload
    have hshort := length_accountFields account payload hmem
    omega
  simp only [accountFields, mem_cons, not_mem_nil, or_false, forall_eq_or_imp, forall_eq] at hfields
  simp only [accountFields, flatMap_cons, flatMap_nil, append_nil, length_append]
  omega

/-- **Accounts are read back.** -/
theorem decodeAccount_encodeAccount : decodeAccount (encodeAccount account) = .ok account := by
  have hencode : encodeAccount account
      = encodeList ((accountFields account).flatMap encodeString) := by
    simp [encodeAccount, accountFields, encodeUint]
  have hlist := decodeRlpList_strings
    (lt_trans (length_encodeAccount_lt account) (by decide))
    fun payload hmem => lt_of_le_of_lt (length_accountFields account payload hmem) (by decide)
  have hnonce := decodeUint_digits (w := 64) (by decide) "u64 overflow" account.nonce
  have hbalance := decodeUint_digits (w := 256) (by decide) "U256 overflow" account.balance
  rw [decodeAccount, hencode, hlist]
  simp [accountFields, hnonce, hbalance, decodeHash_toBytes]

/-! ## Stores -/

section Stores

variable [Keccak]

variable {leaves : Leaves} {a b : NodeStore}

/-- What is assumed of the hash: no collisions among the strings `P` in play, which are trie
nodes, addresses and slots, and trie keys that differ in their first and last 32 nibbles. -/
structure Hashing (P : Set Bytes) (keys : Set B256) : Prop where
  injOn : Set.InjOn keccak256 P
  empty : Rlp.encodeString [] ∈ P
  spread : Trie.Spread keys

section Hashing

variable {P : Set Bytes} {keys : Set B256}

theorem Hashing.account_inj (hash : Hashing P keys) {a b : Address} (ha : toBytes a ∈ P)
    (hb : toBytes b ∈ P) (h : secureAccountKey a = secureAccountKey b) : a = b :=
  toBytes_injective (by decide) (hash.injOn ha hb h)

theorem Hashing.slot_inj (hash : Hashing P keys) {a b : U256} (ha : toBytes a ∈ P)
    (hb : toBytes b ∈ P) (h : secureStorageKey a = secureStorageKey b) : a = b :=
  toBytes_injective (by decide) (hash.injOn ha hb h)

end Hashing

/-- Leaves under keys in play whose snapshot has nodes in play. -/
structure Built (P : Set Bytes) (keys : Set B256) (leaves : Leaves) : Prop where
  nodes : ∀ e ∈ Trie.encodings leaves, e ∈ P
  keys : ∀ (key : B256) (value : Bytes), leaves[key]? = some value → key ∈ keys

/-- The nodes a store has under their hashes. -/
def nodesOf (store : NodeStore) : Set Bytes := {e | store[keccak256 e]? = some e}

theorem injOn_nodesOf (store : NodeStore) : Set.InjOn keccak256 (nodesOf store) := by
  intro a ha b hb h
  have hsame : store[keccak256 a]? = some b := by
    rw [h]
    exact hb
  exact Option.some.inj (Eq.trans (Eq.symm ha) hsame)

/-- Whether a string is in play as an entry of a store. -/
def inStore (store : NodeStore) (bytes : Bytes) : Bool := store[keccak256 bytes]? = some bytes

theorem inStore_iff {store : NodeStore} {bytes : Bytes} :
    inStore store bytes = true ↔ bytes ∈ nodesOf store := decide_eq_true_iff

/-- Whether leaves stand under listed keys and their snapshot has nodes of a store. -/
def builtOf (store : NodeStore) (keys : List B256) (leaves : Leaves) : Bool :=
  (Trie.encodings leaves).all (inStore store) &&
    leaves.toList.all fun leaf => leaf.1 ∈ keys

theorem built_of_builtOf {store : NodeStore} {keys : List B256}
    (h : builtOf store keys leaves = true) : Built (nodesOf store) {key | key ∈ keys} leaves := by
  simp only [builtOf, Bool.and_eq_true, all_eq_true, inStore_iff, decide_eq_true_eq] at h
  exact ⟨h.1, fun key value hvalue =>
    h.2 (key, value) (Std.ExtTreeMap.mem_toList_iff_getElem?_eq_some.mpr hvalue)⟩

/-- Every node stands under its hash. -/
def Addressed (P : Set Bytes) (nodes : NodeStore) : Prop :=
  ∀ (hash : B256) (e : Bytes), nodes[hash]? = some e → e ∈ P ∧ hash = keccak256 e

/-- A store has the nodes of the snapshot of some leaves. -/
def Holds (P : Set Bytes) (nodes : NodeStore) (leaves : Leaves) : Prop :=
  ∀ e ∈ Trie.encodings leaves, e ∈ P ∧ nodes[keccak256 e]? = some e

variable {P : Set Bytes} {keys : Set B256}

theorem addressed_empty : Addressed P ∅ := by
  intro hash e h
  cases h

theorem addressed_union (ha : Addressed P a) (hb : Addressed P b) : Addressed P (a ∪ b) := by
  intro hash e h
  rw [Std.ExtTreeMap.getElem?_union] at h
  cases hright : b[hash]? with
  | none =>
    rw [hright] at h
    exact ha hash e h
  | some e' =>
    rw [hright] at h
    exact hb hash e (hright.trans h)

theorem holds_union_right (hb : Holds P b leaves) : Holds P (a ∪ b) leaves := by
  intro e he
  obtain ⟨heP, hstored⟩ := hb e he
  refine ⟨heP, ?_⟩
  rw [Std.ExtTreeMap.getElem?_union, hstored, Option.some_or]

/-- Joining an addressed store loses no node. -/
theorem holds_union_left (hP : Set.InjOn keccak256 P) (ha : Holds P a leaves)
    (hb : Addressed P b) : Holds P (a ∪ b) leaves := by
  intro e he
  obtain ⟨heP, hstored⟩ := ha e he
  refine ⟨heP, ?_⟩
  rw [Std.ExtTreeMap.getElem?_union]
  cases hright : b[keccak256 e]? with
  | none => rw [Option.none_or, hstored]
  | some e' =>
    obtain ⟨he'P, hsame⟩ := hb _ e' hright
    rw [Option.some_or, hP heP he'P hsame]

theorem addressed_storeAll {l : List Bytes} (hl : ∀ e ∈ l, e ∈ P) :
    ∀ {nodes : NodeStore}, Addressed P nodes → Addressed P (storeAll nodes l) := by
  induction l with
  | nil =>
    intro nodes h
    exact h
  | cons a l ih =>
    intro nodes h
    refine ih (fun e he => hl e (mem_cons_of_mem _ he)) ?_
    intro hash e hmem
    rw [OrdMap.getElem?_insert] at hmem
    split at hmem
    · rename_i hhash
      cases hmem
      exact ⟨hl a mem_cons_self, hhash.symm⟩
    · exact h hash e hmem

theorem addressed_snapshot (hP : ∀ e ∈ encodings leaves, e ∈ P) :
    Addressed P (snapshot leaves).nodes :=
  addressed_storeAll hP addressed_empty

theorem holds_snapshot (hP : Set.InjOn keccak256 P) (hnodes : ∀ e ∈ encodings leaves, e ∈ P) :
    Holds P (snapshot leaves).nodes leaves := by
  intro e he
  refine ⟨hnodes e he, ?_⟩
  change (storeAll ∅ (encodings leaves))[keccak256 e]? = some e
  rw [getElem?_storeAll hP hnodes (hnodes e he), if_pos he]

theorem collectLeaves_of_holds (hash : Hashing P keys) {nodes : NodeStore}
    (hfits : Fits keys leaves) (hholds : Holds P nodes leaves) :
    collectLeaves (snapshot leaves).root nodes = .ok leaves :=
  collectLeaves_snapshot hash.injOn hash.empty hash.spread hfits hholds

end Stores

/-! ## Walks over larger stores -/

namespace Trie

variable {store store' : NodeStore}

/-- A store that holds every node of another. -/
def Extends (store store' : NodeStore) : Prop :=
  ∀ (hash : B256) (bytes : Bytes), store[hash]? = some bytes → store'[hash]? = some bytes

theorem Extends.size_le (h : Extends store store') : store.size ≤ store'.size := by
  have hsub : store.toList ⊆ store'.toList := by
    rintro ⟨hash, bytes⟩ hmem
    rw [Std.ExtTreeMap.mem_toList_iff_getElem?_eq_some] at hmem ⊢
    exact h hash bytes hmem
  have hnodup : store.toList.Nodup := Nodup.of_map _ (OrdMap.nodup_keys store)
  have hle := (hnodup.subperm hsub).length_le
  rwa [Std.ExtTreeMap.length_toList, Std.ExtTreeMap.length_toList] at hle

section Related

variable {ρ : ∀ ⦃α : Type⦄, Except StateError α → Except StateError α → Prop} (hρ : Sequential ρ)
include hρ

theorem walkChildren_related
    {walk walk' : ChildReference → List Nibble → Walked → Except StateError Walked}
    (hwalk : ∀ child path found, ρ (walk child path found) (walk' child path found))
    (path : List Nibble) (children : List (Option ChildReference)) (nibble : Nat) (found : Walked) :
    ρ (walkChildren walk path nibble children found)
      (walkChildren walk' path nibble children found) := by
  induction children generalizing nibble found with
  | nil => exact hρ.refl _
  | cons child rest ih =>
    cases child with
    | none => exact ih (nibble + 1) found
    | some child => exact hρ.bind (hwalk child _ found) fun found => ih (nibble + 1) found

variable [Keccak] (hload : ∀ hash, ρ (loadHashed store hash) (loadHashed store' hash))
include hload

theorem walkChild_related {walk walk' : Bytes → List Nibble → Walked → Except StateError Walked}
    (hwalk : ∀ encoded path found, ρ (walk encoded path found) (walk' encoded path found))
    (child : ChildReference) (path : List Nibble) (found : Walked) :
    ρ (walkChild walk store child path found) (walkChild walk' store' child path found) := by
  cases child with
  | embedded encoded => exact hwalk encoded path found
  | hash hash =>
    unfold walkChild
    by_cases hvisited : hash ∈ found.visited
    · simp only [if_pos hvisited]
      exact hρ.refl _
    · simp only [if_neg hvisited]
      exact hρ.bind (hload hash) fun encoded => hwalk encoded _ _

theorem walkNode_related {fuel fuel' : Nat} (hfuel : fuel ≤ fuel')
    (encoded : Bytes) (path : List Nibble) (found : Walked) :
    ρ (walkNode store fuel encoded path found) (walkNode store' fuel' encoded path found) := by
  induction fuel generalizing fuel' encoded path found with
  | zero => exact hρ.error _ _
  | succ fuel ih =>
    obtain ⟨fuel', rfl⟩ : ∃ m, fuel' = m + 1 := ⟨fuel' - 1, by omega⟩
    have hchild := walkChild_related hρ hload (ih (Nat.le_of_succ_le_succ hfuel))
    refine hρ.bind (hρ.refl _) fun node => ?_
    cases node with
    | leaf suffix value => exact hρ.refl _
    | extension extension child => exact hchild child _ found
    | branch children =>
      by_cases hdepth : SECURE_KEY_NIBBLES ≤ path.length
      · simp only [if_pos hdepth]
        exact hρ.refl _
      · simp only [if_neg hdepth]
        exact walkChildren_related hρ hchild path children 0 found

theorem collectLeaves_related (hsize : store.size ≤ store'.size) (root : B256) :
    ρ (collectLeaves root store) (collectLeaves root store') := by
  unfold collectLeaves
  by_cases hroot : root = EMPTY_ROOT_HASH
  · simp only [if_pos hroot]
    exact hρ.refl _
  · simp only [if_neg hroot]
    refine hρ.bind (hload root) fun encoded => ?_
    exact hρ.bind (walkNode_related hρ hload (by omega) encoded [] _) fun found => hρ.refl _

end Related

variable [Keccak]

theorem loadHashed_carries (h : Extends store store') (hash : B256) :
    Carries (loadHashed store hash) (loadHashed store' hash) := by
  intro encoded hload
  unfold loadHashed at hload ⊢
  cases hget : store[hash]? with
  | none =>
    rw [hget] at hload
    cases hload
  | some bytes =>
    rw [hget] at hload
    rw [h hash bytes hget]
    exact hload

theorem collectLeaves_carries (h : Extends store store') (root : B256) :
    Carries (collectLeaves root store) (collectLeaves root store') :=
  collectLeaves_related sequential_carries (loadHashed_carries h) h.size_le root

end Trie

end Arbor
