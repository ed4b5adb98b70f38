import Arbor.Evm.StateChanges
import Arbor.State.TrieRoot

/-!
# States that resolve

A reloaded state may hold account leaves and storage values that this code would not have
written: it is only known that the accounts decode, that every storage root resolves in the
state's nodes and that every contract body is there.  That much (`ExecutionState.Resolvable`)
is enough for applying changes: where no trie outgrows its limit they succeed, the state
after them resolves again, and it reads as the changes say.
-/

namespace Arbor

open Result Trie Std OrdMap

section Resolves

variable [Keccak] {P : Set Bytes} {keys : Set B256}

/-- Among nodes in play a root stands for its leaves. -/
theorem Hashing.leaves_eq (hash : Hashing P keys) {a b : Leaves} (ha : Vectors a) (hb : Vectors b)
    (haP : ∀ e ∈ encodings a, e ∈ P) (hbP : ∀ e ∈ encodings b, e ∈ P)
    (hroot : (snapshot a).root = (snapshot b).root) : a = b := by
  have hroots {leaves : Leaves} (hP : ∀ e ∈ encodings leaves, e ∈ P) :
      ∀ e ∈ rootPreimages leaves, e ∈ P := List.forall_mem_cons.mpr ⟨hash.empty, hP⟩
  exact eq_of_snapshot_root ha hb
    (hash.injOn.mono fun e he => he.elim (hroots haP e) (hroots hbP e)) hroot

/-- A root stands for leaves of which a store has all nodes. -/
structure Resolves (P : Set Bytes) (keys : Set B256) (nodes : NodeStore) (root : B256)
    (leaves : Leaves) : Prop where
  fits : Trie.Fits keys leaves
  root_eq : root = (Trie.snapshot leaves).root
  holds : Holds P nodes leaves
  size : leaves.size < 2 ^ 32

namespace Resolves

variable {nodes nodes' : NodeStore} {root : B256} {leaves leaves' : Leaves}

theorem collect (hash : Hashing P keys) (h : Resolves P keys nodes root leaves) :
    collectLeaves root nodes = .ok leaves := by
  rw [h.root_eq]
  exact collectLeaves_of_holds hash h.fits h.holds

/-- **Building.**  The snapshot of secure leaves. -/
theorem build (hash : Hashing P keys) (h : Resolves P keys nodes root leaves) :
    build leaves = .ok (snapshot leaves) :=
  build_succeeds hash.spread h.fits h.size

theorem mono (h : Resolves P keys nodes root leaves) (hholds : Holds P nodes' leaves) :
    Resolves P keys nodes' root leaves :=
  ⟨h.fits, h.root_eq, hholds, h.size⟩

/-- A root stands for the same leaves in every store. -/
theorem unique (hash : Hashing P keys) (h : Resolves P keys nodes root leaves)
    (h' : Resolves P keys nodes' root leaves') : leaves = leaves' :=
  hash.leaves_eq h.fits.short h'.fits.short (fun e he => (h.holds e he).1)
    (fun e he => (h'.holds e he).1) (h.root_eq.symm.trans h'.root_eq)

theorem eq_empty (hash : Hashing P keys) (h : Resolves P keys nodes EMPTY_ROOT_HASH leaves) :
    leaves = ∅ := by
  have hcollect := h.collect hash
  rw [collectLeaves, if_pos rfl] at hcollect
  exact (Except.ok.inj hcollect).symm

end Resolves

/-- The word of a slot in storage leaves, as it is read. -/
def readLeaf (leaves : Leaves) (slot : U256) : Except EvmError U256 :=
  match leaves[Trie.secureStorageKey slot]? with
  | none => .ok 0
  | some value => ofState (decodeStorageTrieValue value)

theorem readLeaf_empty (slot : U256) : readLeaf ∅ slot = .ok 0 := by
  rw [readLeaf, ExtTreeMap.getElem?_empty]

/-- A written word is read back. -/
theorem readLeaf_written {leaves : Leaves} {slot word : U256}
    (h : leaves[secureStorageKey slot]? = storageTrieValue word) :
    readLeaf leaves slot = .ok word := by
  rw [readLeaf, h, storageTrieValue]
  by_cases hzero : word = 0
  · rw [if_pos hzero, hzero]
  · simp only [if_neg hzero, decodeStorageTrieValue_encodeUint hzero]
    rfl

omit [Keccak] in
theorem short_encodeAccount (account : Account) :
    (encodeAccount account).length < Tree.VALUE_LIMIT := by
  have hencode : encodeAccount account
      = Rlp.encodeList ((accountFields account).flatMap Rlp.encodeString) := by
    simp [encodeAccount, accountFields, Rlp.encodeUint]
  have hfields := length_encodeAccount_lt account
  have hheader := (length_encodeLength_le 0xc0
    ((accountFields account).flatMap Rlp.encodeString).length).2
  have hlimit : 209 < Tree.VALUE_LIMIT := by decide
  rw [hencode, Rlp.encodeList, Rlp.listHeader, List.length_append]
  omega

end Resolves

/-- What a slot reads after a change, from what it read before. -/
def AccountChange.read (change : AccountChange) (before : U256 → Except EvmError U256)
    (slot : U256) : Except EvmError U256 :=
  let kept := if change.created then .ok 0 else before slot
  match change.storage[slot]? with
  | some (original, present) => if original ≠ present then .ok present else kept
  | none => kept

namespace ExecutionState

section Resolvable

variable [Keccak] {P : Set Bytes} {keys : Set B256}

variable {address : Address} {change : AccountChange} {code : BTreeMap B256 Bytes}
  {applying : Applying} {changes : List (Address × AccountChange)} {after : ExecutionState}

/-- The code map has the body of a code hash. -/
def HasCode (code : BTreeMap B256 Bytes) (codeHash : B256) : Prop :=
  codeHash = KECCAK_EMPTY ∨ ∃ body, code[codeHash]? = some body ∧ keccak256 body = codeHash

/-- An account leaf decodes, its storage resolves, and its code is there. -/
structure Backed (P : Set Bytes) (keys : Set B256) (nodes : NodeStore) (code : BTreeMap B256 Bytes)
    (value : Bytes) (account : Account) (leaves : Leaves) : Prop where
  decodes : decodeAccount value = .ok account
  storage : Resolves P keys nodes account.storageRoot leaves
  code : HasCode code account.codeHash

/-- **States that resolve.**  The nodes of the account trie and of every storage trie are in
the state, and so are the bodies of all contracts. -/
structure Resolvable (P : Set Bytes) (keys : Set B256) (state : ExecutionState) : Prop where
  trie : Resolves P keys state.trieNodes state.accounts.root state.accounts.leaves
  addressed : Addressed P state.trieNodes
  account : ∀ (key : B256) (value : Bytes), state.accounts.leaves[key]? = some value →
    ∃ account leaves, Backed P keys state.trieNodes state.contractCode value account leaves

variable {state : ExecutionState} {account : Account}

theorem account_of_decodes {value : Bytes}
    (hleaf : state.accounts.leaves[secureAccountKey address]? = some value)
    (hdecodes : decodeAccount value = .ok account) :
    state.account address = .ok (some account) := by
  simp only [ExecutionState.account, hleaf, hdecodes]
  rfl

/-- The account at an address: none, or one that is backed. -/
theorem Resolvable.account_cases (h : Resolvable P keys state) (address : Address) :
    (state.accounts.leaves[secureAccountKey address]? = none ∧
        state.account address = .ok none) ∨
      ∃ value account leaves, state.accounts.leaves[secureAccountKey address]? = some value ∧
        state.account address = .ok (some account) ∧
        Backed P keys state.trieNodes state.contractCode value account leaves := by
  cases hleaf : state.accounts.leaves[secureAccountKey address]? with
  | none => exact .inl ⟨rfl, account_of_no_leaf hleaf⟩
  | some value =>
    obtain ⟨account, leaves, hbacked⟩ := h.account _ _ hleaf
    exact .inr ⟨value, account, leaves, rfl, account_of_decodes hleaf hbacked.decodes, hbacked⟩

/-- A slot is read from the leaves of its storage root. -/
theorem storage_of_collect {leaves : Leaves} (haccount : state.account address = .ok (some account))
    (hcollect : collectLeaves account.storageRoot state.trieNodes = .ok leaves) (slot : U256) :
    state.storage address slot = readLeaf leaves slot := by
  rw [ExecutionState.storage, haccount, ok_bind]
  by_cases hempty : account.storageRoot = EMPTY_ROOT_HASH
  · rw [collectLeaves, if_pos hempty] at hcollect
    cases hcollect
    simp only [if_pos hempty, readLeaf_empty, pure_eq]
  · simp only [if_neg hempty, hcollect, ofState, mapError_ok, ok_bind, readLeaf]
    cases leaves[secureStorageKey slot]? <;> rfl

/-- Storage whose values are words is read at every slot. -/
theorem readable_of_collect {leaves : Leaves}
    (haccount : state.account address = .ok (some account))
    (hcollect : collectLeaves account.storageRoot state.trieNodes = .ok leaves)
    (hwords : (leaves.toList.all fun leaf => (decodeStorageTrieValue leaf.2).isOk) = true)
    (slot : U256) : ∃ word, state.storage address slot = .ok word := by
  rw [storage_of_collect haccount hcollect, readLeaf]
  cases hleaf : leaves[secureStorageKey slot]? with
  | none => exact ⟨0, rfl⟩
  | some value =>
    have hword := List.all_eq_true.mp hwords
        _ (ExtTreeMap.mem_toList_iff_getElem?_eq_some.mpr hleaf)
    exact ⟨_, ofState_eq_ok.mpr (eq_ok_of_isOk hword 0)⟩

/-- A slot reads as the leaf of its storage trie. -/
theorem storage_of_resolves (hash : Hashing P keys) {leaves : Leaves}
    (haccount : state.account address = .ok (some account))
    (hstorage : Resolves P keys state.trieNodes account.storageRoot leaves) (slot : U256) :
    state.storage address slot = readLeaf leaves slot :=
  storage_of_collect haccount (hstorage.collect hash) slot

/-! ## Changed storage -/

theorem readLeaf_writeSlots (hash : Hashing P keys)
    (hslots : ∀ slot ∈ change.changedStorageSlots, toBytes slot.1 ∈ P) {base : Leaves}
    {before : U256 → Except EvmError U256}
    (hreads : ∀ slot, readLeaf base slot = if change.created then .ok 0 else before slot)
    {slot : U256} (hslot : toBytes slot ∈ P) :
    readLeaf (change.changedStorageSlots.foldl writeSlot base) slot = change.read before slot := by
  rcases getElem?_writeSlots hash hslots base (secureStorageKey slot) with
    ⟨slot', present, hmem, hkey, hleaf⟩ | ⟨hnot, hleaf⟩
  · cases hash.slot_inj hslot (hslots _ hmem) hkey
    obtain ⟨original, hstored, hne⟩ := AccountChange.mem_changedStorageSlots.mp hmem
    rw [readLeaf_written hleaf, AccountChange.read, hstored]
    simp only [if_pos hne]
  · have hkept : change.read before slot = if change.created then .ok 0 else before slot := by
      rw [AccountChange.read]
      cases hstored : change.storage[slot]? with
      | none => rfl
      | some words =>
        obtain ⟨original, present⟩ := words
        have hsame : ¬original ≠ present := fun hne =>
          hnot slot present (AccountChange.mem_changedStorageSlots.mpr ⟨original, hstored, hne⟩) rfl
        simp only [if_neg hsame]
    rw [hkept, ← hreads slot, readLeaf, readLeaf, hleaf]

theorem vectors_writeSlots (change : AccountChange) {base : Leaves}
    (hbase : Vectors base) : Vectors (change.changedStorageSlots.foldl writeSlot base) := by
  intro key value hvalue
  rw [show writeSlot = _ from funext₂ writeSlot_eq] at hvalue
  rcases of_getElem?_writes _ _ hvalue with hold | ⟨slot, _, hword⟩
  · exact hbase key value hold
  · exact length_storageTrieValue_lt hword

omit [Keccak] in
theorem vectors_empty : Vectors ∅ := by
  intro key value hvalue
  cases hvalue

/-- The storage leaves that a change starts from: the account's, or none if it is created. -/
def storedLeaves (state : ExecutionState) (address : Address) (change : AccountChange) : Leaves :=
  if change.created then ∅
  else ((state.readAccount address).bind fun account =>
    (collectLeaves account.storageRoot state.trieNodes).toOption).getD ∅

theorem Resolvable.changedLeaves_eq (hash : Hashing P keys) (h : Resolvable P keys state)
    (address : Address) (change : AccountChange) : ∃ base, state.changedLeaves address change
        = .ok (change.changedStorageSlots.foldl writeSlot base) ∧
      Vectors base ∧
      (∀ slot, readLeaf base slot
        = if change.created then .ok 0 else state.storage address slot) ∧
      base = state.storedLeaves address change := by
  have hstart {old : Option Account} (hold : state.account address = .ok old)
      (hnone : change.created ∨ (old.getD Account.default).storageRoot = EMPTY_ROOT_HASH) :
      state.changedLeaves address change = .ok (change.changedStorageSlots.foldl writeSlot ∅) := by
    rw [changedLeaves, hold]
    simp only [if_pos hnone, pure_eq, ok_bind]
  by_cases hcreated : change.created = true
  · obtain ⟨old, hold⟩ : ∃ old, state.account address = .ok old := by
      rcases h.account_cases address with ⟨_, hnone⟩ | ⟨_, account, _, _, haccount, _⟩
      · exact ⟨none, hnone⟩
      · exact ⟨some account, haccount⟩
    refine ⟨∅, hstart hold (.inl hcreated), vectors_empty, fun slot => ?_, (if_pos hcreated).symm⟩
    rw [readLeaf_empty, if_pos hcreated]
  · simp only [storedLeaves, readAccount, if_neg hcreated]
    rcases h.account_cases address with ⟨_, hnone⟩ | ⟨value, account, leaves, _, haccount, hbacked⟩
    · refine ⟨∅, hstart hnone (.inr rfl), vectors_empty, fun slot => ?_, ?_⟩
      · rw [readLeaf_empty, storage_of_none hnone]
      · rw [hnone]
        rfl
    · have hreads : ∀ slot, readLeaf leaves slot = state.storage address slot := fun slot =>
        (storage_of_resolves hash haccount hbacked.storage slot).symm
      have hcollect := hbacked.storage.collect hash
      have hstored : leaves = ((state.account address).toOption.bind id |>.bind fun account =>
          (collectLeaves account.storageRoot state.trieNodes).toOption).getD ∅ := by
        rw [haccount]
        change leaves = (collectLeaves account.storageRoot state.trieNodes).toOption.getD ∅
        rw [hcollect]
        rfl
      by_cases hroot : account.storageRoot = EMPTY_ROOT_HASH
      · have hnone : leaves = ∅ := Resolves.eq_empty hash (hroot ▸ hbacked.storage)
        rw [hnone] at hreads hstored
        exact ⟨∅, hstart haccount (.inr hroot), vectors_empty, hreads, hstored⟩
      · refine ⟨leaves, ?_, hbacked.storage.fits.short, hreads, hstored⟩
        rw [changedLeaves, haccount]
        have hnot : ¬(change.created = true ∨ account.storageRoot = EMPTY_ROOT_HASH) :=
          not_or.mpr ⟨hcreated, hroot⟩
        simp only [Option.getD_some, if_neg hnot, hcollect, ofState, mapError_ok, ok_bind, pure_eq]

/-! ## Code -/

/-- A change brings the body of its code hash, or keeps the code of the account. -/
structure Paired (state : ExecutionState) (address : Address) (change : AccountChange) : Prop where
  body : ∀ body, change.code = some body → change.codeHash = keccak256 body
  kept : change.code = none → change.codeHash = KECCAK_EMPTY ∨
    ∃ account, state.account address = .ok (some account) ∧ change.codeHash = account.codeHash

theorem HasCode.insert {codeHash other : B256} {body : Bytes} (h : HasCode code codeHash)
    (hbody : keccak256 body = other) : HasCode (code.insert other body) codeHash := by
  rcases h with hempty | ⟨found, hfound, hhash⟩
  · exact .inl hempty
  · refine .inr ?_
    by_cases hsame : other = codeHash
    · exact ⟨body, by rw [getElem?_insert, if_pos hsame], hbody.trans hsame⟩
    · exact ⟨found, by rw [getElem?_insert, if_neg hsame, hfound], hhash⟩

theorem changedCode_paired (hpaired : Paired state address change)
    (hold : change.code = none → HasCode code change.codeHash) :
    ∃ after, changedCode code change = .ok after ∧ HasCode after change.codeHash ∧
      ∀ codeHash, HasCode code codeHash → HasCode after codeHash := by
  unfold changedCode
  cases hcode : change.code with
  | none => exact ⟨code, rfl, hold hcode, fun _ => id⟩
  | some body =>
    have hbody := hpaired.body body hcode
    dsimp only
    by_cases hempty : change.codeHash = KECCAK_EMPTY ∨ body = []
    · rw [if_pos hempty]
      refine ⟨code, rfl, .inl ?_, fun _ => id⟩
      rcases hempty with hempty | rfl
      · exact hempty
      · exact hbody
    · rw [if_neg hempty, if_neg (not_not.mpr hbody.symm)]
      refine ⟨_, rfl, .inr ⟨body, ?_, hbody.symm⟩, fun _ h => h.insert hbody.symm⟩
      rw [getElem?_insert, if_pos rfl]

/-- The code an account keeps is in the state. -/
theorem Resolvable.hasCode_kept (h : Resolvable P keys state)
    (hpaired : Paired state address change) (hnone : change.code = none) :
    HasCode state.contractCode change.codeHash := by
  rcases hpaired.kept hnone with hempty | ⟨account, haccount, hsame⟩
  · exact .inl hempty
  · rcases h.account_cases address with ⟨_, habsent⟩ | ⟨_, stored, _, _, hstored, hbacked⟩
    · rw [habsent] at haccount
      cases haccount
    · rw [hstored] at haccount
      cases haccount
      rw [hsame]
      exact hbacked.code

/-! ## Collecting the writes -/

/-- No trie the changes build has more leaves than a trie may have. -/
structure Sized (state : ExecutionState) (changes : List (Address × AccountChange)) : Prop where
  storage : ∀ {address : Address} {change : AccountChange} {leaves : Leaves},
    (address, change) ∈ changes → change.touched = true → change.selfdestructed = false →
    state.changedLeaves address change = .ok leaves → leaves.size < 2 ^ 32
  accounts : ∀ {applying : Applying},
    state.applyAll changes ⟨StateOverlay.fromSnapshot state.accounts, ∅, state.contractCode⟩
      = .ok applying → applying.overlay.merged.size < 2 ^ 32

theorem Resolvable.applyChange_succeeds (hash : Hashing P keys) (h : Resolvable P keys state)
    (hpaired : Paired state address change)
    (hbuilt : ∀ leaves, state.Writes address change leaves →
      Built P keys leaves ∧ leaves.size < 2 ^ 32)
    (hgrown : ∀ codeHash, HasCode state.contractCode codeHash → HasCode applying.contractCode
      codeHash) : ∃ next, state.applyChange applying (address, change) = .ok next ∧
      (∀ codeHash, HasCode applying.contractCode codeHash → HasCode next.contractCode codeHash) ∧
      (change.touched = true → change.selfdestructed = false →
        HasCode next.contractCode change.codeHash) := by
  unfold applyChange
  by_cases htouched : change.touched = false
  · rw [if_pos htouched]
    refine ⟨applying, rfl, fun _ => id, fun htrue => ?_⟩
    rw [htouched] at htrue
    cases htrue
  · rw [if_neg htouched]
    by_cases hdestroyed : change.selfdestructed = true
    · rw [if_pos hdestroyed]
      refine ⟨_, rfl, fun _ => id, fun _ hfalse => ?_⟩
      rw [hdestroyed] at hfalse
      cases hfalse
    · rw [if_neg hdestroyed]
      obtain ⟨base, hleaves, hvectors, _⟩ := h.changedLeaves_eq hash address change
      obtain ⟨hown, hsize⟩ := hbuilt _ ⟨by simpa using htouched, by simpa using hdestroyed, hleaves⟩
      have hbuild := build_succeeds hash.spread
        ⟨hown.keys, vectors_writeSlots change hvectors⟩ hsize
      obtain ⟨code, hcode, hpresent, hkept⟩ := changedCode_paired hpaired
        fun hnone => hgrown _ (h.hasCode_kept hpaired hnone)
      simp only [hleaves, hbuild, hcode, ofState, mapError_ok, ok_bind, pure_eq]
      exact ⟨_, rfl, hkept, fun _ _ => hpresent⟩

theorem Resolvable.applyAll_succeeds (hash : Hashing P keys) (h : Resolvable P keys state)
    (hpaired : ∀ change ∈ changes, Paired state change.1 change.2)
    (hbuilt : ∀ change ∈ changes, ∀ leaves, state.Writes change.1 change.2 leaves →
      Built P keys leaves ∧ leaves.size < 2 ^ 32) :
    ∀ applying : Applying, (∀ codeHash, HasCode state.contractCode codeHash →
        HasCode applying.contractCode codeHash) →
      ∃ after, state.applyAll changes applying = .ok after ∧
        (∀ codeHash, HasCode applying.contractCode codeHash → HasCode after.contractCode codeHash) ∧
        ∀ change ∈ changes, change.2.touched = true → change.2.selfdestructed = false →
          HasCode after.contractCode change.2.codeHash := by
  induction changes with
  | nil =>
    intro applying _
    exact ⟨applying, rfl, fun _ => id, fun change hmem => by cases hmem⟩
  | cons change rest ih =>
    intro applying hgrown
    obtain ⟨next, hnext, hkept, hown⟩ := h.applyChange_succeeds hash
      (hpaired change List.mem_cons_self) (hbuilt change List.mem_cons_self) hgrown
    obtain ⟨after, hafter, hlater, hrest⟩ :=
      ih (fun other hmem => hpaired other (List.mem_cons_of_mem _ hmem))
        (fun other hmem => hbuilt other (List.mem_cons_of_mem _ hmem)) next
        (fun codeHash hcode => hkept codeHash (hgrown codeHash hcode))
    refine ⟨after, ?_, fun codeHash hcode => hlater codeHash (hkept codeHash hcode), ?_⟩
    · rw [applyAll, hnext, mapError_ok]
      exact hafter
    · intro other hmem htouched hdestroyed
      rcases List.mem_cons.mp hmem with rfl | hmem
      · exact hlater _ (hown htouched hdestroyed)
      · exact hrest other hmem htouched hdestroyed

theorem Resolvable.backed_merged (hash : Hashing P keys) (h : Resolvable P keys state)
    (hrun : ChangesRun P keys state changes ⟨StateOverlay.fromSnapshot state.accounts, ∅,
      state.contractCode⟩ applying) (hsized : Sized state changes)
    (hkept : ∀ codeHash, HasCode state.contractCode codeHash → HasCode applying.contractCode
      codeHash)
    (hcode : ∀ change ∈ changes, change.2.touched = true → change.2.selfdestructed = false →
      HasCode applying.contractCode change.2.codeHash) {accountNodes : NodeStore}
    (haccounts : Addressed P accountNodes) {key : B256} {value : Bytes}
    (hvalue : applying.overlay.merged[key]? = some value) : value.length < Tree.VALUE_LIMIT ∧
      ∃ account leaves, Backed P keys ((state.trieNodes ∪ applying.addedNodes) ∪ accountNodes)
        applying.contractCode value account leaves := by
  have hadded : Addressed P applying.addedNodes := hrun.addressed addressed_empty
  rw [StateOverlay.getElem?_merged, hrun.base] at hvalue
  by_cases hwritten : ∃ change ∈ changes, change.2.touched = true ∧
      key = secureAccountKey change.1
  · obtain ⟨change, hmem, htouched, rfl⟩ := hwritten
    obtain ⟨written, hwrote, hwrites⟩ := hrun.touched change hmem htouched
    rw [hwrites, Option.getD_some] at hvalue
    rw [hvalue] at hwrote
    cases hwrote with
    | updated leaves hdestroyed _ hchanged hbuilt hholds =>
      obtain ⟨base, heq, hvectors, _⟩ := h.changedLeaves_eq hash change.1 change.2
      rw [heq] at hchanged
      cases hchanged
      refine ⟨short_encodeAccount _, changeAccount change.2 _, _,
        decodeAccount_encodeAccount _, ⟨⟨hbuilt.keys, vectors_writeSlots _ hvectors⟩, rfl,
          holds_union_left hash.injOn (holds_union_right hholds) haccounts,
          hsized.storage hmem htouched hdestroyed heq⟩, hcode change hmem htouched hdestroyed⟩
  · have hnone : applying.overlay.writes[key]? = none := by
      rw [hrun.untouched key fun change hmem htouched hkey =>
        hwritten ⟨change, hmem, htouched, hkey⟩]
      exact ExtTreeMap.getElem?_empty
    rw [hnone] at hvalue
    obtain ⟨account, leaves, hbacked⟩ := h.account key value hvalue
    exact ⟨h.trie.fits.short key value hvalue, account, leaves, hbacked.decodes,
      hbacked.storage.mono (holds_union_left hash.injOn
        (holds_union_left hash.injOn hbacked.storage.holds hadded) haccounts),
      hkept _ hbacked.code⟩

/-! ## Rebuilding -/

theorem extendNodes_of_same (place : B256 → Bytes) {nodes : List (B256 × Bytes)}
    (hnodes : ∀ node ∈ nodes, node.1 = keccak256 node.2 ∧ node.2 = place node.1) :
    ∀ {snapshot : TrieSnapshot}, (∀ key e, snapshot.nodes[key]? = some e → e = place key) →
      ∃ after, extendNodes snapshot nodes = .ok after := by
  induction nodes with
  | nil => exact fun {snapshot} _ => ⟨snapshot, rfl⟩
  | cons node rest ih =>
    intro snapshot hplaces
    obtain ⟨hhash, hown⟩ := hnodes node List.mem_cons_self
    have hsame : ¬(snapshot.nodes[node.1]?.any fun existing => existing ≠ node.2) = true := by
      cases hexisting : snapshot.nodes[node.1]? with
      | none => exact Bool.false_ne_true
      | some existing => simp [hplaces _ _ hexisting, ← hown]
    obtain ⟨after, hafter⟩ := @ih (fun other hmem => hnodes other (List.mem_cons_of_mem _ hmem))
      { snapshot with nodes := snapshot.nodes.insert node.1 node.2 } fun key e he => by
        rw [getElem?_insert] at he
        split at he
        · rename_i hkey
          cases he
          rw [← hkey]
          exact hown
        · exact hplaces key e he
    refine ⟨after, ?_⟩
    rw [extendNodes, rejectIf_neg (not_not.mpr hhash.symm), ok_bind, rejectIf_neg hsame]
    exact hafter

/-- A genesis whose accounts have no storage of their own. -/
theorem fromGenesis_of_leaves {allocations : BTreeMap Address GenesisAccount} {leaves : Leaves}
    (hfound : materializeAll allocations.toList ⟨∅, ∅, ∅⟩ = .ok ⟨leaves, ∅, code⟩)
    (hvectors : Vectors leaves) (hsize : leaves.size < 2 ^ 32) :
    ∃ state, fromGenesis allocations = .ok state ∧ state.accounts.leaves = leaves ∧
      state.contractCode = code := by
  have hbuild : build leaves = .ok (snapshot leaves) :=
    build_of_group hvectors.group hsize
  obtain ⟨extended, hextend⟩ : ∃ after, extendNodes (snapshot leaves)
      ((∅ : NodeStore) ∪ (snapshot leaves).nodes).toList = .ok after := by
    refine extendNodes_of_same (fun key => (snapshot leaves).nodes[key]?.getD [])
      (fun node hmem => ?_) fun key e he => by rw [he]; rfl
    have hnode := ExtTreeMap.mem_toList_iff_getElem?_eq_some.mp hmem
    rw [ExtTreeMap.getElem?_union, ExtTreeMap.getElem?_empty, Option.or_none] at hnode
    have haddressed := addressed_snapshot (P := {e | e ∈ encodings leaves}) fun _ he => he
    exact ⟨(haddressed _ _ hnode).2, by rw [hnode]; rfl⟩
  refine ⟨⟨extended, ∅ ∪ (snapshot leaves).nodes, code, ∅⟩, ?_, (extendNodes_eq_ok hextend).2,
    rfl⟩
  simp only [fromGenesis, hfound, hbuild, hextend, ofState, mapError_ok, ok_bind, pure_eq]

theorem extendNodes_succeeds (hash : Hashing P keys) {nodes : List (B256 × Bytes)}
    (hnodes : ∀ node ∈ nodes, node.2 ∈ P ∧ node.1 = keccak256 node.2) {snapshot : TrieSnapshot}
    (haddressed : Addressed P snapshot.nodes) :
    ∃ after, extendNodes snapshot nodes = .ok after := by
  have hplace : ∀ {key : B256} {e : Bytes}, e ∈ P ∧ key = keccak256 e →
      e = Function.invFunOn keccak256 P key := by
    rintro _ e ⟨hmem, rfl⟩
    exact (hash.injOn.leftInvOn_invFunOn hmem).symm
  exact extendNodes_of_same _ (fun node hmem => ⟨(hnodes node hmem).2, hplace (hnodes node hmem)⟩)
    fun key e he => hplace (haddressed key e he)

/-- **Reachable nodes.**  Where every storage root resolves among the candidates, the
reachable nodes are found and resolve them too. -/
theorem reachableNodes_succeeds (hash : Hashing P keys) {candidates : NodeStore}
    {values : List Bytes}
    (hvalues : ∀ value ∈ values, ∃ account leaves, decodeAccount value = .ok account ∧
      Resolves P keys candidates account.storageRoot leaves) :
    ∀ {reachable : NodeStore}, Addressed P reachable →
      ∃ after, reachableNodes candidates values reachable = .ok after ∧ Addressed P after ∧
        (∀ leaves, Holds P reachable leaves → Holds P after leaves) ∧
        ∀ value ∈ values, ∀ account leaves, decodeAccount value = .ok account →
          Resolves P keys candidates account.storageRoot leaves →
          Resolves P keys after account.storageRoot leaves := by
  induction values with
  | nil =>
    intro reachable haddressed
    exact ⟨reachable, rfl, haddressed, fun _ => id, fun value hmem => by cases hmem⟩
  | cons value rest ih =>
    intro reachable haddressed
    obtain ⟨account, leaves, hdecodes, hstorage⟩ := hvalues value List.mem_cons_self
    have hnodes : ∀ e ∈ encodings leaves, e ∈ P := fun e he => (hstorage.holds e he).1
    -- the nodes after this account
    obtain ⟨next, hnext, hstep⟩ : ∃ next, (Addressed P next ∧
        (∀ other, Holds P reachable other → Holds P next other) ∧ Holds P next leaves) ∧
        reachableNodes candidates (value :: rest) reachable
          = reachableNodes candidates rest next := by
      by_cases hroot : account.storageRoot = EMPTY_ROOT_HASH
      · have hnone : leaves = ∅ := Resolves.eq_empty hash (hroot ▸ hstorage)
        refine ⟨reachable, ⟨haddressed, fun _ => id, hnone ▸ holds_empty⟩, ?_⟩
        simp only [reachableNodes, hdecodes, ofState, mapError_ok, ok_bind, if_pos hroot, pure_eq]
      · refine ⟨reachable ∪ (snapshot leaves).nodes,
          ⟨addressed_union haddressed (addressed_snapshot hnodes),
            fun _ hheld => holds_union_left hash.injOn hheld (addressed_snapshot hnodes),
            holds_union_right (holds_snapshot hash.injOn hnodes)⟩, ?_⟩
        simp only [reachableNodes, hdecodes, ofState, mapError_ok, ok_bind, if_neg hroot,
          hstorage.collect hash, hstorage.build hash, pure_eq]
    obtain ⟨after, hafter, haddressed', hkept, hrest⟩ :=
      ih (fun other hmem => hvalues other (List.mem_cons_of_mem _ hmem)) hnext.1
    refine ⟨after, hstep.trans hafter, haddressed',
      fun other hheld => hkept other (hnext.2.1 other hheld), ?_⟩
    intro other hmem account' leaves' hdecodes' hstorage'
    rcases List.mem_cons.mp hmem with rfl | hmem
    · rw [hdecodes] at hdecodes'
      cases hdecodes'
      rw [← hstorage.unique hash hstorage']
      exact hstorage.mono (hkept leaves hnext.2.2)
    · exact hrest other hmem account' leaves' hdecodes' hstorage'

theorem rebuild_of {accounts extended : TrieSnapshot} {reachable : NodeStore}
    (hcommit : applying.overlay.commit = .ok accounts)
    (hreach : reachableNodes ((state.trieNodes ∪ applying.addedNodes) ∪ accounts.nodes)
      (accounts.leaves.toList.map (·.2)) accounts.nodes = .ok reachable)
    (hextend : extendNodes accounts reachable.toList = .ok extended) :
    state.rebuild applying = .ok (extended, reachable) := by
  simp only [rebuild, hcommit, hreach, hextend, ofState, mapError_ok, ok_bind, pure_eq]

/-- **Applying changes succeeds** on a state that resolves, and the state after them
resolves. -/
theorem Resolvable.applyChanges_succeeds (hash : Hashing P keys) (h : Resolvable P keys state)
    {changes : BTreeMap Address AccountChange} (hconfined : Confined P keys state changes.toList)
    (hpaired : ∀ change ∈ changes.toList, Paired state change.1 change.2)
    (hsized : Sized state changes.toList) :
    ∃ after applying, state.applyChanges changes.toList = .ok after ∧ Resolvable P keys after ∧
      ChangesRun P keys state changes.toList
        ⟨StateOverlay.fromSnapshot state.accounts, ∅, state.contractCode⟩ applying ∧
      after.accounts.leaves = applying.overlay.merged := by
  have hbuilt : ∀ change ∈ changes.toList, ∀ leaves, state.Writes change.1 change.2 leaves →
      Built P keys leaves ∧ leaves.size < 2 ^ 32 := fun change hmem leaves h =>
    ⟨hconfined.storage hmem h.1 h.2.1 h.2.2, hsized.storage hmem h.1 h.2.1 h.2.2⟩
  obtain ⟨applying, happly, hkept, hcode⟩ := h.applyAll_succeeds hash hpaired hbuilt
    ⟨StateOverlay.fromSnapshot state.accounts, ∅, state.contractCode⟩ fun _ => id
  have hrun := applyAll_eq_ok hash (nodup_keys changes) hconfined.addresses
    (fun change hmem leaves hwrites => (hbuilt change hmem leaves hwrites).1) happly
  have hmerged := hconfined.accounts happly
  have haddressed := addressed_snapshot hmerged.nodes
  have hbacked {key : B256} {value : Bytes} (hvalue : applying.overlay.merged[key]? = some value) :=
    h.backed_merged hash hrun hsized hkept hcode haddressed hvalue
  have hfits : Fits keys applying.overlay.merged :=
    ⟨hmerged.keys, fun key value hvalue => (hbacked hvalue).1⟩
  have hcommit := build_succeeds hash.spread hfits (hsized.accounts happly)
  have hvalues : ∀ value ∈ applying.overlay.merged.toList.map (·.2),
      ∃ account leaves, decodeAccount value = .ok account ∧
        Resolves P keys ((state.trieNodes ∪ applying.addedNodes) ∪
          (snapshot applying.overlay.merged).nodes) account.storageRoot leaves := by
    intro value hvalue
    obtain ⟨⟨key, value⟩, hmem, rfl⟩ := List.mem_map.mp hvalue
    obtain ⟨_, account, leaves, hown⟩ :=
      hbacked (ExtTreeMap.mem_toList_iff_getElem?_eq_some.mp hmem)
    exact ⟨account, leaves, hown.decodes, hown.storage⟩
  obtain ⟨reachable, hreach, hreachable, hheld, hstorage⟩ :=
    reachableNodes_succeeds hash hvalues haddressed
  have hnodes : ∀ node ∈ reachable.toList, node.2 ∈ P ∧ node.1 = keccak256 node.2 :=
    fun node hmem => hreachable _ _ (ExtTreeMap.mem_toList_iff_getElem?_eq_some.mp hmem)
  obtain ⟨extended, hextend⟩ := extendNodes_succeeds hash hnodes haddressed
  obtain ⟨hroot, hleaves⟩ := extendNodes_eq_ok hextend
  refine ⟨⟨extended, reachable, applying.contractCode, state.blockHashes⟩, applying, ?_, ?_, hrun,
    hleaves⟩
  · have hrebuild := rebuild_of hcommit hreach hextend
    rw [applyChanges, happly, ok_bind, hrebuild, mapError_ok]
    rfl
  · refine ⟨⟨hleaves ▸ hfits, hleaves ▸ hroot, ?_, ?_⟩, hreachable, ?_⟩
    · rw [hleaves]
      exact hheld _ (holds_snapshot hash.injOn hmerged.nodes)
    · rw [hleaves]
      exact hsized.accounts happly
    · intro key value hvalue
      rw [hleaves] at hvalue
      obtain ⟨_, account, leaves, hown⟩ := hbacked hvalue
      exact ⟨account, leaves, hown.decodes, hstorage value (List.mem_map.mpr
        ⟨(key, value), ExtTreeMap.mem_toList_iff_getElem?_eq_some.mpr hvalue, rfl⟩) account leaves
        hown.decodes hown.storage, hown.code⟩

/-! ## What is read afterwards -/

/-- How an account and its slots in play read after its change. -/
inductive ReadsAs (P : Set Bytes) (state after : ExecutionState) (address : Address) :
    Option AccountChange → Prop
  | same {change : Option AccountChange} : (∀ c, change = some c → c.touched = false) →
      after.account address = state.account address →
      (∀ slot, after.storage address slot = state.storage address slot) →
      ReadsAs P state after address change
  | removed {change : AccountChange} : change.touched = true →
      (change.selfdestructed = true ∨ change.nonce = 0 ∧ change.balance = 0 ∧
        change.codeHash = KECCAK_EMPTY) →
      after.account address = .ok none → (∀ slot, after.storage address slot = .ok 0) →
      ReadsAs P state after address (some change)
  | updated {change : AccountChange} (root : B256) : change.touched = true →
      change.selfdestructed = false →
      ¬(change.nonce = 0 ∧ change.balance = 0 ∧ change.codeHash = KECCAK_EMPTY) →
      after.account address = .ok (some (changeAccount change root)) →
      (∀ slot, toBytes slot ∈ P →
        after.storage address slot = change.read (state.storage address) slot) →
      ReadsAs P state after address (some change)

/-- Equal leaves over states that resolve read equally. -/
theorem Resolvable.reads_of_leaf_eq (hash : Hashing P keys) (h : Resolvable P keys state)
    (hafter : Resolvable P keys after) (hleaf : after.accounts.leaves[secureAccountKey address]? =
      state.accounts.leaves[secureAccountKey address]?) :
    after.account address = state.account address ∧
      ∀ slot, after.storage address slot = state.storage address slot := by
  have hsame : after.account address = state.account address := by
    simp only [ExecutionState.account, hleaf]
  refine ⟨hsame, fun slot => ?_⟩
  rcases h.account_cases address with ⟨_, hnone⟩ | ⟨value, account, leaves, _, haccount, hbacked⟩
  · rw [storage_of_none hnone, storage_of_none (hsame.trans hnone)]
  · rcases hafter.account_cases address with ⟨_, hnone⟩
      | ⟨_, account', leaves', _, haccount', hbacked'⟩
    · rw [hsame, haccount] at hnone
      cases hnone
    · rw [hsame, haccount] at haccount'
      cases haccount'
      rw [storage_of_resolves hash haccount hbacked.storage,
        storage_of_resolves hash (hsame.trans haccount) hbacked'.storage,
        hbacked.storage.unique hash hbacked'.storage]

/-- Every account reads as its change says. -/
theorem Resolvable.readsAs (hash : Hashing P keys) (h : Resolvable P keys state)
    {changes : BTreeMap Address AccountChange} (hconfined : Confined P keys state changes.toList)
    (hafter : Resolvable P keys after)
    (hrun : ChangesRun P keys state changes.toList ⟨StateOverlay.fromSnapshot state.accounts, ∅,
      state.contractCode⟩ applying) (hleaves : after.accounts.leaves = applying.overlay.merged)
    (haddress : toBytes address ∈ P) : ReadsAs P state after address changes[address]? := by
  have hmerged : after.accounts.leaves[secureAccountKey address]?
      = applying.overlay.writes[secureAccountKey address]?.getD
        state.accounts.leaves[secureAccountKey address]? := by
    rw [hleaves, StateOverlay.getElem?_merged, hrun.base]
    rfl
  by_cases huntouched : ∀ c, changes[address]? = some c → c.touched = false
  · have hnone : applying.overlay.writes[secureAccountKey address]? = none :=
      (hrun.untouched _ (touched_of_key hash hconfined.addresses haddress huntouched)).trans
        ExtTreeMap.getElem?_empty
    rw [hnone] at hmerged
    obtain ⟨haccount, hwords⟩ := h.reads_of_leaf_eq hash hafter hmerged
    exact .same huntouched haccount hwords
  · push Not at huntouched
    obtain ⟨change, hchange, htouched⟩ := huntouched
    rw [ne_eq, Bool.not_eq_false] at htouched
    obtain ⟨value, hwrote, hwrites⟩ := hrun.touched (address, change)
      (ExtTreeMap.mem_toList_iff_getElem?_eq_some.mpr hchange) htouched
    rw [hchange]
    rw [hwrites] at hmerged
    cases hwrote with
    | deleted hdestroyed =>
      have hnone := account_of_no_leaf hmerged
      exact .removed htouched (.inl hdestroyed) hnone (storage_of_none hnone)
    | cleared root _ hempty =>
      have hnone := account_of_no_leaf hmerged
      exact .removed htouched (.inr (isEmpty_changeAccount.mp hempty)) hnone (storage_of_none hnone)
    | updated leaves hkept hempty hchanged hbuilt hheld =>
      obtain ⟨base, heq, hvectors, hreads, _⟩ := h.changedLeaves_eq hash address change
      rw [heq] at hchanged
      cases hchanged
      have haccount := account_of_leaf hmerged
      obtain ⟨account', stored, hbacked⟩ := hafter.account _ _ hmerged
      have hdecodes := hbacked.decodes
      rw [decodeAccount_encodeAccount] at hdecodes
      cases hdecodes
      have hsame := hash.leaves_eq hbacked.storage.fits.short (vectors_writeSlots _ hvectors)
        (fun e he => (hbacked.storage.holds e he).1) hbuilt.nodes hbacked.storage.root_eq.symm
      refine .updated _ htouched hkept (fun hclear => ?_) haccount fun slot hslot => ?_
      · exact Bool.false_ne_true (hempty.symm.trans (isEmpty_changeAccount.mpr hclear))
      · rw [storage_of_resolves hash haccount hbacked.storage, hsame]
        exact readLeaf_writeSlots hash (hconfined.slots _
          (ExtTreeMap.mem_toList_iff_getElem?_eq_some.mpr hchange)) hreads hslot

/-! ## Limits -/

theorem applyAll_sized :
    ∀ {applying after : Applying}, state.applyAll changes applying = .ok after →
      ∀ {address : Address} {change : AccountChange} {leaves : Leaves},
        (address, change) ∈ changes →
        change.touched = true → change.selfdestructed = false →
        state.changedLeaves address change = .ok leaves → leaves.size < 2 ^ 32 := by
  induction changes with
  | nil =>
    intro applying after _ address change leaves hmem
    cases hmem
  | cons first rest ih =>
    intro applying after h address change leaves hmem htouched hkept hleaves
    obtain ⟨next, hnext, h⟩ := bind_eq_ok.mp h
    rcases List.mem_cons.mp hmem with rfl | hmem
    · have hfirst := mapError_eq_ok.mp hnext
      unfold applyChange at hfirst
      rw [if_neg (by simp [htouched]), if_neg (by simp [hkept]), hleaves, ok_bind] at hfirst
      obtain ⟨storage, hstorage, _⟩ := bind_eq_ok.mp hfirst
      exact (build_eq_ok (ofState_eq_ok.mp hstorage)).2
    · exact ih h hmem htouched hkept hleaves

theorem sized_of_applyChanges (h : state.applyChanges changes = .ok after) :
    Sized state changes := by
  obtain ⟨applying, happly, h⟩ := bind_eq_ok.mp h
  obtain ⟨_, hrebuild, _⟩ := bind_eq_ok.mp h
  obtain ⟨accounts, hcommit, _⟩ := bind_eq_ok.mp (mapError_eq_ok.mp hrebuild)
  constructor
  · exact applyAll_sized happly
  · intro other hother
    rw [happly] at hother
    cases hother
    exact (build_eq_ok (ofState_eq_ok.mp hcommit)).2

/-- **Applied changes** lead to a state that resolves, where every account reads as its change
says. -/
theorem Resolvable.applied (hash : Hashing P keys) (h : Resolvable P keys state)
    {changes : BTreeMap Address AccountChange} (hconfined : Confined P keys state changes.toList)
    (hpaired : ∀ change ∈ changes.toList, Paired state change.1 change.2)
    (hchanges : state.applyChanges changes.toList = .ok after) :
    Resolvable P keys after ∧ ∀ address, toBytes address ∈ P →
      ReadsAs P state after address changes[address]? := by
  obtain ⟨result, applying, hresult, hafter, hrun, hleaves⟩ :=
    h.applyChanges_succeeds hash hconfined hpaired (sized_of_applyChanges hchanges)
  rw [hchanges] at hresult
  cases hresult
  exact ⟨hafter, fun _ => h.readsAs hash hconfined hafter hrun hleaves⟩

end Resolvable

end ExecutionState

end Arbor
