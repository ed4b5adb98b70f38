import Arbor.Evm.State
import Arbor.State.TrieStore

/-!
# Changes of a state

What the code collects when it applies the changes of a transaction: every touched account
is written once, as its change says, and the nodes of its storage trie are kept
(`ChangesRun`).
-/

namespace Arbor

open Result Trie OrdMap

/-- Changed slots hold another word than before. -/
theorem AccountChange.mem_changedStorageSlots {change : AccountChange} {slot present : U256} :
    (slot, present) ∈ change.changedStorageSlots ↔
      ∃ original, change.storage[slot]? = some (original, present) ∧ original ≠ present := by
  simp only [changedStorageSlots, List.mem_map, List.mem_filter, decide_eq_true_eq, Prod.mk.injEq,
    Prod.exists, Std.ExtTreeMap.mem_toList_iff_getElem?_eq_some]
  constructor
  · rintro ⟨slot', original, present', ⟨hmem, hne⟩, rfl, rfl⟩
    exact ⟨original, hmem, hne⟩
  · rintro ⟨original, hmem, hne⟩
    exact ⟨slot, original, present, ⟨hmem, hne⟩, rfl, rfl⟩

theorem AccountChange.nodup_changedStorageSlots (change : AccountChange) :
    (change.changedStorageSlots.map Prod.fst).Nodup := by
  rw [changedStorageSlots, List.map_map]
  exact (nodup_keys change.storage).sublist (List.filter_sublist.map _)

namespace StateOverlay

/-- Writes of the source are those of maps. -/
theorem applyWrite_eq (leaves : Leaves) (write : B256 × Option Bytes) :
    applyWrite leaves write = OrdMap.write leaves write.1 write.2 := by
  obtain ⟨key, value⟩ := write
  cases value <;> rfl

/-- A write stands over the base. -/
theorem getElem?_merged (overlay : StateOverlay) (key : B256) :
    overlay.merged[key]? = overlay.writes[key]?.getD overlay.base[key]? := by
  have hfold : applyWrite = fun leaves write => OrdMap.write leaves (Prod.fst write) write.2 :=
    funext₂ applyWrite_eq
  rw [merged, hfold]
  cases hwrite : overlay.writes[key]? with
  | some value =>
    exact OrdMap.getElem?_writes_of_mem Prod.fst Prod.snd (OrdMap.nodup_keys _)
      (Std.ExtTreeMap.mem_toList_iff_getElem?_eq_some.mpr hwrite) _
  | none =>
    refine OrdMap.getElem?_writes_of_not_mem Prod.fst Prod.snd ?_ _
    intro hkey
    obtain ⟨⟨key', value⟩, hmem, rfl⟩ := List.mem_map.mp hkey
    rw [Std.ExtTreeMap.mem_toList_iff_getElem?_eq_some.mp hmem] at hwrite
    cases hwrite

end StateOverlay

namespace ExecutionState

section Changes

variable [Keccak] {P : Set Bytes} {keys : Set B256}

variable {address : Address} {change : AccountChange}

theorem writeSlot_eq (leaves : Leaves) (slot : U256 × U256) : writeSlot leaves slot
      = write leaves (secureStorageKey slot.1) (storageTrieValue slot.2) := by
  unfold writeSlot
  cases storageTrieValue slot.2 <;> rfl

/-- Changed slots have different keys. -/
theorem nodup_slotKeys (hash : Hashing P keys)
    (hslots : ∀ slot ∈ change.changedStorageSlots, toBytes slot.1 ∈ P) :
    (change.changedStorageSlots.map fun slot => secureStorageKey slot.1).Nodup := by
  have hnodup := change.nodup_changedStorageSlots
  rw [List.Nodup, List.pairwise_map] at hnodup ⊢
  exact hnodup.imp_of_mem fun ha hb hne heq =>
    hne (hash.slot_inj (hslots _ ha) (hslots _ hb) heq)

/-- A leaf after all changed slots are written. -/
theorem getElem?_writeSlots (hash : Hashing P keys)
    (hslots : ∀ slot ∈ change.changedStorageSlots, toBytes slot.1 ∈ P) (leaves : Leaves)
    (key : B256) : (∃ slot present, (slot, present) ∈ change.changedStorageSlots ∧
        key = secureStorageKey slot ∧
        (change.changedStorageSlots.foldl writeSlot leaves)[key]? = storageTrieValue present) ∨
      (∀ slot present, (slot, present) ∈ change.changedStorageSlots →
          key ≠ secureStorageKey slot) ∧
        (change.changedStorageSlots.foldl writeSlot leaves)[key]? = leaves[key]? := by
  have hfold : writeSlot = fun leaves slot =>
      write leaves (secureStorageKey (Prod.fst slot)) (storageTrieValue slot.2) :=
    funext₂ writeSlot_eq
  rw [hfold]
  by_cases hmem : key ∈ change.changedStorageSlots.map fun slot => secureStorageKey slot.1
  · obtain ⟨⟨slot, present⟩, hslot, rfl⟩ := List.mem_map.mp hmem
    exact Or.inl ⟨slot, present, hslot, rfl, getElem?_writes_of_mem
      (fun slot => secureStorageKey (Prod.fst slot)) (fun slot => storageTrieValue slot.2)
      (nodup_slotKeys hash hslots) hslot leaves⟩
  · refine Or.inr ⟨?_, getElem?_writes_of_not_mem _ _ hmem leaves⟩
    intro slot present hslot heq
    exact hmem (List.mem_map.mpr ⟨_, hslot, heq.symm⟩)

def readAccount (state : ExecutionState) (address : Address) : Option Account :=
  (state.account address).toOption.bind id

def readWord (state : ExecutionState) (address : Address) (slot : U256) : U256 :=
  (state.storage address slot).toOption.getD 0

variable {state : ExecutionState}

/-- An account is read from its leaf. -/
theorem account_of_leaf {account : Account}
    (h : state.accounts.leaves[secureAccountKey address]? = some (encodeAccount account)) :
    state.account address = .ok (some account) := by
  simp only [ExecutionState.account, h, decodeAccount_encodeAccount]
  rfl

/-- Without a leaf there is no account. -/
theorem account_of_no_leaf (h : state.accounts.leaves[secureAccountKey address]? = none) :
    state.account address = .ok none := by
  simp only [ExecutionState.account, h]

theorem readAccount_of_leaf {account : Account}
    (h : state.accounts.leaves[secureAccountKey address]? = some (encodeAccount account)) :
    state.readAccount address = some account := by
  rw [readAccount, account_of_leaf h]
  rfl

theorem readAccount_of_no_leaf (h : state.accounts.leaves[secureAccountKey address]? = none) :
    state.readAccount address = none := by
  rw [readAccount, account_of_no_leaf h]
  rfl

theorem storage_of_none (haccount : state.account address = .ok none) (slot : U256) :
    state.storage address slot = .ok 0 := by
  rw [ExecutionState.storage, haccount]
  rfl

/-! ## Collecting the writes -/

/-- The tries a list of changes builds are made of keys and nodes in play, and so are its
addresses and changed slots. -/
structure Confined (P : Set Bytes) (keys : Set B256) (state : ExecutionState)
    (changes : List (Address × AccountChange)) : Prop where
  addresses : ∀ change ∈ changes, toBytes change.1 ∈ P
  slots : ∀ change ∈ changes, ∀ slot ∈ change.2.changedStorageSlots, toBytes slot.1 ∈ P
  storage : ∀ {address : Address} {change : AccountChange} {leaves : Leaves},
    (address, change) ∈ changes → change.touched = true → change.selfdestructed = false →
    state.changedLeaves address change = .ok leaves → Built P keys leaves
  accounts : ∀ {applying : Applying},
    state.applyAll changes ⟨StateOverlay.fromSnapshot state.accounts, ∅, state.contractCode⟩
      = .ok applying → Built P keys applying.overlay.merged

/-- Whether the tries of changes are made of the nodes of a store and of listed keys. -/
def confinedOf (store : NodeStore) (keys : List B256) (state : ExecutionState)
    (changes : List (Address × AccountChange)) : Bool :=
  (changes.all fun change => inStore store (toBytes change.1) &&
    (change.2.changedStorageSlots.all fun slot => inStore store (toBytes slot.1)) &&
    match state.changedLeaves change.1 change.2 with
    | .ok leaves => builtOf store keys leaves
    | .error _ => true) &&
  match state.applyAll changes ⟨StateOverlay.fromSnapshot state.accounts, ∅,
    state.contractCode⟩ with
  | .ok applying => builtOf store keys applying.overlay.merged
  | .error _ => true

variable {changes : List (Address × AccountChange)}

theorem confined_of_confinedOf {store : NodeStore} {keys : List B256} {state : ExecutionState}
    (h : confinedOf store keys state changes = true) :
    Confined (nodesOf store) {key | key ∈ keys} state changes := by
  simp only [confinedOf, Bool.and_eq_true, List.all_eq_true] at h
  refine ⟨fun change hmem => inStore_iff.mp (h.1 change hmem).1.1, fun change hmem slot hslot =>
    inStore_iff.mp ((h.1 change hmem).1.2 slot hslot), ?_, ?_⟩
  · intro address change leaves hmem _ _ hleaves
    have hbuilt := (h.1 (address, change) hmem).2
    rw [hleaves] at hbuilt
    exact built_of_builtOf hbuilt
  · intro applying happlying
    have hbuilt := h.2
    rw [happlying] at hbuilt
    exact built_of_builtOf hbuilt

/-- The account leaf of a change with a storage root. -/
def changeAccount (change : AccountChange) (root : B256) : Account :=
  ⟨change.nonce, change.balance, root, change.codeHash⟩

/-- What a touched account is written as. -/
inductive Wrote (P : Set Bytes) (keys : Set B256) (state : ExecutionState) (added : NodeStore)
    (address : Address) (change : AccountChange) : Option Bytes → Prop
  | deleted : change.selfdestructed = true → Wrote P keys state added address change none
  | cleared (root : B256) : change.selfdestructed = false →
      (changeAccount change root).isEmpty = true → Wrote P keys state added address change none
  | updated (leaves : Leaves) : change.selfdestructed = false →
      (changeAccount change (Trie.snapshot leaves).root).isEmpty = false →
      state.changedLeaves address change = .ok leaves → Built P keys leaves →
      Holds P added leaves →
      Wrote P keys state added address change
        (some (encodeAccount (changeAccount change (Trie.snapshot leaves).root)))

/-- More nodes hold what fewer do. -/
theorem Wrote.mono {added added' : NodeStore}
    (hholds : ∀ leaves, Holds P added leaves → Holds P added' leaves) {value : Option Bytes}
    (h : Wrote P keys state added address change value) :
    Wrote P keys state added' address change value := by
  cases h with
  | deleted hdestroyed => exact .deleted hdestroyed
  | cleared root hdestroyed hempty => exact .cleared root hdestroyed hempty
  | updated leaves hdestroyed hempty hchanged hbuilt hstored =>
    exact .updated leaves hdestroyed hempty hchanged hbuilt (hholds leaves hstored)

/-- One change: an untouched account is left alone, a touched one is written. -/
structure ChangeStep (P : Set Bytes) (keys : Set B256) (state : ExecutionState)
    (address : Address) (change : AccountChange) (before after : Applying) : Prop where
  base : after.overlay.base = before.overlay.base
  addressed : Addressed P before.addedNodes → Addressed P after.addedNodes
  holds : ∀ leaves, Holds P before.addedNodes leaves → Holds P after.addedNodes leaves
  untouched : change.touched = false → after.overlay.writes = before.overlay.writes
  touched : change.touched = true → ∃ value,
  Wrote P keys state after.addedNodes address change value ∧
    after.overlay.writes = before.overlay.writes.insert (Trie.secureAccountKey address) value

/-- The storage leaves that a change writes. -/
def Writes (state : ExecutionState) (address : Address) (change : AccountChange) (leaves : Leaves) :
    Prop :=
  change.touched = true ∧ change.selfdestructed = false ∧
    state.changedLeaves address change = .ok leaves

/-- What one change does. -/
theorem applyChange_eq_ok (hash : Hashing P keys) {before after : Applying}
    (hbuilt : ∀ leaves, state.Writes address change leaves → Built P keys leaves)
    (h : state.applyChange before (address, change) = .ok after) :
    ChangeStep P keys state address change before after := by
  unfold applyChange at h
  by_cases htouched : change.touched = false
  · rw [if_pos htouched] at h
    cases h
    exact ⟨rfl, id, fun _ => id, fun _ => rfl, fun htrue => by rw [htouched] at htrue; cases htrue⟩
  · rw [if_neg htouched] at h
    have htrue : change.touched = true := by simpa using htouched
    by_cases hdestroyed : change.selfdestructed = true
    · rw [if_pos hdestroyed] at h
      cases h
      exact ⟨rfl, id, fun _ => id, fun hfalse => absurd hfalse htouched,
        fun _ => ⟨none, .deleted hdestroyed, rfl⟩⟩
    · rw [if_neg hdestroyed] at h
      have hkept : change.selfdestructed = false := by simpa using hdestroyed
      obtain ⟨leaves, hleaves, h⟩ := bind_eq_ok.mp h
      obtain ⟨storage, hstorage, h⟩ := bind_eq_ok.mp h
      obtain ⟨code, _, h⟩ := bind_eq_ok.mp h
      cases h
      obtain ⟨rfl, _⟩ := build_eq_ok (ofState_eq_ok.mp hstorage)
      have hleavesBuilt := hbuilt leaves ⟨htrue, hkept, hleaves⟩
      have hnew := addressed_snapshot hleavesBuilt.nodes
      refine ⟨rfl, fun hbefore => addressed_union hbefore hnew,
        fun _ hbefore => holds_union_left hash.injOn hbefore hnew,
        fun hfalse => absurd hfalse htouched, fun _ => ?_⟩
      have hown : Holds P (before.addedNodes ∪ (snapshot leaves).nodes) leaves :=
        holds_union_right (holds_snapshot hash.injOn hleavesBuilt.nodes)
      refine ⟨_, ?_, rfl⟩
      change Wrote P keys state _ address change
        (if (changeAccount change (snapshot leaves).root).isEmpty then none
          else some (encodeAccount (changeAccount change (snapshot leaves).root)))
      cases hempty : (changeAccount change (snapshot leaves).root).isEmpty with
      | true => exact .cleared _ hkept hempty
      | false => exact .updated leaves hkept hempty hleaves hleavesBuilt hown

/-- All changes: each account by its own change, everything else as before. -/
structure ChangesRun (P : Set Bytes) (keys : Set B256) (state : ExecutionState)
    (changes : List (Address × AccountChange)) (before after : Applying) : Prop where
  base : after.overlay.base = before.overlay.base
  addressed : Addressed P before.addedNodes → Addressed P after.addedNodes
  holds : ∀ leaves, Holds P before.addedNodes leaves → Holds P after.addedNodes leaves
  untouched : ∀ key, (∀ change ∈ changes, change.2.touched = true →
    key ≠ Trie.secureAccountKey change.1) → after.overlay.writes[key]? = before.overlay.writes[key]?
  touched : ∀ change ∈ changes, change.2.touched = true →
    ∃ value, Wrote P keys state after.addedNodes change.1 change.2 value ∧
      after.overlay.writes[Trie.secureAccountKey change.1]? = some value

/-- What the loop over the changes does. -/
theorem applyAll_eq_ok (hash : Hashing P keys) (hnodup : (changes.map Prod.fst).Nodup)
    (haddresses : ∀ change ∈ changes, toBytes change.1 ∈ P)
    (hbuilt : ∀ change ∈ changes, ∀ leaves, state.Writes change.1 change.2 leaves →
      Built P keys leaves)
    {before after : Applying} (h : state.applyAll changes before = .ok after) :
    ChangesRun P keys state changes before after := by
  induction changes generalizing before with
  | nil =>
    cases h
    exact ⟨rfl, id, fun _ => id, fun _ _ => rfl, fun change hmem => by cases hmem⟩
  | cons change rest ih =>
    obtain ⟨next, hnext, hrest⟩ := bind_eq_ok.mp h
    rw [List.map_cons, List.nodup_cons] at hnodup
    have hstep := applyChange_eq_ok hash (hbuilt change List.mem_cons_self)
        (mapError_eq_ok.mp hnext)
    have hrun := ih hnodup.2 (fun other hmem => haddresses other (List.mem_cons_of_mem _ hmem))
      (fun other hmem => hbuilt other (List.mem_cons_of_mem _ hmem)) hrest
    -- the rest does not write this account again
    have hlater : after.overlay.writes[secureAccountKey change.1]?
        = next.overlay.writes[secureAccountKey change.1]? := by
      refine hrun.untouched _ fun other hmem _ hkey => hnodup.1 ?_
      rw [hash.account_inj (haddresses change List.mem_cons_self)
        (haddresses other (List.mem_cons_of_mem _ hmem)) hkey]
      exact List.mem_map_of_mem hmem
    refine ⟨hrun.base.trans hstep.base, fun hstart => hrun.addressed (hstep.addressed hstart),
      fun leaves hstart => hrun.holds leaves (hstep.holds leaves hstart), ?_, ?_⟩
    · intro key hkey
      rw [hrun.untouched key fun other hmem => hkey other (List.mem_cons_of_mem _ hmem)]
      cases htouched : change.2.touched with
      | false => rw [hstep.untouched htouched]
      | true =>
        obtain ⟨value, _, hwrites⟩ := hstep.touched htouched
        rw [hwrites, getElem?_insert, if_neg (Ne.symm (hkey change List.mem_cons_self htouched))]
    · intro other hmem htouched
      rcases List.mem_cons.mp hmem with rfl | hmem
      · obtain ⟨value, hwrote, hwrites⟩ := hstep.touched htouched
        refine ⟨value, hwrote.mono hrun.holds, ?_⟩
        rw [hlater, hwrites, getElem?_insert, if_pos rfl]
      · exact hrun.touched other hmem htouched

theorem holds_empty {nodes : NodeStore} : Holds P nodes ∅ := by
  intro e he
  cases he

/-- New nodes leave root and leaves. -/
theorem extendNodes_eq_ok {nodes : List (B256 × Bytes)} :
    ∀ {snapshot after : TrieSnapshot}, extendNodes snapshot nodes = .ok after →
      after.root = snapshot.root ∧ after.leaves = snapshot.leaves := by
  induction nodes with
  | nil =>
    intro snapshot after h
    cases h
    exact ⟨rfl, rfl⟩
  | cons node rest ih =>
    intro snapshot after h
    obtain ⟨_, h⟩ := check_bind_eq_ok.mp h
    obtain ⟨_, h⟩ := check_bind_eq_ok.mp h
    obtain ⟨hroot, hleaves⟩ := ih h
    exact ⟨hroot, hleaves⟩

/-- An account is empty whatever its storage root. -/
theorem isEmpty_changeAccount {root : B256} : (changeAccount change root).isEmpty = true ↔
      change.nonce = 0 ∧ change.balance = 0 ∧ change.codeHash = KECCAK_EMPTY :=
  decide_eq_true_iff

/-- The changes of a journal, found by address. -/
theorem touched_of_key (hash : Hashing P keys) {changes : BTreeMap Address AccountChange}
    (haddresses : ∀ change ∈ changes.toList, toBytes change.1 ∈ P) (haddress : toBytes address ∈ P)
    (h : ∀ c, changes[address]? = some c → c.touched = false) :
    ∀ change ∈ changes.toList, change.2.touched = true →
      secureAccountKey address ≠ secureAccountKey change.1 := by
  intro change hmem htouched hkey
  obtain ⟨address', c⟩ := change
  cases hash.account_inj haddress (haddresses _ hmem) hkey
  rw [h c (Std.ExtTreeMap.mem_toList_iff_getElem?_eq_some.mp hmem)] at htouched
  cases htouched

end Changes

end ExecutionState

end Arbor
