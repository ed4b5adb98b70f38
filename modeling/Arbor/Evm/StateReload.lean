import Arbor.Evm.State
import Arbor.State.TrieStore

/-!
# Reloaded state

Every node a reload follows is checked against its hash, and so is every contract body.  Two
reloads of one root therefore read the same bytes wherever they read, whatever else the
stores hold: if both succeed they return the same state (`reloaded_state_determined`).  No
two byte strings of the stores and loaders may share a hash.
-/

namespace Arbor

open Result Trie

namespace Trie

section Walk

variable [Keccak] {P : Set Bytes} {store store' : NodeStore}

/-- All bytes of a store are among `P`. -/
def Within (P : Set Bytes) (store : NodeStore) : Prop :=
  ∀ (hash : B256) (bytes : Bytes), store[hash]? = some bytes → bytes ∈ P

section

variable (hP : Set.InjOn keccak256 P)
include hP

theorem loadHashed_agree (hstore : Within P store) (hstore' : Within P store') (hash : B256) :
    Agree (loadHashed store hash) (loadHashed store' hash) := by
  intro a b ha hb
  obtain ⟨hget, hhash⟩ := loadHashed_eq_ok_iff.mp ha
  obtain ⟨hget', hhash'⟩ := loadHashed_eq_ok_iff.mp hb
  exact hP (hstore _ _ hget) (hstore' _ _ hget') (hhash.trans hhash'.symm)

theorem collectLeaves_agree (hstore : Within P store) (hstore' : Within P store') (root : B256) :
    Agree (collectLeaves root store) (collectLeaves root store') := by
  rcases le_total store.size store'.size with hsize | hsize
  · exact collectLeaves_related sequential_agree (loadHashed_agree hP hstore hstore') hsize root
  · have hagree := collectLeaves_related sequential_agree (loadHashed_agree hP hstore' hstore) hsize
        root
    exact Agree.symm hagree

end

end Walk

end Trie

namespace ExecutionState

section Reload

variable [Keccak] {P : Set Bytes} {store store' : NodeStore}
  {loadCode loadCode' : B256 → Except EvmError (Option Bytes)}

theorem reloadStorage_agree (hP : Set.InjOn keccak256 P) (hstore : Within P store)
    (hstore' : Within P store') (nodes : NodeStore) (account : Account) :
    Agree (reloadStorage store nodes account) (reloadStorage store' nodes account) := by
  unfold reloadStorage
  by_cases hroot : account.storageRoot = EMPTY_ROOT_HASH
  · simp only [if_pos hroot]
    exact agree_refl _
  · simp only [if_neg hroot]
    exact (collectLeaves_agree hP hstore hstore' _).mapError.bind fun _ => agree_refl _

/-- All bodies a loader returns are among `P`. -/
def LoadsWithin (P : Set Bytes) (loadCode : B256 → Except EvmError (Option Bytes)) : Prop :=
  ∀ (hash : B256) (body : Bytes), loadCode hash = .ok (some body) → body ∈ P

theorem reloadCode_agree (hP : Set.InjOn keccak256 P) (hload : LoadsWithin P loadCode)
    (hload' : LoadsWithin P loadCode') (code : BTreeMap B256 Bytes) (account : Account) :
    Agree (reloadCode loadCode code account) (reloadCode loadCode' code account) := by
  intro a b ha hb
  unfold reloadCode at ha hb
  by_cases hempty : account.codeHash = KECCAK_EMPTY
  · rw [if_pos hempty] at ha hb
    exact agree_refl _ a b ha hb
  · rw [if_neg hempty] at ha hb
    obtain ⟨loaded, hloaded, ha⟩ := bind_eq_ok.mp ha
    obtain ⟨loaded', hloaded', hb⟩ := bind_eq_ok.mp hb
    -- Both bodies exist and have the account's code hash.
    match loaded, loaded' with
    | none, _ => cases ha
    | some _, none => cases hb
    | some body, some body' =>
      obtain ⟨hbody, ha⟩ := check_bind_eq_ok.mp ha
      obtain ⟨hbody', hb⟩ := check_bind_eq_ok.mp hb
      rw [rejectIf_eq_ok, not_not] at hbody hbody'
      have hsame : body = body' :=
        hP (hload _ _ hloaded) (hload' _ _ hloaded') (hbody.trans hbody'.symm)
      rw [hsame] at ha
      exact agree_refl _ a b ha hb

theorem reloadAccounts_agree (hP : Set.InjOn keccak256 P) (hstore : Within P store)
    (hstore' : Within P store') (hload : LoadsWithin P loadCode)
    (hload' : LoadsWithin P loadCode') (accounts : List Bytes)
    (found : NodeStore × BTreeMap B256 Bytes) : Agree (reloadAccounts store loadCode accounts found)
      (reloadAccounts store' loadCode' accounts found) := by
  induction accounts generalizing found with
  | nil => exact agree_refl _
  | cons encoded rest ih =>
    obtain ⟨nodes, code⟩ := found
    refine (agree_refl _).bind fun account => ?_
    refine (reloadStorage_agree hP hstore hstore' nodes account).bind fun nodes => ?_
    exact (reloadCode_agree hP hload hload' code account).bind fun code => ih (nodes, code)

def contents (store : NodeStore) (loadCode : B256 → Except EvmError (Option Bytes)) : Set Bytes :=
  {bytes | (∃ hash : B256, store[hash]? = some bytes) ∨
    ∃ hash, loadCode hash = .ok (some bytes)}

/-- **Reloaded state is determined by the root.** -/
theorem reloaded_state_determined (root : B256) (store store' : NodeStore)
    (loadCode loadCode' : B256 → Except EvmError (Option Bytes)) (state state' : ExecutionState)
    (hinj : Set.InjOn keccak256 (contents store loadCode ∪ contents store' loadCode'))
    (h : fromPersisted root store loadCode = .ok state)
    (h' : fromPersisted root store' loadCode' = .ok state') : state = state' := by
  have hstore : Within (contents store loadCode ∪ contents store' loadCode') store :=
    fun hash bytes hget => .inl (.inl ⟨hash, hget⟩)
  have hstore' : Within (contents store loadCode ∪ contents store' loadCode') store' :=
    fun hash bytes hget => .inr (.inl ⟨hash, hget⟩)
  have hload : LoadsWithin (contents store loadCode ∪ contents store' loadCode') loadCode :=
    fun hash body hget => .inl (.inr ⟨hash, hget⟩)
  have hload' : LoadsWithin (contents store loadCode ∪ contents store' loadCode') loadCode' :=
    fun hash body hget => .inr (.inr ⟨hash, hget⟩)
  have hagree : Agree (fromPersisted root store loadCode)
      (fromPersisted root store' loadCode') := by
    refine (collectLeaves_agree hinj hstore hstore' root).mapError.bind fun leaves => ?_
    refine (agree_refl _).bind fun accounts => (agree_refl _).bind fun _ => ?_
    refine (reloadAccounts_agree hinj hstore hstore' hload hload' _ _).bind fun found => ?_
    exact agree_refl _
  exact hagree state state' h h'

end Reload

section Sample

attribute [local instance] rollingKeccak

def storedAllocations : BTreeMap Address GenesisAccount :=
  (∅ : BTreeMap Address GenesisAccount).insert 0xc0de
    ⟨1, 7, [0x60, 0x00], (∅ : BTreeMap U256 U256).insert 3 5⟩

def storedState : ExecutionState :=
  match fromGenesis storedAllocations with
  | .ok state => state
  | .error _ => ⟨⟨0, ∅, ∅⟩, ∅, ∅, ∅⟩

def crowdedStore : NodeStore := storedState.trieNodes.insert 1 [0xff]

def storedCode (hash : B256) : Except EvmError (Option Bytes) := .ok storedState.contractCode[hash]?

def storedBytes : List Bytes :=
  crowdedStore.toList.map Prod.snd ++ storedState.trieNodes.toList.map Prod.snd ++
    storedState.contractCode.toList.map Prod.snd

def reloads (store : NodeStore) : Bool :=
  match fromPersisted storedState.stateRoot store storedCode with
  | .ok state => state.contractCode[keccak256 [0x60, 0x00]]? == some [0x60, 0x00]
  | .error _ => false

theorem exists_of_reloads {store : NodeStore} (h : reloads store = true) :
    ∃ state, fromPersisted storedState.stateRoot store storedCode = .ok state ∧
      state.contractCode[keccak256 [0x60, 0x00]]? = some [0x60, 0x00] := by
  unfold reloads at h
  cases hload : fromPersisted storedState.stateRoot store storedCode with
  | ok state =>
    rw [hload] at h
    exact ⟨state, rfl, by simpa using h⟩
  | error e =>
    rw [hload] at h
    cases h

/-- One root reloaded from its own nodes and from a store with foreign bytes. -/
theorem reloaded_state_determined_crowded : ∃ state state',
    fromPersisted storedState.stateRoot storedState.trieNodes storedCode = .ok state ∧
    fromPersisted storedState.stateRoot crowdedStore storedCode = .ok state' ∧
    state.contractCode[keccak256 [0x60, 0x00]]? = some [0x60, 0x00] ∧ state = state' := by
  have hvalue : ∀ (store : BTreeMap B256 Bytes) (hash : B256) (bytes : Bytes),
      store[hash]? = some bytes → bytes ∈ store.toList.map Prod.snd := by
    intro store hash bytes hget
    exact List.mem_map.mpr
      ⟨(hash, bytes), Std.ExtTreeMap.mem_toList_iff_getElem?_eq_some.mpr hget, rfl⟩
  have hsub : ∀ bytes ∈ contents storedState.trieNodes storedCode ∪ contents crowdedStore
      storedCode,
      bytes ∈ storedBytes := by
    rintro bytes ((⟨hash, hget⟩ | ⟨hash, hget⟩) | ⟨hash, hget⟩ | ⟨hash, hget⟩)
    · exact List.mem_append_left _ (List.mem_append_right _ (hvalue _ hash _ hget))
    · exact List.mem_append_right _ (hvalue _ hash _ (Except.ok.inj hget))
    · exact List.mem_append_left _ (List.mem_append_left _ (hvalue _ hash _ hget))
    · exact List.mem_append_right _ (hvalue _ hash _ (Except.ok.inj hget))
  have hinj : ∀ p ∈ storedBytes, ∀ q ∈ storedBytes, keccak256 p = keccak256 q → p = q := by
    decide +kernel
  have hown : reloads storedState.trieNodes = true := by decide +kernel
  have hcrowded : reloads crowdedStore = true := by decide +kernel
  obtain ⟨state, hstate, hcode⟩ := exists_of_reloads hown
  obtain ⟨state', hstate', -⟩ := exists_of_reloads hcrowded
  have hcollisions : Set.InjOn keccak256
      (contents storedState.trieNodes storedCode ∪ contents crowdedStore storedCode) := by
    intro p hp q hq
    exact hinj p (hsub p hp) q (hsub q hq)
  exact ⟨state, state', hstate, hstate', hcode,
    reloaded_state_determined storedState.stateRoot storedState.trieNodes crowdedStore storedCode
      storedCode state state' hcollisions hstate hstate'⟩

end Sample

end ExecutionState

end Arbor
