import Arbor.Evm.Nonces
import Arbor.Evm.StateUpdates

/-!
# Failed transactions

A transaction that the virtual machine rejects leaves the state alone.  One that it accepts
is applied: the journal pairs every code hash with its body, and a state reached by such
transactions resolves, so no step of applying the changes can fail but for the number of
leaves.  That limit is checked after the new contract bodies are in the state.
-/

namespace Arbor

open Result SystemContract Trie Journal

namespace Journal

section Coded

variable [Keccak] {db : Database} {journal after : Journal}

variable {frame : Frame}

/-- An account has the body of its code hash, or the code it is stored with. -/
def CodedAccount (db : Database) (address : Address) (account : AccountChange) : Prop :=
  (∀ body, account.code = some body → account.codeHash = keccak256 body) ∧
    (account.code = none → account.codeHash = (stored db address).codeHash)

/-- So does every account of a journal. -/
def Coded (db : Database) (journal : Journal) : Prop :=
  ∀ address, CodedAccount db address (journal.load db address)

theorem coded_empty : Coded db empty := by
  intro address
  have hload : empty.load db address = stored db address := by
    rfl
  have hnone : (stored db address).code = none := by
    unfold stored
    split <;> rfl
  rw [hload]
  refine ⟨fun body hbody => ?_, fun _ => rfl⟩
  rw [hnone] at hbody
  cases hbody

section

variable (h : Coded db journal)
include h

theorem Coded.of_mild (hmild : Mild db journal after) : Coded db after := by
  intro address
  rw [CodedAccount, (hmild address).code, (hmild address).codeHash]
  exact h address

theorem Coded.set {address : Address} {account : AccountChange}
    (haccount : CodedAccount db address account) : Coded db (journal.set address account) := by
  intro other
  rw [load_set]
  split
  · rename_i heq
    exact heq ▸ haccount
  · exact h other

theorem Coded.charge {invoke : Invoke}
    (hcharge : Journal.charge db frame invoke journal = some after) : Coded db after := by
  cases invoke with
  | message scheme address value input outOfGas =>
    simp only [Journal.charge, Option.ite_none_left_eq_some, Option.some.injEq] at hcharge
    exact hcharge.2 ▸ h
  | create address value code =>
    simp only [Journal.charge, Option.ite_none_left_eq_some, Option.some.injEq] at hcharge
    rw [← hcharge.2]
    exact h.set (h frame.target)

theorem Coded.enter {inner : Frame} {invoke : Invoke}
    (henter : enter db frame invoke journal = some (inner, after)) : Coded db after := by
  cases invoke with
  | message scheme address value input outOfGas =>
    obtain ⟨entered, hentered, heq⟩ := Option.map_eq_some_iff.mp henter
    cases heq
    unfold enterMessage at hentered
    split at hentered
    · exact h.of_mild (mild_transfer hentered)
    · cases hentered
      exact h
  | create address value code =>
    obtain ⟨entered, hentered, heq⟩ := Option.map_eq_some_iff.mp henter
    cases heq
    simp only [enterCreate, Option.ite_none_left_eq_some] at hentered
    have hcreated : Coded db (journal.set address { journal.load db address with
        nonce := 1, storage := ∅, touched := true, created := true }) := h.set (h address)
    exact hcreated.of_mild (mild_transfer hentered.2)

/-- A creation stores the code it returned under its hash. -/
theorem Coded.leave (frame : Frame) (invoke : Invoke) :
    Coded db (leave db frame invoke journal) := by
  cases invoke with
  | message scheme address value input outOfGas => exact h
  | create address value code =>
    refine h.set ⟨fun body hbody => ?_, fun hnone => by cases hnone⟩
    cases hbody
    split
    · rename_i hempty
      rw [hempty]
      rfl
    · rfl

end

end Coded

end Journal

section Transactions

variable [Keccak]

open ArborPrecompiles Journal

/-- Whatever a transaction does, its journal stays coded. -/
theorem preserves_coded (precompiles : ArborPrecompiles) (db : Database) :
    (precompiles.machine db).Preserves (fun _ => True) (fun _ => True) (Coded db) where
  step _ _ hbefore h := hbefore.of_mild (mild_act h)
  charge _ _ hbefore h := hbefore.charge h
  enter _ _ _ hbefore h := ⟨trivial, hbefore.enter h⟩
  native _ hnative hbefore h := hbefore.of_mild (mild_native hnative h)
  leave _ hbefore := hbefore.leave _ _

variable [Revm]

theorem coded_transact {input : RevmInput} {outcome : Transacted}
    (h : transact input = .ok outcome) : Coded input.database outcome.journal := by
  obtain ⟨script, _, h⟩ := bind_eq_ok.mp h
  obtain ⟨ended, hended, h⟩ := bind_eq_ok.mp h
  cases h
  have hpaid : Coded input.database (empty.debit input.database input.sender
      (input.transaction.gasLimit.toNat * effectiveGasPrice input.env input.transaction)) :=
    coded_empty.of_mild (mild_setBalance _ _ _)
  have hcharged : Coded input.database
      (empty.chargeSender input.database input.env input.transaction input.sender) := by
    unfold chargeSender
    split
    · exact hpaid
    · exact hpaid.set (hpaid input.sender)
  have hstate := (Machine.invoke_run_preserves (preserves_coded _ _)
    (CallTree.calls_of_forall (fun _ => trivial) _) trivial trivial rfl hcharged
    (mapError_eq_ok.mp hended)).1
  exact hstate.of_mild ((mild_setBalance _ _ _).trans (mild_setBalance _ _ _))

end Transactions

namespace ExecutionState

section Atomicity

variable [Keccak] {P : Set Bytes} {keys : Set B256} {state : ExecutionState}

theorem paired_of_coded {journal : Journal} (h : Coded state.database journal) :
    ∀ change ∈ journal.accounts.toList, Paired state change.1 change.2 := by
  intro change hmem
  have hload : journal.load state.database change.1 = change.2 := by
    rw [load, Std.ExtTreeMap.mem_toList_iff_getElem?_eq_some.mp hmem, Option.getD_some]
  obtain ⟨hbody, hkept⟩ := h change.1
  rw [hload] at hbody hkept
  refine ⟨hbody, fun hnone => ?_⟩
  rw [hkept hnone]
  cases haccount : state.account change.1 with
  | error e =>
    refine .inl ?_
    simp [stored, database, haccount, Except.mapError, Except.map]
  | ok account =>
    cases account with
    | none =>
      refine .inl ?_
      simp [stored, database, haccount, Except.mapError, Except.map]
    | some account =>
      refine .inr ⟨account, rfl, ?_⟩
      simp [stored, database, haccount, Except.mapError, Except.map]

/-! ## Room in the tries -/

/-- Whether a touched account has a leaf afterwards. -/
def Keeps (change : AccountChange) : Bool :=
  !change.selfdestructed && !(changeAccount change EMPTY_ROOT_HASH).isEmpty

/-- No trie outgrows its limit, counted on the state before: the leaves there are, with those
that the touched accounts and the changed slots bring and without those they take away. -/
structure Room (state : ExecutionState) (changes : List (Address × AccountChange)) : Prop where
  accounts : OrdMap.sizeAfter state.accounts.leaves ((changes.filter (·.2.touched)).map
    fun change => (secureAccountKey change.1, Keeps change.2)) < 2 ^ 32
  storage : ∀ change ∈ changes, change.2.touched = true → change.2.selfdestructed = false →
    OrdMap.sizeAfter (state.storedLeaves change.1 change.2) (change.2.changedStorageSlots.map
      fun slot => (secureStorageKey slot.1, decide (slot.2 ≠ 0))) < 2 ^ 32

theorem size_writeSlots (hash : Hashing P keys) {change : AccountChange}
    (hslots : ∀ slot ∈ change.changedStorageSlots, toBytes slot.1 ∈ P) (base : Leaves) :
    (change.changedStorageSlots.foldl writeSlot base).size
      = OrdMap.sizeAfter base (change.changedStorageSlots.map
        fun slot => (secureStorageKey slot.1, decide (slot.2 ≠ 0))) := by
  have hfold : writeSlot = fun leaves slot =>
      OrdMap.write leaves (secureStorageKey (Prod.fst slot)) (storageTrieValue slot.2) :=
    funext₂ writeSlot_eq
  rw [hfold, OrdMap.size_writes (fun slot => secureStorageKey (Prod.fst slot))
    (fun slot => storageTrieValue slot.2) (nodup_slotKeys hash hslots)]
  congr 2
  funext slot
  rw [storageTrieValue]
  split <;> simp_all

theorem Wrote.isSome_eq {added : NodeStore} {address : Address} {change : AccountChange}
    {value : Option Bytes} (h : Wrote P keys state added address change value) :
    value.isSome = Keeps change := by
  cases h with
  | deleted hdestroyed => simp [Keeps, hdestroyed]
  | cleared root hkept hempty =>
    have hsame : (changeAccount change EMPTY_ROOT_HASH).isEmpty = true := hempty
    simp [Keeps, hkept, hsame]
  | updated leaves hkept hempty =>
    have hsame : (changeAccount change EMPTY_ROOT_HASH).isEmpty = false := hempty
    simp [Keeps, hkept, hsame]

variable {changes : List (Address × AccountChange)}

theorem size_merged (hash : Hashing P keys) (hnodup : (changes.map Prod.fst).Nodup)
    (haddresses : ∀ change ∈ changes, toBytes change.1 ∈ P)
    {code : BTreeMap B256 Bytes} {applying : Applying} (h : ChangesRun P keys state changes
      ⟨StateOverlay.fromSnapshot state.accounts, ∅, code⟩ applying) :
    applying.overlay.merged.size = OrdMap.sizeAfter state.accounts.leaves
      ((changes.filter (·.2.touched)).map fun change =>
        (secureAccountKey change.1, Keeps change.2)) := by
  let value (change : Address × AccountChange) : Option Bytes :=
    applying.overlay.writes[secureAccountKey change.1]?.getD none
  have hkeys : ((changes.filter (·.2.touched)).map
      fun change => secureAccountKey change.1).Nodup := by
    have hfirst : ((changes.filter (·.2.touched)).map Prod.fst).Nodup :=
      hnodup.sublist (List.filter_sublist.map _)
    rw [List.Nodup, List.pairwise_map] at hfirst ⊢
    exact hfirst.imp_of_mem fun ha hb hne heq => hne (hash.account_inj
      (haddresses _ (List.mem_of_mem_filter ha)) (haddresses _ (List.mem_of_mem_filter hb)) heq)
  have hmerged : applying.overlay.merged = (changes.filter (·.2.touched)).foldl
      (fun leaves change => OrdMap.write leaves (secureAccountKey change.1) (value change))
      state.accounts.leaves := by
    refine Std.ExtTreeMap.ext_getElem? fun key => ?_
    rw [StateOverlay.getElem?_merged, h.base]
    by_cases hmem : key ∈ (changes.filter (·.2.touched)).map
        fun change => secureAccountKey change.1
    · obtain ⟨change, hchange, rfl⟩ := List.mem_map.mp hmem
      obtain ⟨hlisted, htouched⟩ := List.mem_filter.mp hchange
      obtain ⟨written, _, hwritten⟩ := h.touched change hlisted htouched
      rw [OrdMap.getElem?_writes_of_mem (fun change => secureAccountKey (Prod.fst change)) value
        hkeys hchange, hwritten, Option.getD_some]
      simp only [value, hwritten, Option.getD_some]
    · rw [OrdMap.getElem?_writes_of_not_mem _ _ hmem, h.untouched key fun change hlisted htouched
        heq => hmem (List.mem_map.mpr ⟨change, List.mem_filter.mpr ⟨hlisted, htouched⟩, heq.symm⟩)]
      rfl
  rw [hmerged, OrdMap.size_writes _ value hkeys]
  congr 1
  refine List.map_congr_left fun change hchange => ?_
  obtain ⟨hlisted, htouched⟩ := List.mem_filter.mp hchange
  obtain ⟨written, hwrote, hwritten⟩ := h.touched change hlisted htouched
  simp only [value, hwritten, Option.getD_some, hwrote.isSome_eq]

/-- **Room** is what the tries that are built need. -/
theorem Resolvable.sized_iff_room (hash : Hashing P keys) (h : Resolvable P keys state)
    {changes : BTreeMap Address AccountChange} (hconfined : Confined P keys state changes.toList)
    (hpaired : ∀ change ∈ changes.toList, Paired state change.1 change.2) :
    Sized state changes.toList ↔ Room state changes.toList := by
  have hsize {applying : Applying} (happly : state.applyAll changes.toList
      ⟨StateOverlay.fromSnapshot state.accounts, ∅, state.contractCode⟩ = .ok applying) :=
    size_merged hash (OrdMap.nodup_keys changes) hconfined.addresses
      (applyAll_eq_ok hash (OrdMap.nodup_keys changes) hconfined.addresses
      (fun change hmem leaves hwrites => hconfined.storage hmem hwrites.1 hwrites.2.1 hwrites.2.2)
      happly)
  constructor
  · intro hsized
    obtain ⟨applying, happly, _⟩ := h.applyAll_succeeds hash hpaired
      (fun change hmem leaves hwrites =>
        ⟨hconfined.storage hmem hwrites.1 hwrites.2.1 hwrites.2.2,
          hsized.storage hmem hwrites.1 hwrites.2.1 hwrites.2.2⟩)
      ⟨StateOverlay.fromSnapshot state.accounts, ∅, state.contractCode⟩ fun _ => id
    refine ⟨hsize happly ▸ hsized.accounts happly, fun change hmem htouched hkept => ?_⟩
    obtain ⟨base, heq, _, _, rfl⟩ := h.changedLeaves_eq hash change.1 change.2
    rw [← size_writeSlots hash (hconfined.slots _ hmem)]
    exact hsized.storage hmem htouched hkept heq
  · intro hroom
    refine ⟨fun {address change leaves} hmem htouched hkept hleaves => ?_, fun happly => ?_⟩
    · obtain ⟨base, heq, _, _, rfl⟩ := h.changedLeaves_eq hash address change
      rw [heq] at hleaves
      cases hleaves
      rw [size_writeSlots hash (hconfined.slots _ hmem)]
      exact hroom.storage (address, change) hmem htouched hkept
    · rw [hsize happly]
      exact hroom.accounts

/-! ## Executions -/

variable [Revm]

/-- States from genesis or a persisted root, and from successful executions. -/
inductive Executed (P : Set Bytes) (keys : Set B256) : ExecutionState → Prop
  | genesis {allocations : BTreeMap Address GenesisAccount} {state : ExecutionState} :
      GenesisConfined P keys allocations → fromGenesis allocations = .ok state →
      Executed P keys state
  | persisted {root : B256} {store : NodeStore}
      {loadCode : B256 → Except EvmError (Option Bytes)} {state : ExecutionState} :
      PersistedConfined P keys root store → fromPersisted root store loadCode = .ok state →
      Executed P keys state
  | executed {state after : ExecutionState} {spec : ProtocolSpec} {env : DomainEnv}
      {transaction : Eip1559Transaction} {sender : Address}
      {registry : Option ChainRegistryRuntime} {result : EvmExecution} :
      Executed P keys state →
      (∀ outcome, runTransaction state spec env transaction sender registry = .ok outcome →
        Confined P keys state outcome.journal.accounts.toList) →
      executeTransactionWithSystem state spec env transaction sender registry
        = .ok (result, after) →
      Executed P keys after

theorem paired_of_runTransaction {spec : ProtocolSpec} {env : DomainEnv}
    {transaction : Eip1559Transaction} {sender : Address} {registry : Option ChainRegistryRuntime}
    {outcome : Transacted}
    (h : runTransaction state spec env transaction sender registry = .ok outcome) :
    ∀ change ∈ outcome.journal.accounts.toList, Paired state change.1 change.2 :=
  paired_of_coded (coded_transact (runTransaction_eq_ok h))

theorem Executed.obtained (h : Executed P keys state) : Obtained P keys state := by
  induction h with
  | genesis hconfined h => exact .genesis hconfined h
  | persisted hconfined h => exact .persisted hconfined h
  | executed _ hconfined h ih =>
    obtain ⟨outcome, hran, h⟩ := bind_eq_ok.mp h
    obtain ⟨applied, happlied, h⟩ := bind_eq_ok.mp h
    cases h
    have hran := mapError_eq_ok.mp hran
    exact .applied ih (hconfined outcome hran) (paired_of_runTransaction hran) happlied

/-- **Failed executions.**  A failed execution leaves the state as it was, and the changes of
an accepted transaction are applied, exactly if there is room for these changes. -/
theorem failed_execution_keeps_state (hash : Hashing P keys) (h : Executed P keys state)
    (spec : ProtocolSpec) (env : DomainEnv) (transaction : Eip1559Transaction) (sender : Address)
    (registry : Option ChainRegistryRuntime)
    (hconfined : ∀ outcome, runTransaction state spec env transaction sender registry
      = .ok outcome →
      Confined P keys state outcome.journal.accounts.toList) :
    ((∀ failure, executeTransactionWithSystem state spec env transaction sender registry
        = .error failure → failure.state = state) ∧
      ∀ outcome, runTransaction state spec env transaction sender registry = .ok outcome →
        ∃ after, state.applyChanges outcome.journal.accounts.toList = .ok after) ↔
      ∀ outcome, runTransaction state spec env transaction sender registry = .ok outcome →
        Room state outcome.journal.accounts.toList := by
  have hstate := h.obtained.resolvable hash
  have happlied : ∀ outcome,
      runTransaction state spec env transaction sender registry = .ok outcome →
      ((∃ after, state.applyChanges outcome.journal.accounts.toList = .ok after) ↔
        Room state outcome.journal.accounts.toList) := by
    intro outcome hran
    rw [← hstate.sized_iff_room hash (hconfined outcome hran) (paired_of_runTransaction hran)]
    refine ⟨fun ⟨after, hafter⟩ => sized_of_applyChanges hafter, fun hsized => ?_⟩
    obtain ⟨after, _, hafter, _⟩ := hstate.applyChanges_succeeds hash (hconfined outcome hran)
      (paired_of_runTransaction hran) hsized
    exact ⟨after, hafter⟩
  refine ⟨fun hkept outcome hran => (happlied outcome hran).mp (hkept.2 outcome hran), fun hroom =>
    ⟨fun failure hfailed => ?_, fun outcome hran =>
      (happlied outcome hran).mpr (hroom outcome hran)⟩⟩
  rcases bind_eq_error.mp hfailed with hrejected | ⟨outcome, hran, hfailed⟩
  · cases hran : runTransaction state spec env transaction sender registry with
    | ok outcome =>
      rw [hran] at hrejected
      cases hrejected
    | error error =>
      rw [hran] at hrejected
      cases hrejected
      rfl
  · have hran := mapError_eq_ok.mp hran
    obtain ⟨after, hafter⟩ := (happlied outcome hran).mpr (hroom outcome hran)
    rw [hafter] at hfailed
    cases hfailed

end Atomicity

section Sample

open BigEndian

variable {n : Nat} {address : Address} {state : ExecutionState}

@[reducible] def twinKeccak : Keccak :=
  ⟨fun input => if input.length = 20 then ofBytes 256 (input.drop 4 ++ input.drop 4)
    else rollingKeccak.keccak256 input⟩

@[reducible] def creatingRevm [Keccak] : Revm where
  script input :=
    if Payable input then
      .ok ⟨.done true, false, input.transaction.gasLimit, [], 0xcc00000000, [0x60]⟩
    else .error (.transaction "transaction rejected")
  intrinsicGas _ := 21000

attribute [local instance] twinKeccak creatingRevm

theorem unpackNibbles_key (address : Address) : unpackNibbles (secureAccountKey address)
      = Nibbles.unpack (beBytes 16 address.toNat) ++ Nibbles.unpack (beBytes 16 address.toNat) := by
  have hbytes : toBytes address
      = beBytes 4 (address.toNat / 256 ^ 16) ++ beBytes 16 address.toNat := beBytes_add 4 16 _
  have hkey : secureAccountKey address
      = ofBytes 256 (beBytes 16 address.toNat ++ beBytes 16 address.toNat) := by
    have hlength : (toBytes address).length = 20 := length_toBytes address
    have hdrop : (toBytes address).drop 4 = beBytes 16 address.toNat := by
      rw [hbytes, List.drop_left' (length_beBytes _ _)]
    have hif : secureAccountKey address
        = ofBytes 256 ((toBytes address).drop 4 ++ (toBytes address).drop 4) := by
      change (if (toBytes address).length = 20 then
        ofBytes 256 ((toBytes address).drop 4 ++ (toBytes address).drop 4)
        else rollingKeccak.keccak256 (toBytes address)) = _
      rw [if_pos hlength]
    rw [hif, hdrop]
  rw [hkey, unpackNibbles, toBytes_ofBytes (by simp), Nibbles.unpack_append]

theorem unpack_inj {x y : Nat} (hx : x < 2 ^ 128) (hy : y < 2 ^ 128)
    (h : Nibbles.unpack (beBytes 16 x) = Nibbles.unpack (beBytes 16 y)) : x = y := by
  have hbytes := congrArg beNat (Nibbles.unpack_injective h)
  rwa [beNat_beBytes_of_lt (by omega), beNat_beBytes_of_lt (by omega)] at hbytes

def smallKeys : Set B256 := {key | ∃ address : Address, address.toNat < 2 ^ 128 ∧
  key = Trie.secureAccountKey address}

theorem spread_smallKeys : Spread smallKeys := by
  rintro _ ⟨a, ha, rfl⟩ _ ⟨b, hb, rfl⟩
  have hlength : ∀ x, (Nibbles.unpack (beBytes 16 x)).length = 32 := by simp
  rw [unpackNibbles_key, unpackNibbles_key, List.take_left' (hlength _)]
  have hsame (h : Nibbles.unpack (beBytes 16 a.toNat) = Nibbles.unpack (beBytes 16 b.toNat)) :
      secureAccountKey a = secureAccountKey b :=
    congrArg _ (BitVec.eq_of_toNat_eq (unpack_inj ha hb h))
  exact ⟨hsame, hsame⟩

theorem smallKey_inj {a b : Address} (ha : a.toNat < 2 ^ 128) (hb : b.toNat < 2 ^ 128)
    (h : secureAccountKey a = secureAccountKey b) : a = b := by
  have hunpacked := congrArg unpackNibbles h
  rw [unpackNibbles_key, unpackNibbles_key] at hunpacked
  exact BitVec.eq_of_toNat_eq (unpack_inj ha hb (List.append_inj_left hunpacked (by simp)))

/-! A genesis of many accounts. -/

def member : GenesisAccount := ⟨1, 0, [], ∅⟩

def memberLeaf : Bytes := encodeAccount ⟨1, 0, Trie.EMPTY_ROOT_HASH, KECCAK_EMPTY⟩

def crowd : Nat → BTreeMap Address GenesisAccount
  | 0 => ∅
  | n + 1 => (crowd n).insert (BitVec.ofNat 160 n) member

theorem getElem?_crowd (hn : n ≤ 2 ^ 128) {allocated : GenesisAccount}
    (h : (crowd n)[address]? = some allocated) : address.toNat < n ∧ allocated = member := by
  induction n with
  | zero =>
    cases h
  | succ n ih =>
    rw [crowd, OrdMap.getElem?_insert] at h
    split at h
    · rename_i heq
      cases h
      rw [← heq, BitVec.toNat_ofNat, Nat.mod_eq_of_lt (by omega)]
      exact ⟨Nat.lt_succ_self n, rfl⟩
    · obtain ⟨hlt, hmember⟩ := ih (by omega) h
      exact ⟨by omega, hmember⟩

theorem size_crowd (hn : n ≤ 2 ^ 128) : (crowd n).size = n := by
  induction n with
  | zero => exact Std.ExtTreeMap.size_empty
  | succ n ih =>
    have hfresh : ¬(crowd n).contains (BitVec.ofNat 160 n) = true := by
      rw [Std.ExtTreeMap.contains_iff_mem, OrdMap.mem_iff_exists]
      rintro ⟨allocated, hallocated⟩
      have hlt := (getElem?_crowd (by omega) hallocated).1
      rw [BitVec.toNat_ofNat] at hlt
      omega
    rw [crowd, Std.ExtTreeMap.size_insert, if_neg hfresh, ih (by omega)]

structure OneLeafEach (allocations : List (Address × GenesisAccount)) (before after : Leaves) :
    Prop where
  size : after.size = before.size + allocations.length
  leaf : ∀ (key : B256) (value : Bytes), after[key]? = some value → before[key]? = some value ∨
    value = memberLeaf ∧ ∃ allocation ∈ allocations, key = Trie.secureAccountKey allocation.1

theorem materializeAll_members {allocations : List (Address × GenesisAccount)}
    (hmembers : ∀ allocation ∈ allocations, allocation.1.toNat < 2 ^ 128 ∧ allocation.2 = member)
    (hnodup : (allocations.map Prod.fst).Nodup) : ∀ before : Leaves,
      (∀ allocation ∈ allocations, secureAccountKey allocation.1 ∉ before) →
      ∃ after, materializeAll allocations ⟨before, ∅, ∅⟩ = .ok ⟨after, ∅, ∅⟩ ∧
        OneLeafEach allocations before after := by
  induction allocations with
  | nil => exact fun before _ => ⟨before, rfl, rfl, fun _ _ h => .inl h⟩
  | cons first rest ih =>
    intro before hfresh
    obtain ⟨address, allocated⟩ := first
    obtain ⟨hsmall, rfl⟩ := hmembers _ List.mem_cons_self
    rw [List.map_cons, List.nodup_cons] at hnodup
    have hrest : ∀ allocation ∈ rest, secureAccountKey allocation.1
        ∉ before.insert (secureAccountKey address) memberLeaf := by
      intro allocation hmem hinside
      rcases Std.ExtTreeMap.mem_insert.mp hinside with hsame | hold
      · have hkey := Std.LawfulEqCmp.compare_eq_iff_eq.mp hsame
        have heq : address = allocation.1 := smallKey_inj hsmall
          (hmembers allocation (List.mem_cons_of_mem _ hmem)).1 hkey
        have hmapped : allocation.1 ∈ rest.map Prod.fst := List.mem_map_of_mem hmem
        rw [← heq] at hmapped
        exact hnodup.1 hmapped
      · exact hfresh allocation (List.mem_cons_of_mem _ hmem) hold
    obtain ⟨after, hafter, hsize, hleaf⟩ := ih
      (fun allocation hmem => hmembers allocation (List.mem_cons_of_mem _ hmem)) hnodup.2 _ hrest
    refine ⟨after, ?_, ?_, ?_⟩
    · exact hafter
    · have hnew : ¬before.contains (secureAccountKey address) = true := by
        exact hfresh (address, member) List.mem_cons_self
      rw [hsize, Std.ExtTreeMap.size_insert, if_neg hnew, List.length_cons]
      omega
    · intro key value hvalue
      rcases hleaf key value hvalue with hbefore | ⟨hmember, allocation, hmem, hkey⟩
      · rw [OrdMap.getElem?_insert] at hbefore
        split at hbefore
        · rename_i hkey
          cases hbefore
          exact .inr ⟨rfl, (address, member), List.mem_cons_self, hkey.symm⟩
        · exact .inl hbefore
      · exact .inr ⟨hmember, allocation, List.mem_cons_of_mem _ hmem, hkey⟩

structure Crowded (n : Nat) (state : ExecutionState) : Prop where
  size : state.accounts.leaves.size = n
  code : state.contractCode = ∅
  leaf : ∀ (key : B256) (value : Bytes), state.accounts.leaves[key]? = some value →
    ∃ address : Address, address.toNat < n ∧ key = Trie.secureAccountKey address

theorem fromGenesis_crowd (hn : n < 2 ^ 32) :
    ∃ state, fromGenesis (crowd n) = .ok state ∧ Crowded n state := by
  have hcrowd {allocation : Address × GenesisAccount} (hmem : allocation ∈ (crowd n).toList) :
      allocation.1.toNat < n ∧ allocation.2 = member :=
    getElem?_crowd (by omega) (Std.ExtTreeMap.mem_toList_iff_getElem?_eq_some.mp hmem)
  obtain ⟨leaves, hfound, hsize, hleaf⟩ := materializeAll_members
    (fun allocation hmem => ⟨lt_trans (hcrowd hmem).1 (by omega), (hcrowd hmem).2⟩)
    (OrdMap.nodup_keys (crowd n)) ∅ (fun _ _ => Std.ExtTreeMap.not_mem_empty)
  rw [Std.ExtTreeMap.length_toList, size_crowd (by omega), Std.ExtTreeMap.size_empty,
    Nat.zero_add] at hsize
  have hmember {key : B256} {value : Bytes} (hvalue : leaves[key]? = some value) :
      value = memberLeaf ∧ ∃ address : Address, address.toNat < n ∧
        key = secureAccountKey address := by
    rcases hleaf key value hvalue with hempty | ⟨hvalue, allocation, hmem, hkey⟩
    · cases hempty
    · exact ⟨hvalue, allocation.1, (hcrowd hmem).1, hkey⟩
  have hvectors : Vectors leaves := by
    intro key value hvalue
    rw [(hmember hvalue).1]
    exact short_encodeAccount _
  obtain ⟨state, hstate, hleaves, hcode⟩ := fromGenesis_of_leaves hfound hvectors (by omega)
  refine ⟨state, hstate, ?_, hcode, fun key value hvalue => ?_⟩
  · rw [hleaves]
    exact hsize
  · rw [hleaves] at hvalue
    exact (hmember hvalue).2

theorem Crowded.account_eq (h : Crowded n state) (hn : n < 2 ^ 32) (hlarge : 2 ^ 32 ≤ address.toNat)
    (hsmall : address.toNat < 2 ^ 128) :
    state.accounts.leaves[secureAccountKey address]? = none := by
  cases hleaf : state.accounts.leaves[secureAccountKey address]? with
  | none => rfl
  | some value =>
    obtain ⟨other, hother, hkey⟩ := h.leaf _ _ hleaf
    have hsame := smallKey_inj hsmall (by omega) hkey
    rw [hsame] at hlarge
    omega

/-! A creation on a state that has all but one of the leaves `build` accepts: the code of the
new contract is stored, then the account trie is refused. -/

def payer : Address := 0xaa00000000

def createdAccount : Address := 0xcc00000000

def creation : Eip1559Transaction := ⟨2048, 0, 0, 0, 60000, none, 0, [], [], false, 1, 1⟩

def creationEnv : DomainEnv := ⟨2048, 1, 1700000001, payer, 30000000, 0, 3⟩

def creationChanges : List (Address × AccountChange) :=
  [(payer, ⟨1, 0, KECCAK_EMPTY, none, ∅, true, false, false⟩),
    (createdAccount, ⟨1, 0, keccak256 [0x60], some [0x60], ∅, true, true, false⟩)]

def vacant (db : Database) : Database :=
  { db with basic := fun address =>
      if address = payer ∨ address = createdAccount then .ok none else db.basic address }

theorem vacant_eq {db : Database} (hpayer : db.basic payer = .ok none)
    (hcreated : db.basic createdAccount = .ok none) : vacant db = db := by
  have hbasic : (vacant db).basic = db.basic := by
    funext address
    change (if address = payer ∨ address = createdAccount then .ok none else db.basic address) = _
    split
    · rename_i heq
      rcases heq with rfl | rfl
      · exact hpayer.symm
      · exact hcreated.symm
    · rfl
  obtain ⟨basic, code, storage, blockHash⟩ := db
  exact congrArg (fun basic => Database.mk basic code storage blockHash) hbasic

theorem transact_creation (db : Database) : ∃ outcome,
    transact ⟨creationEnv, .V1, creation, payer, vacant db, none⟩ = .ok outcome ∧
      outcome.journal.accounts.toList = creationChanges ∧ outcome.journal.logs = [] :=
  ⟨_, rfl, rfl, rfl⟩

theorem Crowded.runTransaction_creation (h : Crowded n state) (hn : n < 2 ^ 32) : ∃ outcome,
    runTransaction state .V1 creationEnv creation payer none = .ok outcome ∧
      outcome.journal.accounts.toList = creationChanges := by
  have hbasic {address : Address} (hlarge : 2 ^ 32 ≤ address.toNat)
      (hsmall : address.toNat < 2 ^ 128) : state.database.basic address = .ok none := by
    simp only [database, account, h.account_eq hn hlarge hsmall]
    rfl
  obtain ⟨outcome, htransact, hchanges, hlogs⟩ := transact_creation state.database
  rw [vacant_eq (hbasic (by decide) (by decide)) (hbasic (by decide) (by decide))] at htransact
  refine ⟨outcome, ?_, hchanges⟩
  rw [runTransaction, htransact]
  simp only [mapError_ok, ok_bind, hlogs]
  rfl

theorem applyChange_vacant {applying : Applying} {change : AccountChange}
    (hvacant : state.accounts.leaves[secureAccountKey address]? = none)
    (htouched : change.touched = true) (hkept : change.selfdestructed = false)
    (hslots : change.storage = ∅) {code : BTreeMap B256 Bytes}
    (hcode : changedCode applying.contractCode change = .ok code) :
    state.applyChange applying (address, change) = .ok
      ⟨applying.overlay.setAccount address
        ⟨change.nonce, change.balance, EMPTY_ROOT_HASH, change.codeHash⟩,
        applying.addedNodes ∪ ∅, code⟩ := by
  have haccount : state.account address = .ok none := by
    rw [account, hvacant]
  have hleaves : state.changedLeaves address change = .ok ∅ := by
    have hnone : change.changedStorageSlots = [] := by
      rw [AccountChange.changedStorageSlots, hslots]
      rfl
    have hroot : ((none : Option Account).getD Account.default).storageRoot = EMPTY_ROOT_HASH :=
      rfl
    simp only [changedLeaves, haccount, ok_bind, hnone, List.foldl_nil]
    rw [if_pos (Or.inr hroot)]
    rfl
  have hbuild : build ∅ = .ok ⟨EMPTY_ROOT_HASH, ∅, ∅⟩ := rfl
  rw [applyChange, if_neg (by simp [htouched]), if_neg (by simp [hkept])]
  simp only [hleaves, hbuild, hcode, ofState, mapError_ok, ok_bind, pure_eq]

def creationOverlay (base : Leaves) : StateOverlay :=
  (StateOverlay.setAccount ⟨base, ∅⟩ payer ⟨1, 0, Trie.EMPTY_ROOT_HASH, KECCAK_EMPTY⟩).setAccount
    createdAccount ⟨1, 0, Trie.EMPTY_ROOT_HASH, keccak256 [0x60]⟩

theorem size_creationOverlay {base : Leaves} (hpayer : base[secureAccountKey payer]? = none) :
    base.size + 1 ≤ (creationOverlay base).merged.size := by
  have hmerged : (creationOverlay base).merged
      = (base.insert (secureAccountKey payer)
          (encodeAccount ⟨1, 0, EMPTY_ROOT_HASH, KECCAK_EMPTY⟩)).insert
        (secureAccountKey createdAccount)
          (encodeAccount ⟨1, 0, EMPTY_ROOT_HASH, keccak256 [0x60]⟩) := by
    rfl
  have hfresh : ¬base.contains (secureAccountKey payer) = true := by
    rw [Std.ExtTreeMap.contains_iff_mem, OrdMap.mem_iff_exists]
    rintro ⟨value, hvalue⟩
    rw [hpayer] at hvalue
    cases hvalue
  rw [hmerged]
  refine le_trans ?_ Std.ExtTreeMap.size_le_size_insert
  rw [Std.ExtTreeMap.size_insert, if_neg hfresh]

theorem Crowded.execute_creation (h : Crowded (2 ^ 32 - 1) state) :
    ∃ failure, executeTransactionWithSystem state .V1 creationEnv creation payer none
      = .error failure ∧ failure.state.contractCode = (∅ : BTreeMap B256 Bytes).insert
        (keccak256 [0x60]) [0x60] := by
  obtain ⟨outcome, hran, hchanges⟩ := h.runTransaction_creation (by decide)
  have hpayer : state.accounts.leaves[secureAccountKey payer]? = none :=
    h.account_eq (by decide) (by decide) (by decide)
  have hcreated : state.accounts.leaves[secureAccountKey createdAccount]? = none :=
    h.account_eq (by decide) (by decide) (by decide)
  have happly : state.applyAll creationChanges
      ⟨StateOverlay.fromSnapshot state.accounts, ∅, state.contractCode⟩
      = .ok ⟨creationOverlay state.accounts.leaves, ∅ ∪ ∅ ∪ ∅,
        (∅ : BTreeMap B256 Bytes).insert (keccak256 [0x60]) [0x60]⟩ := by
    rw [h.code, creationChanges, applyAll, applyChange_vacant hpayer rfl rfl rfl rfl]
    simp only [mapError_ok, ok_bind]
    rw [applyAll, applyChange_vacant hcreated rfl rfl rfl rfl]
    rfl
  have hlimit : (creationOverlay state.accounts.leaves).commit
      = .error (.limitExceeded "secure trie leaves") := by
    have hsize := size_creationOverlay hpayer
    rw [h.size] at hsize
    exact build_limit hsize
  refine ⟨⟨.state (StateError.limitExceeded "secure trie leaves").display,
    { state with contractCode := (∅ : BTreeMap B256 Bytes).insert (keccak256 [0x60]) [0x60] }⟩,
    ?_, rfl⟩
  rw [executeTransactionWithSystem, hran, mapError_ok, ok_bind, hchanges, applyChanges, happly,
    ok_bind]
  simp only [rebuild, hlimit]
  rfl

theorem failed_creation_keeps_code : ∃ (allocations : BTreeMap Address GenesisAccount)
    (state : ExecutionState) (outcome : Transacted) (failure : Failure),
    fromGenesis allocations = .ok state ∧
      runTransaction state .V1 creationEnv creation payer none = .ok outcome ∧
      Trie.Spread ({key | key ∈ state.accounts.leaves} ∪
        {key | ∃ change ∈ outcome.journal.accounts.toList, key = Trie.secureAccountKey change.1}) ∧
      executeTransactionWithSystem state .V1 creationEnv creation payer none = .error failure ∧
      failure.state ≠ state := by
  obtain ⟨state, hgenesis, hcrowded⟩ := fromGenesis_crowd (show 2 ^ 32 - 1 < 2 ^ 32 by decide)
  obtain ⟨outcome, hran, hchanges⟩ := hcrowded.runTransaction_creation (by decide)
  obtain ⟨failure, hfailed, hcode⟩ := hcrowded.execute_creation
  refine ⟨crowd (2 ^ 32 - 1), state, outcome, failure, hgenesis, hran, ?_, hfailed, ?_⟩
  · have hkeys : {key | key ∈ state.accounts.leaves} ∪ {key | ∃ change ∈
        outcome.journal.accounts.toList, key = secureAccountKey change.1} ⊆ smallKeys := ?_
    · exact fun a ha b hb => spread_smallKeys a (hkeys ha) b (hkeys hb)
    rintro key (hmem | ⟨change, hmem, rfl⟩)
    · obtain ⟨value, hvalue⟩ := OrdMap.mem_iff_exists.mp hmem
      obtain ⟨address, hsmall, hkey⟩ := hcrowded.leaf key value hvalue
      exact ⟨address, by omega, hkey⟩
    · rw [hchanges] at hmem
      have hsmall : ∀ change ∈ creationChanges, change.1.toNat < 2 ^ 128 := by decide
      exact ⟨change.1, hsmall change hmem, rfl⟩
  · rintro rfl
    rw [hcrowded.code] at hcode
    have hbody := congrArg (fun code => code[keccak256 [0x60]]?) hcode
    cases hbody

end Sample

section Payment

attribute [local instance] scatteringKeccak

@[reducible] def idleRevm : Revm := plainRevm fun _ => .done true

attribute [local instance] idleRevm

def smallPayment : Eip1559Transaction :=
  ⟨2048, 0, 0, 0, 60000, some 0xc0de, 3, [], [], false, 1, 1⟩

def paymentEnv : DomainEnv := ⟨2048, 1, 1700000001, 0xdead, 30000000, 0, 3⟩

def paidOutcome : Transacted :=
  (runTransaction heldState .V1 paymentEnv smallPayment 0xdead none).toOption.getD
    ⟨false, 0, [], none, .empty, []⟩

def paidState : ExecutionState :=
  (heldState.applyChanges paidOutcome.journal.accounts.toList).toOption.getD ⟨⟨0, ∅, ∅⟩, ∅, ∅, ∅⟩

def paidStore : NodeStore :=
  Trie.storeAll (heldState.trieNodes ∪ paidState.trieNodes)
    ([0x80] :: (paidOutcome.journal.accounts.toList.map fun change => toBytes change.1))

/-- The payment is applied; with a nonce ahead of its sender it fails and changes nothing. -/
theorem failed_execution_keeps_state_payment :
    (∃ outcome, runTransaction heldState .V1 paymentEnv smallPayment 0xdead none = .ok outcome ∧
      Room heldState outcome.journal.accounts.toList) ∧
    ∃ failure, executeTransactionWithSystem heldState .V1 paymentEnv
      { smallPayment with nonce := 5 } 0xdead none = .error failure ∧
      failure.state = heldState := by
  have hash : Hashing (nodesOf paidStore) {key | key ∈ heldKeys} :=
    ⟨injOn_nodesOf paidStore, inStore_iff.mp (by decide +kernel),
      spread_of_spreadOf (by decide +kernel)⟩
  have hconfined : genesisConfinedOf paidStore heldKeys heldAllocations = true := by decide +kernel
  have hgenesis : (fromGenesis heldAllocations).isOk = true := by decide +kernel
  have hexecuted : Executed (nodesOf paidStore) {key | key ∈ heldKeys} heldState :=
    .genesis (genesisConfined_of_genesisConfinedOf hconfined) (eq_ok_of_isOk hgenesis _)
  refine ⟨?_, ?_⟩
  · have hok : (runTransaction heldState .V1 paymentEnv smallPayment 0xdead none).isOk = true := by
      decide +kernel
    have hran : runTransaction heldState .V1 paymentEnv smallPayment 0xdead none
        = .ok paidOutcome := eq_ok_of_isOk hok _
    have hchanges : confinedOf paidStore heldKeys heldState paidOutcome.journal.accounts.toList
        = true := by decide +kernel
    have happlied : (heldState.applyChanges paidOutcome.journal.accounts.toList).isOk = true := by
      decide +kernel
    have happlied := eq_ok_of_isOk happlied ⟨⟨0, ∅, ∅⟩, ∅, ∅, ∅⟩
    have hsame {outcome : Transacted}
      (houtcome : runTransaction heldState .V1 paymentEnv smallPayment
        0xdead none = .ok outcome) : paidOutcome = outcome :=
      Except.ok.inj (hran.symm.trans houtcome)
    refine ⟨paidOutcome, hran, (failed_execution_keeps_state hash hexecuted .V1 paymentEnv
      smallPayment 0xdead none fun outcome houtcome => ?_).mp
      ⟨fun failure hfailed => ?_, fun outcome houtcome => ⟨_, hsame houtcome ▸ happlied⟩⟩
      paidOutcome hran⟩
    · exact hsame houtcome ▸ confined_of_confinedOf hchanges
    · rw [executeTransactionWithSystem, hran, mapError_ok, ok_bind, happlied] at hfailed
      cases hfailed
  · have hrejected : (runTransaction heldState .V1 paymentEnv { smallPayment with nonce := 5 }
        0xdead
        none).isOk = false := by decide +kernel
    have hfails : (executeTransactionWithSystem heldState .V1 paymentEnv
        { smallPayment with nonce := 5 } 0xdead none).isOk = false := by decide +kernel
    obtain ⟨failure, hfailed⟩ := eq_error_of_isOk hfails
    have hnone (outcome : Transacted) : ¬runTransaction heldState .V1 paymentEnv
        { smallPayment with nonce := 5 } 0xdead none = .ok outcome := by
      intro hran
      rw [hran] at hrejected
      cases hrejected
    refine ⟨failure, hfailed, ?_⟩
    exact (failed_execution_keeps_state hash hexecuted .V1 paymentEnv
      { smallPayment with nonce := 5 } 0xdead none fun outcome h => absurd h (hnone outcome)).mpr
      (fun outcome h => absurd h (hnone outcome)) |>.1 failure hfailed

end Payment

end ExecutionState

end Arbor
