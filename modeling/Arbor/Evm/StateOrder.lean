import Arbor.Evm.StateChanges

/-!
# The order of changes

The virtual machine hands over its changes in hash maps, and the state applies them in the
order these are iterated in.  What one change does depends on the state before all of them:
an account write, storage nodes and perhaps a contract body (`Effect`).  Effects commute, so
every order of the accounts, and of the slots of each account, leads to the same state.
-/

namespace Arbor

open Result List

namespace ExecutionState

section Order

variable [Keccak]

/-- The changes and their slots, each in some order. -/
structure Visits (changes first : List (Address × AccountChange))
    (order : Address × AccountChange → List (U256 × U256)) : Prop where
  perm : first.Perm changes
  slots : ∀ change ∈ changes, (order change).Perm change.2.changedStorageSlots

variable {state : ExecutionState}

/-! ## Effects -/

/-- What a change adds to the collected writes. -/
structure Effect where
  key : B256
  value : Option Bytes
  nodes : NodeStore
  code : Option (B256 × Bytes)

/-- The contract body a change brings, checked against its hash. -/
def newCode (change : AccountChange) : Except EvmError (Option (B256 × Bytes)) :=
  match change.code with
  | none => .ok none
  | some bytes =>
    if change.codeHash = KECCAK_EMPTY ∨ bytes = [] then .ok none
    else if keccak256 bytes ≠ change.codeHash then
      .error (.state "revm returned mismatched code hash")
    else .ok (some (change.codeHash, bytes))

/-- The effect of a change; an untouched account has none. -/
def effectOf (state : ExecutionState) (change : Address × AccountChange)
    (slots : List (U256 × U256) := change.2.changedStorageSlots) :
    Except EvmError (Option Effect) :=
  if change.2.touched = false then .ok none
  else if change.2.selfdestructed then
    .ok (some ⟨Trie.secureAccountKey change.1, none, ∅, none⟩)
  else do
    let leaves ← state.changedLeaves change.1 change.2 slots
    let storage ← ofState (Trie.build leaves)
    let code ← newCode change.2
    let account := changeAccount change.2 storage.root
    return some ⟨Trie.secureAccountKey change.1,
      if account.isEmpty then none else some (encodeAccount account), storage.nodes, code⟩

def withCode (code : BTreeMap B256 Bytes) : Option (B256 × Bytes) → BTreeMap B256 Bytes
  | none => code
  | some body => code.insert body.1 body.2

def Effect.add (applying : Applying) (effect : Effect) : Applying where
  overlay := { applying.overlay with
    writes := applying.overlay.writes.insert effect.key effect.value }
  addedNodes := applying.addedNodes ∪ effect.nodes
  contractCode := withCode applying.contractCode effect.code

def addEffect (applying : Applying) : Option Effect → Applying
  | none => applying
  | some effect => effect.add applying

theorem changedCode_eq (code : BTreeMap B256 Bytes) (change : AccountChange) :
    changedCode code change = (newCode change).map (withCode code) := by
  unfold changedCode newCode
  cases change.code with
  | none => rfl
  | some bytes =>
    dsimp only
    split
    · rfl
    · split <;> rfl

variable {changes : List (Address × AccountChange)} {change : Address × AccountChange}
  {order : Address × AccountChange → List (U256 × U256)}

theorem applyChange_eq (applying : Applying) (slots : List (U256 × U256)) :
    state.applyChange applying change slots
      = (state.effectOf change slots).map (addEffect applying) := by
  unfold applyChange effectOf
  split
  · rfl
  · split
    · simp only [Except.map, addEffect, Effect.add, withCode, OrdMap.union_empty]
      rfl
    · cases state.changedLeaves change.1 change.2 slots with
      | error _ => rfl
      | ok leaves =>
        simp only [ok_bind]
        cases ofState (Trie.build leaves) with
        | error _ => rfl
        | ok storage =>
          simp only [ok_bind, changedCode_eq]
          cases newCode change.2 <;> rfl

theorem applyAll_effects {applying after : Applying} :
    state.applyAll changes applying order = .ok after ↔
      ∃ effects, mapAll (fun change => state.effectOf change (order change)) changes = .ok effects ∧
        after = effects.foldl addEffect applying := by
  induction changes generalizing applying with
  | nil =>
    constructor
    · intro h
      cases h
      exact ⟨[], rfl, rfl⟩
    · rintro ⟨effects, heffects, rfl⟩
      cases heffects
      rfl
  | cons change rest ih =>
    rw [applyAll, mapAll, applyChange_eq]
    cases state.effectOf change (order change) with
    | error _ => simp [Except.map]
    | ok effect =>
      simp only [Except.map, mapError_ok, ok_bind, ih]
      constructor
      · rintro ⟨effects, heffects, rfl⟩
        exact ⟨effect :: effects, by rw [heffects]; rfl, rfl⟩
      · rintro ⟨effects, heffects, rfl⟩
        obtain ⟨others, hothers, heq⟩ := bind_eq_ok.mp heffects
        cases heq
        exact ⟨others, hothers, rfl⟩

/-! ## Slots in any order -/

/-- The byte strings that applying changes hashes: addresses, changed slots, contract bodies
and the nodes of the storage tries. -/
def hashed (state : ExecutionState) (changes : List (Address × AccountChange)) : Set Bytes :=
  {bytes | ∃ change ∈ changes, bytes = toBytes change.1 ∨
    (∃ slot ∈ change.2.changedStorageSlots, bytes = toBytes slot.1) ∨ change.2.code = some bytes ∨
    ∃ leaves, state.changedLeaves change.1 change.2 = .ok leaves ∧ bytes ∈ Trie.encodings leaves}

theorem foldl_writeSlot_perm (hmem : change ∈ changes)
    (hinj : Set.InjOn keccak256 (hashed state changes)) {slots : List (U256 × U256)}
    (hslots : slots.Perm change.2.changedStorageSlots) (leaves : Leaves) :
    slots.foldl writeSlot leaves = change.2.changedStorageSlots.foldl writeSlot leaves := by
  refine hslots.foldl_eq' ?_ leaves
  intro slot hslot slot' hslot' leaves
  rw [hslots.mem_iff] at hslot hslot'
  simp only [writeSlot_eq]
  refine OrdMap.write_comm leaves fun hkey => ?_
  have hbytes : toBytes slot.1 = toBytes slot'.1 :=
    hinj ⟨change, hmem, .inr (.inl ⟨slot, hslot, rfl⟩)⟩
      ⟨change, hmem, .inr (.inl ⟨slot', hslot', rfl⟩)⟩ hkey
  have hsame : slot.1 = slot'.1 := toBytes_injective (by decide) hbytes
  have hpair : slot = slot' :=
    inj_on_of_nodup_map change.2.nodup_changedStorageSlots hslot hslot' hsame
  rw [hpair]

/-- The order of the slots does not matter to the effect. -/
theorem effectOf_perm (hinj : Set.InjOn keccak256 (hashed state changes)) (hmem : change ∈ changes)
    {slots : List (U256 × U256)} (hslots : slots.Perm change.2.changedStorageSlots) :
    state.effectOf change slots = state.effectOf change := by
  have hleaves : state.changedLeaves change.1 change.2 slots
      = state.changedLeaves change.1 change.2 := by
    unfold changedLeaves
    simp only [foldl_writeSlot_perm hmem hinj hslots]
  rw [effectOf, hleaves]
  rfl

/-! ## Accounts in any order -/

/-- An effect belongs to a change: it writes the account, and its nodes and body stand under
their hashes. -/
structure EffectFor (state : ExecutionState) (change : Address × AccountChange) (effect : Effect) :
    Prop where
  key : effect.key = Trie.secureAccountKey change.1
  nodes : ∀ (hash : B256) (bytes : Bytes), effect.nodes[hash]? = some bytes →
    hash = keccak256 bytes ∧
      ∃ leaves, state.changedLeaves change.1 change.2 = .ok leaves ∧ bytes ∈ Trie.encodings leaves
  code : ∀ hash bytes, effect.code = some (hash, bytes) →
    hash = keccak256 bytes ∧ change.2.code = some bytes

theorem newCode_eq_some {change : AccountChange} {hash : B256} {bytes : Bytes}
    (h : newCode change = .ok (some (hash, bytes))) :
    hash = keccak256 bytes ∧ change.code = some bytes := by
  unfold newCode at h
  split at h
  · cases h
  · rename_i body hbody
    split at h
    · cases h
    · split at h
      · cases h
      · rename_i hhash
        cases h
        exact ⟨(not_not.mp hhash).symm, hbody⟩

theorem effectFor_of_effectOf {effect : Effect}
    (h : state.effectOf change = .ok (some effect)) : EffectFor state change effect := by
  unfold effectOf at h
  split at h
  · cases h
  · split at h
    · cases h
      refine ⟨rfl, fun hash bytes hbytes => ?_, fun _ _ hcode => ?_⟩
      · cases hbytes
      · cases hcode
    · obtain ⟨leaves, hleaves, h⟩ := bind_eq_ok.mp h
      obtain ⟨storage, hstorage, h⟩ := bind_eq_ok.mp h
      obtain ⟨code, hcode, h⟩ := bind_eq_ok.mp h
      cases h
      obtain ⟨rfl, _⟩ := Trie.build_eq_ok (ofState_eq_ok.mp hstorage)
      refine ⟨rfl, fun hash bytes hbytes => ?_, fun hash bytes hbytes => ?_⟩
      · have hnode := addressed_snapshot (P := {e | e ∈ Trie.encodings leaves}) (fun _ he => he)
          hash bytes hbytes
        exact ⟨hnode.2, leaves, hleaves, hnode.1⟩
      · exact newCode_eq_some (hcode.trans (congrArg _ hbytes))

section

variable (hnodup : (changes.map Prod.fst).Nodup)
include hnodup

/-- The effects of two changes of a map commute. -/
theorem addEffect_comm
    (hinj : Set.InjOn keccak256 (hashed state changes)) {change' : Address × AccountChange}
    (hmem : change ∈ changes) (hmem' : change' ∈ changes) {effect effect' : Option Effect}
    (heffect : state.effectOf change = .ok effect)
    (heffect' : state.effectOf change' = .ok effect') (applying : Applying) :
    addEffect (addEffect applying effect) effect' = addEffect
      (addEffect applying effect') effect := by
  cases effect with
  | none => rfl
  | some effect =>
    cases effect' with
    | none => rfl
    | some effect' =>
      have hfor := effectFor_of_effectOf heffect
      have hfor' := effectFor_of_effectOf heffect'
      have hwrites : effect.key = effect'.key → effect.value = effect'.value := by
        intro hkey
        rw [hfor.key, hfor'.key] at hkey
        have hbytes : toBytes change.1 = toBytes change'.1 :=
          hinj ⟨change, hmem, .inl rfl⟩ ⟨change', hmem', .inl rfl⟩ hkey
        have hsame : change = change' :=
          inj_on_of_nodup_map hnodup hmem hmem' (toBytes_injective (by decide) hbytes)
        rw [hsame, heffect'] at heffect
        cases heffect
        rfl
      have hnodes : ∀ (hash : B256) (bytes bytes' : Bytes), effect.nodes[hash]? = some bytes →
          effect'.nodes[hash]? = some bytes' → bytes = bytes' := by
        intro hash bytes bytes' hbytes hbytes'
        obtain ⟨hhash, hencoded⟩ := hfor.nodes hash bytes hbytes
        obtain ⟨hhash', hencoded'⟩ := hfor'.nodes hash bytes' hbytes'
        exact hinj ⟨change, hmem, .inr (.inr (.inr hencoded))⟩
          ⟨change', hmem', .inr (.inr (.inr hencoded'))⟩ (hhash.symm.trans hhash')
      have hcode : withCode (withCode applying.contractCode effect.code) effect'.code
          = withCode (withCode applying.contractCode effect'.code) effect.code := by
        cases hbody : effect.code with
        | none => rfl
        | some body =>
          cases hbody' : effect'.code with
          | none => rfl
          | some body' =>
            refine OrdMap.insert_comm _ fun hhash => ?_
            obtain ⟨hown, hcode⟩ := hfor.code body.1 body.2 hbody
            obtain ⟨hown', hcode'⟩ := hfor'.code body'.1 body'.2 hbody'
            exact hinj ⟨change, hmem, .inr (.inr (.inl hcode))⟩
              ⟨change', hmem', .inr (.inr (.inl hcode'))⟩
              (hown.symm.trans (hhash.trans hown'))
      simp only [addEffect, Effect.add, OrdMap.insert_comm _ hwrites,
        OrdMap.union_right_comm _ hnodes, hcode]

theorem foldl_addEffect_perm
    (hinj : Set.InjOn keccak256 (hashed state changes))
    {first second : List (Address × AccountChange)}
    (hmem : ∀ change ∈ first, change ∈ changes) (hperm : first.Perm second)
    {effects : List (Option Effect)}
    (h : mapAll (fun change => state.effectOf change) first = .ok effects) (applying : Applying) :
    ∃ effects', mapAll (fun change => state.effectOf change) second = .ok effects' ∧
      effects.foldl addEffect applying = effects'.foldl addEffect applying := by
  obtain ⟨effects', heffects', hperm⟩ := mapAll_perm hperm h
  refine ⟨effects', heffects', hperm.foldl_eq' ?_ applying⟩
  intro effect heffect effect' heffect' applying
  obtain ⟨change, hchange, hof⟩ := mem_mapAll h heffect
  obtain ⟨change', hchange', hof'⟩ := mem_mapAll h heffect'
  exact addEffect_comm hnodup hinj (hmem change hchange) (hmem change' hchange') hof hof' applying

theorem applyAll_order (hinj : Set.InjOn keccak256 (hashed state changes))
    {first second : List (Address × AccountChange)}
    {order' : Address × AccountChange → List (U256 × U256)} (hfirst : Visits changes first order)
    (hsecond : Visits changes second order') {applying after : Applying}
    (h : state.applyAll first applying order = .ok after) :
    state.applyAll second applying order' = .ok after := by
  have heffects {first : List (Address × AccountChange)}
      {order : Address × AccountChange → List (U256 × U256)}
        (hvisits : Visits changes first order) :
      mapAll (fun change => state.effectOf change (order change)) first
        = mapAll (fun change => state.effectOf change) first :=
    mapAll_congr fun change hmem =>
      effectOf_perm hinj (hvisits.perm.mem_iff.mp hmem)
        (hvisits.slots change (hvisits.perm.mem_iff.mp hmem))
  rw [applyAll_effects, heffects hfirst] at h
  obtain ⟨effects, hof, rfl⟩ := h
  rw [applyAll_effects, heffects hsecond]
  exact foldl_addEffect_perm hnodup hinj (fun change => hfirst.perm.mem_iff.mp)
    (hfirst.perm.trans hsecond.perm.symm) hof applying

end

theorem applyChanges_eq_ok_iff {after : ExecutionState} :
    state.applyChanges changes order = .ok after ↔
      ∃ applying, state.applyAll changes
          ⟨StateOverlay.fromSnapshot state.accounts, ∅, state.contractCode⟩ order = .ok applying ∧
        ∃ rebuilt, state.rebuild applying = .ok rebuilt ∧
          after = ⟨rebuilt.1, rebuilt.2, applying.contractCode, state.blockHashes⟩ := by
  constructor
  · intro h
    obtain ⟨applying, happlying, h⟩ := bind_eq_ok.mp h
    obtain ⟨rebuilt, hrebuilt, h⟩ := bind_eq_ok.mp h
    cases h
    exact ⟨applying, happlying, rebuilt, mapError_eq_ok.mp hrebuilt, rfl⟩
  · rintro ⟨applying, happlying, rebuilt, hrebuilt, rfl⟩
    exact bind_eq_ok.mpr ⟨applying, happlying, bind_eq_ok.mpr
      ⟨rebuilt, mapError_eq_ok.mpr hrebuilt, rfl⟩⟩

/-- **Order.**  Every order of the accounts and of their slots leads to the state that any
other order leads to, and fails where it fails. -/
theorem applyChanges_any_order (state : ExecutionState)
    (changes first second : List (Address × AccountChange))
    (order order' : Address × AccountChange → List (U256 × U256))
    (hnodup : (changes.map Prod.fst).Nodup)
    (hinj : Set.InjOn keccak256 (hashed state changes)) (hfirst : Visits changes first order)
    (hsecond : Visits changes second order') :
    (state.applyChanges first order).toOption = (state.applyChanges second order').toOption ∧
      (state.applyChanges first order).toOption = (state.applyChanges changes).toOption := by
  have hsame {first second : List (Address × AccountChange)}
      {order order' : Address × AccountChange → List (U256 × U256)}
      (hfirst : Visits changes first order) (hsecond : Visits changes second order') :
      (state.applyChanges first order).toOption = (state.applyChanges second order').toOption := by
    apply Option.ext
    intro after
    have hiff : state.applyChanges first order = .ok after ↔
        state.applyChanges second order' = .ok after := by
      rw [applyChanges_eq_ok_iff, applyChanges_eq_ok_iff]
      constructor
      · rintro ⟨applying, happlying, hrest⟩
        exact ⟨applying, applyAll_order hnodup hinj hfirst hsecond happlying, hrest⟩
      · rintro ⟨applying, happlying, hrest⟩
        exact ⟨applying, applyAll_order hnodup hinj hsecond hfirst happlying, hrest⟩
    exact toOption_eq_some.trans (hiff.trans toOption_eq_some.symm)
  exact ⟨hsame hfirst hsecond, hsame hfirst ⟨.refl _, fun _ _ => .refl _⟩⟩

def hashedOf (state : ExecutionState) (changes : List (Address × AccountChange)) : List Bytes :=
  changes.flatMap fun change =>
    toBytes change.1 :: (change.2.changedStorageSlots.map (fun slot => toBytes slot.1) ++
      change.2.code.toList ++
      match state.changedLeaves change.1 change.2 with
      | .ok leaves => Trie.encodings leaves
      | .error _ => [])

theorem mem_hashedOf {bytes : Bytes} (h : bytes ∈ hashed state changes) :
    bytes ∈ hashedOf state changes := by
  obtain ⟨change, hmem, h⟩ := h
  refine mem_flatMap.mpr ⟨change, hmem, ?_⟩
  rcases h with rfl | ⟨slot, hslot, rfl⟩ | hcode | ⟨leaves, hleaves, hbytes⟩
  · exact mem_cons_self
  · exact mem_cons_of_mem _ (mem_append_left _ (mem_append_left _
      (mem_map_of_mem hslot)))
  · exact mem_cons_of_mem _ (mem_append_left _ (mem_append_right _
      (Option.mem_toList.mpr hcode)))
  · refine mem_cons_of_mem _ (mem_append_right _ ?_)
    rw [hleaves]
    exact hbytes

end Order

section Sample

attribute [local instance] scatteringKeccak

def deployed : AccountChange :=
  ⟨1, 5, keccak256 [0x60, 0x00], some [0x60, 0x00],
    ((∅ : BTreeMap U256 (U256 × U256)).insert 1 (0, 7)).insert 2 (0, 9), true, true, false⟩

def paid : AccountChange := ⟨1, 3, KECCAK_EMPTY, none, ∅, true, false, false⟩

def twoChanges : List (Address × AccountChange) := [(0xc0de, deployed), (0xbeef, paid)]

/-- The slots of a change from the last to the first. -/
def backward (change : Address × AccountChange) : List (U256 × U256) :=
  change.2.changedStorageSlots.reverse

def blankState : ExecutionState := ⟨⟨Trie.EMPTY_ROOT_HASH, ∅, ∅⟩, ∅, ∅, ∅⟩

theorem applyChanges_any_order_pair :
    (blankState.applyChanges twoChanges).toOption.isSome = true ∧
      (blankState.applyChanges twoChanges.reverse backward).toOption
        = (blankState.applyChanges twoChanges).toOption := by
  have hsucceeds : (blankState.applyChanges twoChanges).toOption.isSome = true := by decide +kernel
  have hlisted : ∀ p ∈ hashedOf blankState twoChanges, ∀ q ∈ hashedOf blankState twoChanges,
      keccak256 p = keccak256 q → p = q := by decide +kernel
  have hinj : Set.InjOn keccak256 (hashed blankState twoChanges) :=
    fun p hp q hq => hlisted p (mem_hashedOf hp) q (mem_hashedOf hq)
  have hbackward : Visits twoChanges twoChanges.reverse backward :=
    ⟨reverse_perm _, fun _ _ => reverse_perm _⟩
  exact ⟨hsucceeds, (applyChanges_any_order blankState twoChanges twoChanges.reverse
    twoChanges.reverse
    backward backward (by decide) hinj hbackward hbackward).2⟩

end Sample

end ExecutionState

end Arbor
