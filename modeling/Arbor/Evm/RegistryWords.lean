import Arbor.Evm.JournalFacts
import Arbor.Evm.Lifecycle

/-!
# Native calls and the registry's words

A frame of the registry is a native one.  `registryWord` is the word of a registry slot as the
transaction sees it; a creation writes its seven words (`creationSlots`).  The slots of
different domains and chain IDs are apart where the hash has no collisions (`SlotsApart`).
-/

namespace Arbor

open Result SystemContract ArborPrecompiles Journal

section Words

variable [Keccak] {db : Database}

variable {before after : Journal} {slot value : U256}

/-! ## Native frames -/

def registryFrame (sender : Address) (value : U256) (input : Bytes) (outOfGas : Bool) : Frame :=
  ⟨.call, sender, CHAIN_REGISTRY_ADDRESS, CHAIN_REGISTRY_ADDRESS, .transfer value, input, false,
    outOfGas⟩

theorem machine_native_registry (precompiles : ArborPrecompiles) {db : Database} {frame : Frame}
    (hregistry : frame.bytecodeAddress = CHAIN_REGISTRY_ADDRESS) :
    (∃ effect, (precompiles.machine db).native frame = some effect ∧
        effect before = .ok (after, true)) ↔
      frame.scheme ≠ .create ∧ ∃ result,
        runChainRegistry db precompiles.registry frame before = .ok (after, result) ∧
        result.success = true ∧ frame.outOfGas = false := by
  have hother : ¬CHAIN_REGISTRY_ADDRESS = PROTOCOL_INFO_ADDRESS := by decide
  by_cases hscheme : frame.scheme = .create
  · simp [machine, ArborPrecompiles.run, hscheme]
  · have hrun : precompiles.run db frame
        = some (runChainRegistry db precompiles.registry frame) := by
      rw [ArborPrecompiles.run, if_neg hscheme, hregistry, if_neg hother, if_pos rfl]
    simp only [machine, hrun, Option.map_some, Option.some.injEq, exists_eq_left', hscheme,
      not_false_eq_true, true_and, ne_eq]
    constructor
    · intro h
      obtain ⟨⟨journal, result⟩, hran, hout⟩ := bind_eq_ok.mp h
      simp only [pure_eq, Except.ok.injEq, Prod.mk.injEq, Bool.and_eq_true,
        Bool.not_eq_true'] at hout
      obtain ⟨rfl, hok, hgas⟩ := hout
      exact ⟨result, hran, hok, hgas⟩
    · intro h
      obtain ⟨result, hran, hok, hgas⟩ := h
      rw [hran, ok_bind, hok, hgas]
      rfl

theorem native_success {precompiles : ArborPrecompiles} {frame : Frame}
    {effect : Journal → Except String (Journal × Bool)}
    (hnative : (precompiles.machine db).native frame = some effect)
    (h : effect before = .ok (after, true)) : after = before ∨ ∃ result,
      runChainRegistry db precompiles.registry frame before = .ok (after, result) ∧
      result.success = true := by
  by_cases hregistry : frame.bytecodeAddress = CHAIN_REGISTRY_ADDRESS
  · obtain ⟨_, result, hran, hok, _⟩ :=
      (machine_native_registry precompiles hregistry).mp ⟨effect, hnative, h⟩
    exact Or.inr ⟨result, hran, hok⟩
  · left
    obtain ⟨native, hrun, rfl⟩ := Option.map_eq_some_iff.mp hnative
    obtain ⟨⟨journal, result⟩, hran, hout⟩ := bind_eq_ok.mp h
    simp only [pure_eq, Except.ok.injEq, Prod.mk.injEq] at hout
    simp only [ArborPrecompiles.run, hregistry, if_false, Option.ite_none_left_eq_some,
      Option.ite_none_right_eq_some, Option.some.injEq] at hrun
    rw [← hout.1]
    rw [← hrun.2.2, runProtocolInfo] at hran
    split at hran <;> · cases hran; rfl

/-! ## Words -/

def registryWord (db : Database) (journal : Journal) (slot : U256) : U256 :=
  (journal.sload db CHAIN_REGISTRY_ADDRESS slot).toOption.getD 0

theorem registryWord_congr
    (hstorage : (after.load db CHAIN_REGISTRY_ADDRESS).storage = (before.load db
      CHAIN_REGISTRY_ADDRESS).storage)
    (hcreated : (after.load db CHAIN_REGISTRY_ADDRESS).created = (before.load db
      CHAIN_REGISTRY_ADDRESS).created) (slot : U256) :
    registryWord db after slot = registryWord db before slot := by
  rw [registryWord, registryWord, sload, sload, hstorage, hcreated]

theorem registryWord_of_kept (h : Kept (before.load db CHAIN_REGISTRY_ADDRESS) (after.load db
      CHAIN_REGISTRY_ADDRESS)) (slot : U256) :
    registryWord db after slot = registryWord db before slot :=
  registryWord_congr h.storage h.created slot

/-- A word that was looked up is the word. -/
theorem registryWord_eq {journal : Journal} {word : U256}
    (h : journal.sload db CHAIN_REGISTRY_ADDRESS slot = .ok word) :
    registryWord db journal slot = word := by
  rw [registryWord, h]
  rfl

/-- A registry word written to a touched account. -/
def Stored (db : Database) (slot value : U256) (before after : Journal) : Prop :=
  ∃ original, (before.original db CHAIN_REGISTRY_ADDRESS slot = .ok original) ∧
    after.load db CHAIN_REGISTRY_ADDRESS = { before.load db CHAIN_REGISTRY_ADDRESS with
      storage := (before.load db CHAIN_REGISTRY_ADDRESS).storage.insert slot (original, value) }

theorem stored_of_sstore {journal : Journal}
    (h : journal.sstore db CHAIN_REGISTRY_ADDRESS slot value = .ok after) :
    Stored db slot value journal after := by
  obtain ⟨original, horiginal, h⟩ := bind_eq_ok.mp h
  cases h
  refine ⟨original, horiginal, ?_⟩
  rw [load_set, if_pos rfl]

/-- A written word is read back, the others are kept. -/
theorem Stored.word (h : Stored db slot value before after) (other : U256) :
    registryWord db after other = if slot = other then value else registryWord db before other := by
  obtain ⟨original, _, haccount⟩ := h
  rw [registryWord, sload, haccount]
  simp only [OrdMap.getElem?_insert]
  by_cases heq : slot = other
  · rw [if_pos heq, if_pos heq]
    rfl
  · rw [if_neg heq, if_neg heq]
    rfl

theorem Stored.balance (h : Stored db slot value before after) :
    after.balance db CHAIN_REGISTRY_ADDRESS = before.balance db CHAIN_REGISTRY_ADDRESS := by
  obtain ⟨original, _, haccount⟩ := h
  rw [Journal.balance, haccount]
  rfl

/-- Words with some of them overwritten, in order. -/
def overwrite (writes : List (U256 × U256)) (word : U256 → U256) : U256 → U256 :=
  writes.foldl (fun word write => Function.update word write.1 write.2) word

/-- Registry words written in order; nothing else of the account has changed. -/
structure Written (db : Database) (writes : List (U256 × U256)) (before after : Journal) :
    Prop where
  word : registryWord db after = overwrite writes (registryWord db before)
  balance : after.balance db CHAIN_REGISTRY_ADDRESS = before.balance db CHAIN_REGISTRY_ADDRESS

theorem Written.append {first second : List (U256 × U256)} {a b c : Journal}
    (hab : Written db first a b) (hbc : Written db second b c) :
    Written db (first ++ second) a c := by
  refine ⟨?_, hbc.balance.trans hab.balance⟩
  rw [hbc.word, hab.word, overwrite, overwrite, overwrite, List.foldl_append]

theorem Stored.written (h : Stored db slot value before after) :
    Written db [(slot, value)] before after := by
  refine ⟨?_, h.balance⟩
  funext other
  rw [h.word other, overwrite, List.foldl_cons, List.foldl_nil]
  by_cases heq : slot = other
  · rw [if_pos heq, ← heq, Function.update_self]
  · rw [if_neg heq, Function.update_of_ne (Ne.symm heq)]

variable {writes : List (U256 × U256)}

theorem written_writeWords {what : String} :
    ∀ {before after : Journal}, writeWords db what writes before = .ok after →
      Written db writes before after := by
  induction writes with
  | nil =>
    intro before after h
    cases h
    exact ⟨rfl, rfl⟩
  | cons write rest ih =>
    intro before after h
    obtain ⟨next, hnext, h⟩ := bind_eq_ok.mp h
    exact (stored_of_sstore (mapError_eq_ok.mp hnext)).written.append (ih h)

/-- A log leaves the accounts as they are. -/
theorem Written.addLog (h : Written db writes before after)
    (topics : List B256) (data : Bytes) : Written db writes before (addLog after topics data) :=
  ⟨h.word, h.balance⟩

/-! ## Slots in play -/

/-- Whether a slot is about a domain or a chain ID in play. -/
def RegistrySlot.Within (ids : Finset DomainId) (chains : Finset U64) : RegistrySlot → Prop
  | .chainId chainId => chainId ∈ chains
  | .descriptor domainId | .creationHeight domainId | .deposit domainId | .depositUnlock domainId
  | .owner domainId | .depositStatus domainId => domainId ∈ ids

/-- The hash has no collisions among the slots in play. -/
def SlotsApart (ids : Finset DomainId) (chains : Finset U64) : Prop :=
  Set.InjOn keccak256 (RegistrySlot.preimage '' {slot | RegistrySlot.Within ids chains slot})

theorem SlotsApart.word_inj {ids : Finset DomainId} {chains : Finset U64}
    (h : SlotsApart ids chains) {a b : RegistrySlot}
    (ha : RegistrySlot.Within ids chains a) (hb : RegistrySlot.Within ids chains b) :
    a.word = b.word ↔ a = b :=
  RegistrySlot.word_inj h ha hb

/-- All slots of listed domains and chain IDs. -/
def slotsOf (ids : List DomainId) (chains : List U64) : List RegistrySlot :=
  chains.map .chainId ++ ids.flatMap fun domainId =>
    [.descriptor domainId, .creationHeight domainId, .deposit domainId, .depositUnlock domainId,
      .owner domainId, .depositStatus domainId]

/-- Listed slots are apart when their words are. -/
theorem slotsApart_of_nodup {ids : List DomainId} {chains : List U64}
    (h : ((slotsOf ids chains).map RegistrySlot.word).Nodup) :
    SlotsApart ids.toFinset chains.toFinset := by
  have hmem : ∀ slot, RegistrySlot.Within ids.toFinset chains.toFinset slot →
      slot ∈ slotsOf ids chains := by
    intro slot hslot
    cases slot <;> simpa [slotsOf, RegistrySlot.Within] using hslot
  rintro _ ⟨a, ha, rfl⟩ _ ⟨b, hb, rfl⟩ hsame
  rw [List.inj_on_of_nodup_map h (hmem a ha) (hmem b hb) hsame]

def creationSlots (prepared : PreparedChainCreation) : List (RegistrySlot × U256) :=
  [ (.descriptor prepared.descriptor.domainId, prepared.descriptorHash),
    (.chainId prepared.descriptor.evmChainId, prepared.descriptor.domainId),
    (.creationHeight prepared.descriptor.domainId, prepared.creationHeight.setWidth 256),
    (.deposit prepared.descriptor.domainId, prepared.descriptor.creationDeposit),
    (.depositUnlock prepared.descriptor.domainId, prepared.depositUnlockHeight.setWidth 256),
    (.owner prepared.descriptor.domainId, prepared.descriptor.owner.setWidth 256),
    (.depositStatus prepared.descriptor.domainId, CreationDepositStatus.locked.word) ]

end Words

end Arbor
