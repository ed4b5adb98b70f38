import Mathlib.Data.List.Perm.Subperm
import Arbor.Lib.Tally
import Arbor.Mempool

/-!
# Pool accounting

Over any sequence of pool operations every entry stays under its own key, and the count of a
sender is the number of its entries (`Accounted`).  Entries that were set aside come back
without a look at the limits, so the limits hold as long as what comes back finds room
(`Fits`): between a reservation and its return the places may have been given away.
An entry that takes another's place offers the bumped fees (`raised`).
-/

namespace Arbor

open Result Tally Mempool List

namespace Mempool

def senderOf (key : PoolKey) : DomainId × Address := (key.1, key.2.1)

/-- The entries of one sender, by their keys. -/
def heldBy (pool : Mempool) (domainId : DomainId) (sender : Address) : Finset PoolKey :=
  members senderOf (keySet pool.entries) (domainId, sender)

/-- The keys under which entries come back: those that the pool does not hold. -/
def returning (pool : Mempool) (entries : List PoolEntry) : Finset PoolKey :=
  (entries.map PoolEntry.key).toFinset \ keySet pool.entries

/-- Room for the entries that come back, in total and for each sender. -/
structure HasRoom (pool : Mempool) (entries : List PoolEntry) : Prop where
  total : pool.entries.size + (pool.returning entries).card ≤ pool.config.maxTransactions
  sender : ∀ domainId sender, (pool.heldBy domainId sender).card
    + (members senderOf (pool.returning entries) (domainId, sender)).card
      ≤ pool.config.maxTransactionsPerSender

structure WithinCapacity (pool : Mempool) (config : MempoolConfig) : Prop where
  total : pool.entries.size ≤ config.maxTransactions
  sender : ∀ domainId sender,
    (pool.heldBy domainId sender).card ≤ config.maxTransactionsPerSender

/-- An entry with its recovered sender and the chain ID its domain is registered with. -/
structure Routed [Keccak] [Secp256k1] (chainIds : BTreeMap DomainId U64) (entry : PoolEntry) :
    Prop where
  recovered : Crypto.recoverEip1559Sender entry.transaction = .ok entry.sender
  chainId : chainIds[entry.domainId]? = some entry.transaction.chainId

/-- Every entry is under its own key. -/
def Keyed (pool : Mempool) : Prop :=
  ∀ (key : PoolKey) (entry : PoolEntry), pool.entries[key]? = some entry → key = entry.key

/-- Every entry is under its own key, routed to its domain, and counted for its sender. -/
structure Accounted [Keccak] [Secp256k1] (pool : Mempool) : Prop where
  keyed : pool.Keyed
  routed : ∀ (key : PoolKey) (entry : PoolEntry), pool.entries[key]? = some entry →
    Routed pool.chainIds entry
  counted : Tallies senderOf pool.senderCounts (keySet pool.entries)

/-! ## Single changes -/

section Changes

variable {pool next : Mempool} {entry : PoolEntry} {domainId : DomainId} {envelope : Bytes}
  {stateNonce : U64} {status : QueueStatus} {entries : List PoolEntry}

/-- A domain is registered already, or it is new and so is its chain ID. -/
theorem registerDomain_eq_ok {chainId : U64} (h : pool.registerDomain domainId chainId = .ok next) :
    next = pool ∨ pool.chainIds[domainId]? = none ∧ chainId ∉ pool.usedChainIds ∧
      next = { pool with
        chainIds := pool.chainIds.insert domainId chainId
        usedChainIds := pool.usedChainIds.insert chainId } := by
  unfold registerDomain at h
  split at h
  · cases h
  · cases hbound : pool.chainIds[domainId]? with
    | some registered =>
      rw [hbound] at h
      simp only at h
      split at h
      · exact .inl (Except.ok.inj h).symm
      · cases h
    | none =>
      rw [hbound] at h
      simp only at h
      split at h
      · cases h
      · rename_i hunused
        exact .inr ⟨rfl, hunused, (Except.ok.inj h).symm⟩

theorem decrementSender_eq (pool : Mempool) (domainId : DomainId) (sender : Address)
    (removed : Nat) : pool.decrementSender domainId sender removed
      = { pool with
          senderCounts := decrement pool.senderCounts (domainId, sender) removed } := by
  unfold decrementSender decrement
  cases pool.senderCounts[(domainId, sender)]? <;> rfl

theorem reserveKey_eq (pool : Mempool) (key : PoolKey) : pool.reserveKey key = { pool with
    entries := pool.entries.erase key
    senderCounts := decrement pool.senderCounts (senderOf key) 1 } :=
  decrementSender_eq _ _ _ _

theorem reserveKeys_eq (keys : List PoolKey) : ∀ pool : Mempool,
    (keys.foldl reserveKey pool).entries
        = keys.foldl (fun entries key => entries.erase key) pool.entries ∧
      (keys.foldl reserveKey pool).chainIds = pool.chainIds ∧
      (keys.foldl reserveKey pool).usedChainIds = pool.usedChainIds ∧
      (keys.foldl reserveKey pool).config = pool.config := by
  induction keys with
  | nil => exact fun _ => ⟨rfl, rfl, rfl, rfl⟩
  | cons key keys ih =>
    intro pool
    have hrest := ih (pool.reserveKey key)
    rw [reserveKey_eq] at hrest
    rw [foldl_cons, reserveKey_eq]
    exact hrest

/-- The keys a reservation takes. -/
theorem reserved_keys (pool : Mempool) (hashes : BTreeSet B256) :
    ((pool.entries.toList.filter fun entry => entry.2.transactionHash ∈ hashes).map (·.1)).Nodup ∧
      ∀ key ∈ (pool.entries.toList.filter fun entry => entry.2.transactionHash ∈ hashes).map (·.1),
        key ∈ pool.entries := by
  refine ⟨(OrdMap.nodup_keys pool.entries).sublist (filter_sublist.map _), fun key hkey => ?_⟩
  obtain ⟨⟨_, entry⟩, hmem, rfl⟩ := mem_map.mp hkey
  exact OrdMap.mem_iff_exists.mpr
    ⟨entry, Std.ExtTreeMap.mem_toList_iff_getElem?_eq_some.mp (mem_filter.mp hmem).1⟩

/-- Fewer entries are within the same limits. -/
theorem WithinCapacity.mono {config : MempoolConfig} (h : pool.WithinCapacity config)
    (hsub : keySet next.entries ⊆ keySet pool.entries) : next.WithinCapacity config where
  total := by
    rw [← card_keySet]
    exact (Finset.card_le_card hsub).trans ((card_keySet _).trans_le h.total)
  sender domainId sender :=
    (Finset.card_le_card (Finset.filter_subset_filter _ hsub)).trans (h.sender domainId sender)

/-- There is room if even one sender could hold everything. -/
theorem hasRoom_of_le
    (htotal : pool.entries.size + (pool.returning entries).card ≤ pool.config.maxTransactions)
    (hsender : pool.entries.size + (pool.returning entries).card ≤
      pool.config.maxTransactionsPerSender) : pool.HasRoom entries := by
  refine ⟨htotal, fun domainId sender => le_trans ?_ hsender⟩
  rw [← card_keySet]
  exact Nat.add_le_add (Finset.card_filter_le _ _) (Finset.card_filter_le _ _)

variable [Keccak] [Secp256k1]

theorem Routed.insert {chainIds : BTreeMap DomainId U64} (h : Routed chainIds entry)
    (hfree : chainIds[domainId]? = none) (chainId : U64) :
    Routed (chainIds.insert domainId chainId) entry := by
  refine ⟨h.recovered, ?_⟩
  have hne : domainId ≠ entry.domainId := by
    rintro rfl
    rw [h.chainId] at hfree
    cases hfree
  rw [OrdMap.getElem?_insert, if_neg hne]
  exact h.chainId

theorem Accounted.registered {chainId : U64} (hpool : pool.Accounted)
    (h : pool.registerDomain domainId chainId = .ok next) : next.Accounted := by
  rcases registerDomain_eq_ok h with rfl | ⟨hfree, _, rfl⟩
  · exact hpool
  · exact ⟨hpool.keyed, fun key entry hentry => (hpool.routed key entry hentry).insert hfree _,
      hpool.counted⟩

/-- What admission makes of an envelope. -/
structure Admits (pool : Mempool) (domainId : DomainId) (envelope : Bytes) (stateNonce : U64)
    (entry : PoolEntry) : Prop where
  domainId : entry.domainId = domainId
  routed : Routed pool.chainIds entry
  decodes : Ethereum.decodeEip1559 envelope = .ok entry.transaction
  nonce : stateNonce.toNat ≤ entry.transaction.nonce.toNat
  hashes : Crypto.eip1559TransactionHash entry.transaction = .ok entry.transactionHash
  sized : envelope.length ≤ pool.config.maxTransactionBytes
  envelope : entry.envelope = envelope

/-- What an admitted entry says of its envelope. -/
theorem admitted_eq_ok (h : pool.admitted domainId envelope stateNonce = .ok entry) :
    Admits pool domainId envelope stateNonce entry := by
  unfold admitted at h
  cases hbound : pool.chainIds[domainId]? with
  | none =>
    rw [hbound] at h
    cases h
  | some chainId =>
    simp only [hbound] at h
    obtain ⟨hlength, h⟩ := check_bind_eq_ok.mp h
    obtain ⟨transaction, hdecode, h⟩ := bind_eq_ok.mp h
    obtain ⟨hchain, h⟩ := check_bind_eq_ok.mp h
    obtain ⟨hnonce, h⟩ := check_bind_eq_ok.mp h
    obtain ⟨sender, hsender, h⟩ := bind_eq_ok.mp h
    obtain ⟨hash, hhash, h⟩ := bind_eq_ok.mp h
    cases h
    rw [rejectIf_eq_ok, not_not] at hchain
    rw [rejectIf_eq_ok, not_lt] at hlength
    rw [rejectIf_eq_ok, BitVec.not_lt] at hnonce
    exact ⟨rfl, ⟨mapError_eq_ok.mp hsender, by rw [hbound, hchain]⟩, mapError_eq_ok.mp hdecode,
      hnonce, mapError_eq_ok.mp hhash, hlength, rfl⟩

theorem insert_eq_ok (h : pool.insert domainId envelope stateNonce = .ok (next, status)) :
    ∃ entry, pool.admitted domainId envelope stateNonce = .ok entry ∧
      ((entry.key ∈ pool.entries ∧
          next = { pool with entries := pool.entries.insert entry.key entry }) ∨
        entry.key ∉ pool.entries ∧ pool.entries.size < pool.config.maxTransactions ∧
          (pool.senderCounts[senderOf entry.key]?).getD 0 < pool.config.maxTransactionsPerSender ∧
          next = { pool with
            entries := pool.entries.insert entry.key entry
            senderCounts := pool.senderCounts.insert (senderOf entry.key)
              ((pool.senderCounts[senderOf entry.key]?).getD 0 + 1) }) := by
  obtain ⟨entry, hadmitted, h⟩ := bind_eq_ok.mp h
  obtain rfl := (admitted_eq_ok hadmitted).domainId
  refine ⟨entry, hadmitted, ?_⟩
  cases hexisting : pool.entries[entry.key]? with
  | some existing =>
    simp only [hexisting] at h
    obtain ⟨_, h⟩ := check_bind_eq_ok.mp h
    cases h
    exact .inl ⟨OrdMap.mem_iff_exists.mpr ⟨existing, hexisting⟩, rfl⟩
  | none =>
    simp only [hexisting] at h
    obtain ⟨htotal, h⟩ := check_bind_eq_ok.mp h
    obtain ⟨hsender, h⟩ := check_bind_eq_ok.mp h
    cases h
    rw [rejectIf_eq_ok, not_le] at htotal hsender
    refine .inr ⟨fun hmem => ?_, htotal, hsender, rfl⟩
    obtain ⟨existing, hfound⟩ := OrdMap.mem_iff_exists.mp hmem
    rw [hexisting] at hfound
    cases hfound

section

variable (hpool : pool.Accounted)
include hpool

/-- An entry put under its key keeps keys and routes. -/
theorem Accounted.keyed_insert {key : PoolKey} {found : PoolEntry}
    (h : (pool.entries.insert entry.key entry)[key]? = some found)
    (hentry : Routed pool.chainIds entry) : key = found.key ∧ Routed pool.chainIds found := by
  rw [OrdMap.getElem?_insert] at h
  split at h
  · rename_i heq
    cases h
    exact ⟨heq.symm, hentry⟩
  · exact ⟨hpool.keyed key found h, hpool.routed key found h⟩

theorem Accounted.replaced (hentry : Routed pool.chainIds entry) (hmem : entry.key ∈ pool.entries) :
    Accounted { pool with entries := pool.entries.insert entry.key entry } where
  keyed key found h := (hpool.keyed_insert h hentry).1
  routed key found h := (hpool.keyed_insert h hentry).2
  counted := by
    rw [keySet_insert, Finset.insert_eq_of_mem (mem_keySet.mpr hmem)]
    exact hpool.counted

theorem Accounted.added (hentry : Routed pool.chainIds entry)
    (hnew : entry.key ∉ pool.entries) : Accounted { pool with
      entries := pool.entries.insert entry.key entry
      senderCounts := pool.senderCounts.insert (senderOf entry.key)
        ((pool.senderCounts[senderOf entry.key]?).getD 0 + 1) } where
  keyed key found h := (hpool.keyed_insert h hentry).1
  routed key found h := (hpool.keyed_insert h hentry).2
  counted := by
    rw [keySet_insert]
    exact hpool.counted.insert fun hmem => hnew (mem_keySet.mp hmem)

theorem Accounted.inserted
    (h : pool.insert domainId envelope stateNonce = .ok (next, status)) : next.Accounted := by
  obtain ⟨entry, hadmitted, ⟨hmem, rfl⟩ | ⟨hnew, _, _, rfl⟩⟩ := insert_eq_ok h
  · exact hpool.replaced (admitted_eq_ok hadmitted).routed hmem
  · exact hpool.added (admitted_eq_ok hadmitted).routed hnew

end

theorem Accounted.removed (hpool : pool.Accounted) {sender : Address} {gone : List PoolKey}
    (hdistinct : gone.Nodup) (hheld : ∀ key ∈ gone, key ∈ pool.entries)
    (hsender : ∀ key ∈ gone, senderOf key = (domainId, sender)) : Accounted ({ pool with
      entries := gone.foldl (fun entries key => entries.erase key) pool.entries }.decrementSender
        domainId sender gone.length) := by
  have hkept : ∀ (key : PoolKey) (entry : PoolEntry),
      (gone.foldl (fun entries key => entries.erase key) pool.entries)[key]? = some entry →
      pool.entries[key]? = some entry := by
    intro key entry h
    rw [getElem?_eraseAll] at h
    split at h
    · cases h
    · exact h
  rw [decrementSender_eq]
  refine ⟨fun key entry h => hpool.keyed key entry (hkept key entry h),
    fun key entry h => hpool.routed key entry (hkept key entry h), ?_⟩
  rw [keySet_eraseAll, ← toFinset_card_of_nodup hdistinct]
  refine hpool.counted.sdiff (fun key hkey => ?_) fun key hkey => ?_
  · exact mem_keySet.mpr (hheld key (mem_toFinset.mp hkey))
  · exact hsender key (mem_toFinset.mp hkey)

theorem Accounted.advanced (hpool : pool.Accounted) (domainId : DomainId) (sender : Address)
    (stateNonce : U64) : (pool.advanceNonce domainId sender stateNonce).Accounted := by
  refine hpool.removed ((nodup_keys _).filter _) (fun key hkey => ?_) fun key hkey => ?_
  · exact Std.ExtTreeMap.mem_keys.mp (mem_filter.mp hkey).1
  · have hmatch := (mem_filter.mp hkey).2
    simp only [decide_eq_true_eq] at hmatch
    rw [senderOf, hmatch.1, hmatch.2.1]

theorem Accounted.reservedKey (hpool : pool.Accounted) {key : PoolKey} (h : key ∈ pool.entries) :
    (pool.reserveKey key).Accounted := by
  have hremoved := hpool.removed (nodup_singleton key)
    (fun k hk => by rw [mem_singleton.mp hk]; exact h)
    (fun k hk => by rw [mem_singleton.mp hk])
  exact hremoved

theorem Accounted.reservedKeys {keys : List PoolKey} (hdistinct : keys.Nodup) :
    ∀ {pool : Mempool}, pool.Accounted → (∀ key ∈ keys, key ∈ pool.entries) →
      (keys.foldl reserveKey pool).Accounted := by
  induction keys with
  | nil => exact fun hpool _ => hpool
  | cons key keys ih =>
    intro pool hpool hheld
    rw [nodup_cons] at hdistinct
    refine ih hdistinct.2 (hpool.reservedKey (hheld key mem_cons_self)) fun other hother => ?_
    have hne : key ≠ other := fun heq => hdistinct.1 (heq ▸ hother)
    rw [reserveKey_eq, Std.ExtTreeMap.mem_erase]
    exact ⟨fun hcompare => hne (Std.LawfulEqCmp.compare_eq_iff_eq.mp hcompare),
      hheld other (mem_cons_of_mem _ hother)⟩

theorem Accounted.reserved (hpool : pool.Accounted) (hashes : BTreeSet B256) :
    (pool.reserveHashes hashes).1.Accounted :=
  Accounted.reservedKeys (reserved_keys pool hashes).1 hpool (reserved_keys pool hashes).2

theorem Accounted.reserved_routed (hpool : pool.Accounted) {hashes : BTreeSet B256}
    (h : entry ∈ (pool.reserveHashes hashes).2) : Routed pool.chainIds entry := by
  obtain ⟨⟨key, _⟩, hmem, rfl⟩ := mem_map.mp h
  exact hpool.routed key _
    (Std.ExtTreeMap.mem_toList_iff_getElem?_eq_some.mp (mem_filter.mp hmem).1)

/-- A routed entry comes back unless its key is held. -/
theorem restoreEntry_cases (h : Routed pool.chainIds entry) :
    (entry.key ∈ pool.entries ∧ pool.restoreEntry entry = pool) ∨
      entry.key ∉ pool.entries ∧ pool.restoreEntry entry = { pool with
        entries := pool.entries.insert entry.key entry
        senderCounts := pool.senderCounts.insert (senderOf entry.key)
          ((pool.senderCounts[senderOf entry.key]?).getD 0 + 1) } := by
  have hregistered : entry.domainId ∈ pool.chainIds := OrdMap.mem_iff_exists.mpr ⟨_, h.chainId⟩
  unfold restoreEntry
  by_cases hheld : entry.key ∈ pool.entries
  · exact .inl ⟨hheld, if_pos (.inl hheld)⟩
  · exact .inr ⟨hheld, if_neg (by simp [hheld, hregistered])⟩

/-- What comes back: every entry whose key is not held. -/
theorem Accounted.restored :
    ∀ {pool : Mempool}, pool.Accounted → (∀ entry ∈ entries, Routed pool.chainIds entry) →
      (pool.restoreReserved entries).Accounted ∧
        (pool.restoreReserved entries).chainIds = pool.chainIds ∧
        (pool.restoreReserved entries).config = pool.config ∧
        keySet (pool.restoreReserved entries).entries
          = keySet pool.entries ∪ (entries.map PoolEntry.key).toFinset := by
  induction entries with
  | nil => exact fun hpool _ => ⟨hpool, rfl, rfl, by simp [restoreReserved]⟩
  | cons entry entries ih =>
    intro pool hpool hrouted
    have hentry := hrouted entry mem_cons_self
    have hrest := fun other hother => hrouted other (mem_cons_of_mem _ hother)
    rw [restoreReserved, foldl_cons, map_cons, toFinset_cons]
    rcases restoreEntry_cases hentry with ⟨hheld, heq⟩ | ⟨hnew, heq⟩
    · obtain ⟨haccounted, hids, hconfig, hkeys⟩ := ih hpool hrest
      rw [heq, Finset.union_insert,
        Finset.insert_eq_of_mem (Finset.mem_union_left _ (mem_keySet.mpr hheld))]
      exact ⟨haccounted, hids, hconfig, hkeys⟩
    · have hadded := hpool.added hentry hnew
      obtain ⟨haccounted, hids, hconfig, hkeys⟩ := ih hadded hrest
      rw [heq]
      refine ⟨haccounted, hids, hconfig, hkeys.trans ?_⟩
      rw [keySet_insert, Finset.union_insert, Finset.insert_union]

/-! ## Limits -/

theorem Accounted.inserted_within (hpool : pool.Accounted)
    (hwithin : pool.WithinCapacity pool.config)
    (h : pool.insert domainId envelope stateNonce = .ok (next, status)) :
    next.WithinCapacity pool.config := by
  obtain ⟨entry, _, ⟨hmem, rfl⟩ | ⟨hnew, htotal, hsender, rfl⟩⟩ := insert_eq_ok h
  · refine hwithin.mono ?_
    rw [keySet_insert, Finset.insert_eq_of_mem (mem_keySet.mpr hmem)]
  · have hnot : entry.key ∉ keySet pool.entries := fun hmem => hnew (mem_keySet.mp hmem)
    constructor
    · rw [← card_keySet, keySet_insert, Finset.card_insert_of_notMem hnot, card_keySet]
      exact htotal
    · intro domainId sender
      rw [heldBy, keySet_insert, card_members_insert hnot]
      have hold := hwithin.sender domainId sender
      rw [hpool.counted.count] at hsender
      split
      · rename_i heq
        rw [heq] at hsender
        exact hsender
      · exact hold

theorem Accounted.restored_within (hpool : pool.Accounted)
    (hrouted : ∀ entry ∈ entries, Routed pool.chainIds entry) (hroom : pool.HasRoom entries) :
    (pool.restoreReserved entries).WithinCapacity pool.config := by
  obtain ⟨_, _, _, hkeys⟩ := hpool.restored hrouted
  rw [← Finset.union_sdiff_self_eq_union] at hkeys
  constructor
  · rw [← card_keySet, hkeys]
    refine (Finset.card_union_le _ _).trans ?_
    rw [card_keySet]
    exact hroom.total
  · intro domainId sender
    rw [heldBy, hkeys, members, Finset.filter_union]
    exact (Finset.card_union_le _ _).trans (hroom.sender domainId sender)

end Changes

/-! ## Replacement prices -/

section Prices

/-- A fee with a percentage of it, rounded up, on top. -/
def raised (bump : U8) (value : Nat) : Nat :=
  min (2 ^ 128 - 1) (value + (value * bump.toNat + 99) / 100)

/-- An accepted insertion puts the new entry in the place of the old one. -/
def Replaces [Keccak] [Secp256k1] (bump : U8) (old new : PoolEntry) : Prop :=
  ∃ (pool : Mempool) (domainId : DomainId) (envelope : Bytes) (stateNonce : U64) (next : Mempool),
    pool.config.replacementBumpPercent = bump ∧ pool.entries[new.key]? = some old ∧
    pool.admitted domainId envelope stateNonce = .ok new ∧
    pool.insert domainId envelope stateNonce = .ok (next, .replaced)

theorem raised_mono (bump : U8) : Monotone (raised bump) := by
  intro low high h
  have hproduct := Nat.mul_le_mul_right bump.toNat h
  simp only [raised]
  omega

theorem replacementMin_eq (value : U128) (bump : U8) :
    replacementMin value bump = raised bump value.toNat := by
  have hsplit : value.toNat * bump.toNat
      = 100 * (value.toNat / 100 * bump.toNat) + value.toNat % 100 * bump.toNat := by
    rw [← mul_assoc, ← add_mul, Nat.div_add_mod]
  have hrest : value.toNat % 100 * bump.toNat ≤ 99 * 255 := by
    refine Nat.mul_le_mul ?_ ?_ <;> omega
  simp only [replacementMin, raised, hsplit]
  omega

theorem Replaces.raised_le [Keccak] [Secp256k1] {bump : U8} {old new : PoolEntry}
    (h : Replaces bump old new) :
    raised bump old.transaction.maxFeePerGas.toNat ≤ new.transaction.maxFeePerGas.toNat ∧
      raised bump old.transaction.maxPriorityFeePerGas.toNat
        ≤ new.transaction.maxPriorityFeePerGas.toNat := by
  obtain ⟨pool, domainId, envelope, stateNonce, next, rfl, hold, hnew, h⟩ := h
  simp only [Mempool.insert, hnew, ok_bind, hold] at h
  obtain ⟨hpriced, _⟩ := check_bind_eq_ok.mp h
  simpa [replacementPriced, replacementMin_eq] using hpriced

theorem iterate_raised_le {bump : U8} {k : Nat} (values : Nat → Nat)
    (h : ∀ i < k, raised bump (values i) ≤ values (i + 1)) :
    (raised bump)^[k] (values 0) ≤ values k := by
  induction k with
  | zero => exact le_rfl
  | succ k ih =>
    rw [Function.iterate_succ_apply']
    have hbefore := ih fun i hi => h i (hi.trans k.lt_succ_self)
    exact (raised_mono bump hbefore).trans (h k k.lt_succ_self)

/-- **Replacement prices.** -/
theorem replacement_pricing [Keccak] [Secp256k1] (bump : U8) :
    (∀ value : U128, replacementMin value bump = raised bump value.toNat) ∧
      ∀ (entries : Nat → PoolEntry) (k : Nat),
        (∀ i < k, Replaces bump (entries i) (entries (i + 1))) →
        (raised bump)^[k] (entries 0).transaction.maxFeePerGas.toNat
            ≤ (entries k).transaction.maxFeePerGas.toNat ∧
          (raised bump)^[k] (entries 0).transaction.maxPriorityFeePerGas.toNat
            ≤ (entries k).transaction.maxPriorityFeePerGas.toNat := by
  refine ⟨fun value => replacementMin_eq value bump, fun entries k h => ⟨?_, ?_⟩⟩
  · exact iterate_raised_le (fun i => (entries i).transaction.maxFeePerGas.toNat)
      fun i hi => (h i hi).raised_le.1
  · exact iterate_raised_le (fun i => (entries i).transaction.maxPriorityFeePerGas.toNat)
      fun i hi => (h i hi).raised_le.2

attribute [local instance] rollingKeccak namingCurve

def bid (fee : U128) : Bytes :=
  (Ethereum.encodeEip1559 ⟨2048, 0, fee, fee, 21000, none, 0, [], [], false, 7, 1⟩).toOption.getD []

/-- The entry of a bid that replaces another one, and the pool with it. -/
def outbid (pool : Mempool) (old : PoolEntry) (fee : U128) : Option (PoolEntry × Mempool) := do
  let new ← (pool.admitted 1 (bid fee) 0).toOption
  let (next, result) ← (pool.insert 1 (bid fee) 0).toOption
  if pool.config.replacementBumpPercent = 10 ∧ pool.entries[new.key]? = some old ∧
    result = .replaced then some (new, next) else none

theorem replaces_of_outbid {pool next : Mempool} {old new : PoolEntry} {fee : U128}
    (h : outbid pool old fee = some (new, next)) : Replaces 10 old new := by
  obtain ⟨_, hnew, h⟩ := Option.bind_eq_some_iff.mp h
  obtain ⟨⟨_, _⟩, hinsert, h⟩ := Option.bind_eq_some_iff.mp h
  dsimp only at h
  split at h
  case isFalse => cases h
  rename_i hreplaced
  cases h
  obtain ⟨hbump, hold, rfl⟩ := hreplaced
  exact ⟨pool, 1, bid fee, 0, next, hbump, hold, toOption_eq_some.mp hnew,
    toOption_eq_some.mp hinsert⟩

/-- A bid and the two that replace it. -/
def bids : Option (PoolEntry × PoolEntry × PoolEntry) := do
  let pool ← ((Mempool.new ⟨100, 10, 1000, 10⟩).registerDomain 1 2048).toOption
  let first ← (pool.admitted 1 (bid 100) 0).toOption
  let (pool, _) ← (pool.insert 1 (bid 100) 0).toOption
  let (second, pool) ← outbid pool first 110
  let (third, _) ← outbid pool second 125
  return (first, second, third)

theorem replacement_pricing_bids : ∃ entries : Nat → PoolEntry,
    (∀ i < 2, Replaces 10 (entries i) (entries (i + 1))) ∧
      (raised 10)^[2] (entries 0).transaction.maxFeePerGas.toNat
        ≤ (entries 2).transaction.maxFeePerGas.toNat := by
  obtain ⟨⟨first, second, third⟩, hbids⟩ := Option.isSome_iff_exists.mp
    (show bids.isSome = true by decide +kernel)
  rw [bids] at hbids
  obtain ⟨_, _, h⟩ := Option.bind_eq_some_iff.mp hbids
  obtain ⟨_, _, h⟩ := Option.bind_eq_some_iff.mp h
  obtain ⟨⟨_, _⟩, _, h⟩ := Option.bind_eq_some_iff.mp h
  obtain ⟨⟨_, _⟩, hsecond, h⟩ := Option.bind_eq_some_iff.mp h
  obtain ⟨⟨_, _⟩, hthird, h⟩ := Option.bind_eq_some_iff.mp h
  cases h
  let entries : Nat → PoolEntry
    | 0 => first
    | 1 => second
    | _ => third
  have hreplaces : ∀ i < 2, Replaces 10 (entries i) (entries (i + 1)) := by
    intro i hi
    match i, hi with
    | 0, _ => exact replaces_of_outbid hsecond
    | 1, _ => exact replaces_of_outbid hthird
  exact ⟨entries, hreplaces, ((replacement_pricing 10).2 entries 2 hreplaces).1⟩

end Prices

end Mempool

/-! ## Runs -/

/-- A pool and the entries set aside from it, neither restored nor committed so far. -/
structure Pooled where
  pool : Mempool
  reserved : List PoolEntry

inductive PoolOp where
  | registerDomain (domainId : DomainId) (chainId : U64)
  | insert (domainId : DomainId) (envelope : Bytes) (stateNonce : U64)
  | reserveHashes (hashes : BTreeSet B256)
  | restoreReserved (entries : List PoolEntry)
  | commit (entries : List PoolEntry)
  | advanceNonce (domainId : DomainId) (sender : Address) (stateNonce : U64)

namespace PoolOp

/-- Only entries that are set aside are restored or committed. -/
def Allowed : PoolOp → Pooled → Prop
  | restoreReserved entries, pooled => entries.Subperm pooled.reserved
  | commit entries, pooled => entries.Subperm pooled.reserved
  | _, _ => True

def Fits : PoolOp → Pooled → Prop
  | restoreReserved entries, pooled => pooled.pool.HasRoom entries
  | _, _ => True

variable [Keccak] [Secp256k1]

/-- An operation; one that fails changes nothing. -/
def run : PoolOp → Pooled → Pooled
  | registerDomain domainId chainId, pooled =>
    match pooled.pool.registerDomain domainId chainId with
    | .ok pool => { pooled with pool }
    | .error _ => pooled
  | insert domainId envelope stateNonce, pooled =>
    match pooled.pool.insert domainId envelope stateNonce with
    | .ok (pool, _) => { pooled with pool }
    | .error _ => pooled
  | reserveHashes hashes, pooled =>
    ⟨(pooled.pool.reserveHashes hashes).1,
      pooled.reserved ++ (pooled.pool.reserveHashes hashes).2⟩
  | restoreReserved entries, pooled =>
    ⟨pooled.pool.restoreReserved entries, pooled.reserved.diff entries⟩
  | commit entries, pooled => { pooled with reserved := pooled.reserved.diff entries }
  | advanceNonce domainId sender stateNonce, pooled =>
    { pooled with pool := pooled.pool.advanceNonce domainId sender stateNonce }

end PoolOp

section Runs

variable [Keccak] [Secp256k1]

/-- The states operations lead to from an empty pool, each operation permitted where it is
made. -/
inductive PoolRun (permitted : PoolOp → Pooled → Prop) (config : MempoolConfig) : Pooled → Prop
  | start : PoolRun permitted config ⟨Mempool.new config, []⟩
  | step {pooled : Pooled} (run : PoolRun permitted config pooled) (op : PoolOp)
      (h : permitted op pooled) : PoolRun permitted config (op.run pooled)

/-- The pool is accounted for, and so is what has been set aside. -/
structure Pooled.Sound (config : MempoolConfig) (pooled : Pooled) : Prop where
  accounted : pooled.pool.Accounted
  reserved : ∀ entry ∈ pooled.reserved, Mempool.Routed pooled.pool.chainIds entry
  config_eq : pooled.pool.config = (Mempool.new config).config

variable {config : MempoolConfig} {pooled : Pooled}

theorem Pooled.sound_start : Pooled.Sound config ⟨new config, []⟩ := by
  refine ⟨⟨?_, ?_, ?_⟩, by simp, rfl⟩
  · simp [Keyed, new]
  · simp [new]
  · rw [new]
    exact tallies_empty

/-- An operation on the pool that leaves what is set aside. -/
theorem Pooled.Sound.with_pool (h : pooled.Sound config) {pool : Mempool} (hpool : pool.Accounted)
    (hids : ∀ entry, Routed pooled.pool.chainIds entry → Routed pool.chainIds entry)
    (hconfig : pool.config = pooled.pool.config) : Pooled.Sound config { pooled with pool } :=
  ⟨hpool, fun entry hentry => hids entry (h.reserved entry hentry), hconfig.trans h.config_eq⟩

/-- **One operation** keeps the pool accounted for. -/
theorem PoolOp.run_sound (op : PoolOp) (h : pooled.Sound config) (hop : op.Allowed pooled) :
    (op.run pooled).Sound config := by
  cases op with
  | registerDomain domainId chainId =>
    rw [run]
    cases hregister : pooled.pool.registerDomain domainId chainId with
    | error e => exact h
    | ok pool =>
      refine h.with_pool (h.accounted.registered hregister) ?_ ?_
      · rcases Mempool.registerDomain_eq_ok hregister with rfl | ⟨hfree, _, rfl⟩
        · exact fun _ hentry => hentry
        · exact fun _ hentry => hentry.insert hfree _
      · rcases Mempool.registerDomain_eq_ok hregister with rfl | ⟨_, _, rfl⟩ <;> rfl
  | insert domainId envelope stateNonce =>
    rw [run]
    cases hinsert : pooled.pool.insert domainId envelope stateNonce with
    | error e => exact h
    | ok inserted =>
      obtain ⟨_, _, ⟨_, hnext⟩ | ⟨_, _, _, hnext⟩⟩ := Mempool.insert_eq_ok hinsert
      · exact h.with_pool (h.accounted.inserted hinsert) (by rw [hnext]; exact fun _ => id)
          (by rw [hnext])
      · exact h.with_pool (h.accounted.inserted hinsert) (by rw [hnext]; exact fun _ => id)
          (by rw [hnext])
  | reserveHashes hashes =>
    obtain ⟨_, hids, _, hconfig⟩ := Mempool.reserveKeys_eq
      ((pooled.pool.entries.toList.filter fun entry => entry.2.transactionHash ∈ hashes).map (·.1))
      pooled.pool
    refine ⟨h.accounted.reserved hashes, fun entry hentry => ?_, hconfig.trans h.config_eq⟩
    have hrouted : Mempool.Routed pooled.pool.chainIds entry := by
      rcases mem_append.mp hentry with hold | hnew
      · exact h.reserved entry hold
      · exact h.accounted.reserved_routed hnew
    rw [run, Mempool.reserveHashes, hids]
    exact hrouted
  | restoreReserved entries =>
    have hrouted := fun entry hentry => h.reserved entry (Subperm.subset hop hentry)
    obtain ⟨haccounted, hids, hconfig, _⟩ := h.accounted.restored hrouted
    refine ⟨haccounted, fun entry hentry => ?_, hconfig.trans h.config_eq⟩
    rw [run, hids]
    exact h.reserved entry (diff_subset _ _ hentry)
  | commit entries =>
    exact ⟨h.accounted, fun entry hentry => h.reserved entry (diff_subset _ _ hentry),
      h.config_eq⟩
  | advanceNonce domainId sender stateNonce =>
    refine h.with_pool (h.accounted.advanced domainId sender stateNonce) ?_ ?_
    · rw [Mempool.advanceNonce, Mempool.decrementSender_eq]
      exact fun _ => id
    · rw [Mempool.advanceNonce, Mempool.decrementSender_eq]

/-- **One operation** keeps the limits if what it restores finds room. -/
theorem PoolOp.run_within (op : PoolOp) (h : pooled.Sound config) (hop : op.Allowed pooled)
    (hfits : op.Fits pooled) (hwithin : pooled.pool.WithinCapacity pooled.pool.config) :
    (op.run pooled).pool.WithinCapacity pooled.pool.config := by
  cases op with
  | registerDomain domainId chainId =>
    rw [run]
    cases hregister : pooled.pool.registerDomain domainId chainId with
    | error e => exact hwithin
    | ok pool =>
      rcases Mempool.registerDomain_eq_ok hregister with rfl | ⟨_, _, rfl⟩
      · exact hwithin
      · exact ⟨hwithin.total, hwithin.sender⟩
  | insert domainId envelope stateNonce =>
    rw [run]
    cases hinsert : pooled.pool.insert domainId envelope stateNonce with
    | error e => exact hwithin
    | ok inserted => exact h.accounted.inserted_within hwithin hinsert
  | reserveHashes hashes =>
    refine hwithin.mono ?_
    rw [run, Mempool.reserveHashes, (Mempool.reserveKeys_eq _ _).1, keySet_eraseAll]
    exact Finset.sdiff_subset
  | restoreReserved entries =>
    exact h.accounted.restored_within
      (fun entry hentry => h.reserved entry (Subperm.subset hop hentry)) hfits
  | commit entries => exact hwithin
  | advanceNonce domainId sender stateNonce =>
    refine hwithin.mono ?_
    rw [run, Mempool.advanceNonce, Mempool.decrementSender_eq, keySet_eraseAll]
    exact Finset.sdiff_subset

variable {permitted : PoolOp → Pooled → Prop}

theorem PoolRun.sound (hpermitted : ∀ op pooled, permitted op pooled → op.Allowed pooled)
    (run : PoolRun permitted config pooled) : pooled.Sound config := by
  induction run with
  | start => exact Pooled.sound_start
  | step run op h ih => exact op.run_sound ih (hpermitted op _ h)

theorem PoolRun.within
    (hpermitted : ∀ op pooled, permitted op pooled → op.Allowed pooled ∧ op.Fits pooled)
    (run : PoolRun permitted config pooled) : pooled.pool.WithinCapacity config := by
  have hlimits : pooled.pool.WithinCapacity (new config).config := by
    induction run with
    | start => exact ⟨by simp [new], fun _ _ => by simp [heldBy, members, new]⟩
    | step run op h ih =>
      have hsound := run.sound fun op pooled h => (hpermitted op pooled h).1
      rw [← hsound.config_eq] at ih ⊢
      exact op.run_within hsound (hpermitted op _ h).1 (hpermitted op _ h).2 ih
  exact ⟨hlimits.total, hlimits.sender⟩

/-- **Pool accounting.**  From an empty pool, over any operations, every entry is under its own
domain, recovered sender and nonce with its domain's chain ID, and exactly the senders with
entries have a count, their number.  The limits hold as long as every restored entry finds
room. -/
theorem pool_accounting (config : MempoolConfig) :
    (∀ pooled, PoolRun PoolOp.Allowed config pooled → pooled.pool.Accounted) ∧
      ∀ pooled, PoolRun (fun op pooled => op.Allowed pooled ∧ op.Fits pooled) config pooled →
        pooled.pool.Accounted ∧ pooled.pool.WithinCapacity config := by
  constructor
  · intro pooled run
    exact (run.sound fun _ _ h => h).accounted
  · intro pooled run
    exact ⟨(run.sound fun _ _ h => h.1).accounted, run.within fun _ _ h => h⟩

end Runs

section Sample

attribute [local instance] rollingKeccak namingCurve

def firstEnvelope (signer : U256) : Bytes :=
  (Ethereum.encodeEip1559 ⟨1, 0, 0, 0, 21000, none, 0, [], [], false, signer, 1⟩).toOption.getD []

def displacing (config : MempoolConfig) : Pooled :=
  (PoolOp.insert 1 (firstEnvelope 8) 0).run
    ((PoolOp.reserveHashes ((∅ : BTreeSet B256).insert (keccak256 (firstEnvelope 7)))).run
      ((PoolOp.insert 1 (firstEnvelope 7) 0).run
        ((PoolOp.registerDomain 1 1).run ⟨Mempool.new config, []⟩)))

def givenBack (config : MempoolConfig) : Pooled :=
  (PoolOp.restoreReserved (displacing config).reserved).run (displacing config)

theorem displacing_run {permitted : PoolOp → Pooled → Prop} (config : MempoolConfig)
    (h : ∀ op pooled, (∀ entries, op ≠ .restoreReserved entries) →
      (∀ entries, op ≠ .commit entries) →
      permitted op pooled) : PoolRun permitted config (displacing config) :=
  .step (.step (.step (.step .start _ (h _ _ (by simp) (by simp))) _ (h _ _ (by simp) (by simp))) _
    (h _ _ (by simp) (by simp))) _ (h _ _ (by simp) (by simp))

/-- With room for one transaction, the one given back is one too many. -/
theorem restored_beyond_capacity :
    PoolRun PoolOp.Allowed ⟨1, 1, 1000, 10⟩ (givenBack ⟨1, 1, 1000, 10⟩) ∧
      (givenBack ⟨1, 1, 1000, 10⟩).pool.entries.size = 2 ∧
      ¬(givenBack ⟨1, 1, 1000, 10⟩).pool.WithinCapacity ⟨1, 1, 1000, 10⟩ := by
  have hsize : (givenBack ⟨1, 1, 1000, 10⟩).pool.entries.size = 2 := by decide +kernel
  refine ⟨.step (displacing_run _ ?_) _ (Subperm.refl _), hsize, fun hwithin => ?_⟩
  · intro op pooled hrestore hcommit
    cases op with
    | restoreReserved entries => exact absurd rfl (hrestore entries)
    | commit entries => exact absurd rfl (hcommit entries)
    | _ => trivial
  · have htotal := hwithin.total
    rw [hsize] at htotal
    exact absurd htotal (by decide)

/-- With room for two, both are held. -/
theorem pool_accounting_given_back : (givenBack ⟨2, 2, 1000, 10⟩).pool.Accounted ∧
      (givenBack ⟨2, 2, 1000, 10⟩).pool.WithinCapacity ⟨2, 2, 1000, 10⟩ := by
  have hroom : (displacing ⟨2, 2, 1000, 10⟩).pool.entries.size
      + ((displacing ⟨2, 2, 1000, 10⟩).pool.returning (displacing ⟨2, 2, 1000, 10⟩).reserved).card
        = 2 := by
    decide +kernel
  have hconfig : (displacing ⟨2, 2, 1000, 10⟩).pool.config = ⟨2, 2, 1000, 10⟩ := by decide +kernel
  refine (pool_accounting ⟨2, 2, 1000, 10⟩).2 _
    (.step (displacing_run _ ?_) _ ⟨Subperm.refl _, hasRoom_of_le ?_ ?_⟩)
  · intro op pooled hrestore hcommit
    cases op with
    | restoreReserved entries => exact absurd rfl (hrestore entries)
    | commit entries => exact absurd rfl (hcommit entries)
    | _ => exact ⟨trivial, trivial⟩
  · rw [hroom, hconfig]
  · rw [hroom, hconfig]

end Sample

end Arbor
