import Arbor.Codec.EthereumRoundTrip
import Arbor.Mempool.Readiness

/-!
# Admitted pools

Every entry of a pool has passed admission: it is under its own key, its envelope decodes to
its transaction and is no longer than the codec allows, and no two domains share a chain ID
(`Admitted`).
-/

namespace Arbor

open Result

namespace Mempool

/-! ## Entries -/

section Entries

variable {pool : Mempool} {hashes : BTreeSet B256} {key : PoolKey} {entry : PoolEntry}

/-- Reserved are the entries with the hashes. -/
theorem mem_reserved : entry ∈ (pool.reserveHashes hashes).2 ↔
    (∃ key : PoolKey, pool.entries[key]? = some entry) ∧ entry.transactionHash ∈ hashes := by
  rw [reserveHashes, List.mem_map]
  constructor
  · rintro ⟨⟨key, _⟩, hmem, rfl⟩
    rw [List.mem_filter, Std.ExtTreeMap.mem_toList_iff_getElem?_eq_some, decide_eq_true_eq] at hmem
    exact ⟨⟨key, hmem.1⟩, hmem.2⟩
  · rintro ⟨⟨key, hentry⟩, hhash⟩
    refine ⟨(key, entry), List.mem_filter.mpr ⟨?_, decide_eq_true hhash⟩, rfl⟩
    exact Std.ExtTreeMap.mem_toList_iff_getElem?_eq_some.mpr hentry

/-- The other entries stay. -/
theorem entry_of_reserved (h : (pool.reserveHashes hashes).1.entries[key]? = some entry) :
    pool.entries[key]? = some entry ∧ entry.transactionHash ∉ hashes := by
  rw [reserveHashes, (reserveKeys_eq _ pool).1, Tally.getElem?_eraseAll] at h
  split at h
  · cases h
  · rename_i hkept
    refine ⟨h, fun hhash =>
      hkept (List.mem_map.mpr ⟨(key, entry), List.mem_filter.mpr ⟨?_, ?_⟩, rfl⟩)⟩
    · exact Std.ExtTreeMap.mem_toList_iff_getElem?_eq_some.mpr h
    · exact decide_eq_true hhash

theorem entry_of_mem_reserved (h : entry ∈ (pool.reserveHashes hashes).2) :
    ∃ key : PoolKey, pool.entries[key]? = some entry :=
  (mem_reserved.mp h).1

theorem entry_of_restoredEntry {first : PoolEntry}
    (h : (pool.restoreEntry first).entries[key]? = some entry) :
    pool.entries[key]? = some entry ∨ key = first.key ∧ entry = first := by
  unfold restoreEntry at h
  split at h
  · exact .inl h
  · rw [OrdMap.getElem?_insert] at h
    split at h
    · rename_i heq
      exact .inr ⟨heq.symm, (Option.some.inj h).symm⟩
    · exact .inl h

/-- A restored pool has its own entries and the given ones. -/
theorem entry_of_restored {entries : List PoolEntry} : ∀ {pool : Mempool} {key : PoolKey}
    {entry : PoolEntry}, (pool.restoreReserved entries).entries[key]? = some entry →
      pool.entries[key]? = some entry ∨ entry ∈ entries := by
  induction entries with
  | nil => exact fun h => .inl h
  | cons first rest ih =>
    intro pool key entry h
    rcases ih h with hpool | hrest
    · rcases entry_of_restoredEntry hpool with hheld | ⟨_, rfl⟩
      · exact .inl hheld
      · exact .inr List.mem_cons_self
    · exact .inr (List.mem_cons_of_mem _ hrest)

@[simp] theorem reserveHashes_chainIds (pool : Mempool) (hashes : BTreeSet B256) :
    (pool.reserveHashes hashes).1.chainIds = pool.chainIds :=
  (reserveKeys_eq _ pool).2.1

theorem restoreEntry_registrations (pool : Mempool) (first : PoolEntry) :
    (pool.restoreEntry first).chainIds = pool.chainIds ∧
      (pool.restoreEntry first).usedChainIds = pool.usedChainIds ∧
      (pool.restoreEntry first).config = pool.config := by
  unfold restoreEntry
  split <;> exact ⟨rfl, rfl, rfl⟩

@[simp] theorem restoreReserved_chainIds (entries : List PoolEntry) : ∀ pool : Mempool,
    (pool.restoreReserved entries).chainIds = pool.chainIds := by
  induction entries with
  | nil => exact fun _ => rfl
  | cons first rest ih => exact fun pool => (ih _).trans (restoreEntry_registrations pool first).1

end Entries

/-! ## Admission -/

section Admitted

variable [Keccak] [Secp256k1]

variable {domainId : DomainId} {envelope : Bytes} {stateNonce chainId : U64} {entry : PoolEntry}
  {next : Mempool}

/-- What admission has checked of an entry. -/
structure Checked (chainIds : BTreeMap DomainId U64) (entry : PoolEntry) : Prop where
  routed : Routed chainIds entry
  decodes : Ethereum.decodeEip1559 entry.envelope = .ok entry.transaction
  hashes : Crypto.eip1559TransactionHash entry.transaction = .ok entry.transactionHash
  sized : entry.envelope.length ≤ MAX_TRANSACTION_ENVELOPE_BYTES

/-- A pool whose entries have been admitted. -/
structure Admitted (pool : Mempool) : Prop where
  keyed : pool.Keyed
  checked : ∀ (key : PoolKey) (entry : PoolEntry), pool.entries[key]? = some entry →
    Checked pool.chainIds entry
  chains : ∀ (a b : DomainId) (chainId : U64), pool.chainIds[a]? = some chainId →
    pool.chainIds[b]? = some chainId → a = b
  used : ∀ (domainId : DomainId) (chainId : U64), pool.chainIds[domainId]? = some chainId →
    chainId ∈ pool.usedChainIds
  limit : pool.config.maxTransactionBytes ≤ MAX_TRANSACTION_ENVELOPE_BYTES

variable {pool : Mempool}

/-- An insertion adds at most the admitted entry. -/
theorem entry_of_inserted {status : QueueStatus} {key : PoolKey}
    (h : pool.insert domainId envelope stateNonce = .ok (next, status))
    (hentry : next.entries[key]? = some entry) : pool.entries[key]? = some entry ∨
      key = entry.key ∧ pool.admitted domainId envelope stateNonce = .ok entry := by
  obtain ⟨new, hadmitted, hnext⟩ := insert_eq_ok h
  have hentries : next.entries = pool.entries.insert new.key new := by
    rcases hnext with ⟨_, rfl⟩ | ⟨_, _, _, rfl⟩ <;> rfl
  rw [hentries, OrdMap.getElem?_insert] at hentry
  split at hentry
  · rename_i heq
    cases hentry
    exact .inr ⟨heq.symm, hadmitted⟩
  · exact .inl hentry

/-! ## Admitted pools -/

theorem Admitted.new (config : MempoolConfig) : (Mempool.new config).Admitted := by
  refine ⟨?_, ?_, ?_, ?_, min_le_right _ _⟩ <;>
  · intro _ _
    simp [Mempool.new]

/-- Checked entries in place of others. -/
theorem Admitted.of_entries (hpool : pool.Admitted) (hchains : next.chainIds = pool.chainIds)
    (hused : next.usedChainIds = pool.usedChainIds) (hconfig : next.config = pool.config)
    (hentries : ∀ (key : PoolKey) (entry : PoolEntry), next.entries[key]? = some entry →
      pool.entries[key]? = some entry ∨ key = entry.key ∧ Checked pool.chainIds entry) :
    next.Admitted where
  keyed key entry h := (hentries key entry h).elim (hpool.keyed key entry) And.left
  checked key entry h := by
    rw [hchains]
    exact (hentries key entry h).elim (hpool.checked key entry) And.right
  chains := by
    rw [hchains]
    exact hpool.chains
  used := by
    rw [hchains, hused]
    exact hpool.used
  limit := by
    rw [hconfig]
    exact hpool.limit

/-- A registration undoes no check. -/
theorem Checked.registered (hentry : Checked pool.chainIds entry)
    (h : pool.registerDomain domainId chainId = .ok next) : Checked next.chainIds entry := by
  rcases registerDomain_eq_ok h with rfl | ⟨hfree, _, rfl⟩
  · exact hentry
  · exact ⟨hentry.routed.insert hfree chainId, hentry.decodes, hentry.hashes, hentry.sized⟩

theorem Admitted.registered (hpool : pool.Admitted)
    (h : pool.registerDomain domainId chainId = .ok next) : next.Admitted := by
  have hchecked := fun key entry hentry => (hpool.checked key entry hentry).registered h
  rcases registerDomain_eq_ok h with rfl | ⟨_, hunused, rfl⟩
  · exact hpool
  have hnew (other : DomainId) : pool.chainIds[other]? ≠ some chainId :=
    fun hother => hunused (hpool.used other chainId hother)
  refine ⟨hpool.keyed, hchecked, fun a b shared ha hb => ?_, fun other shared hother => ?_,
    hpool.limit⟩
  · rw [OrdMap.getElem?_insert] at ha hb
    split at ha <;> split at hb
    · rename_i heqa heqb
      exact heqa.symm.trans heqb
    · cases ha
      exact absurd hb (hnew b)
    · cases hb
      exact absurd ha (hnew a)
    · exact hpool.chains a b shared ha hb
  · rw [OrdMap.getElem?_insert] at hother
    rw [Std.ExtTreeSet.mem_insert]
    split at hother
    · cases hother
      exact .inl Std.ReflCmp.compare_self
    · exact .inr (hpool.used other shared hother)

theorem Admitted.inserted {status : QueueStatus} (hpool : pool.Admitted)
    (h : pool.insert domainId envelope stateNonce = .ok (next, status)) : next.Admitted := by
  have hsame : next.chainIds = pool.chainIds ∧ next.usedChainIds = pool.usedChainIds ∧
      next.config = pool.config := by
    obtain ⟨_, _, ⟨_, rfl⟩ | ⟨_, _, _, rfl⟩⟩ := insert_eq_ok h <;> exact ⟨rfl, rfl, rfl⟩
  refine hpool.of_entries hsame.1 hsame.2.1 hsame.2.2 fun key entry hentry => ?_
  refine (entry_of_inserted h hentry).imp_right fun hnew => ⟨hnew.1, ?_⟩
  obtain ⟨_, hrouted, hdecodes, _, hhash, hlength, henvelope⟩ := admitted_eq_ok hnew.2
  subst henvelope
  exact ⟨hrouted, hdecodes, hhash, hlength.trans hpool.limit⟩

/-- Reserving keeps the rest admitted. -/
theorem Admitted.reserved (hpool : pool.Admitted) (hashes : BTreeSet B256) :
    (pool.reserveHashes hashes).1.Admitted := by
  obtain ⟨_, hchains, hused, hconfig⟩ := reserveKeys_eq
    ((pool.entries.toList.filter fun entry => entry.2.transactionHash ∈ hashes).map (·.1)) pool
  exact hpool.of_entries hchains hused hconfig fun key entry h => .inl (entry_of_reserved h).1

/-- Checked entries may come back. -/
theorem Admitted.restored {entries : List PoolEntry} : ∀ {pool : Mempool}, pool.Admitted →
    (∀ entry ∈ entries, Checked pool.chainIds entry) → (pool.restoreReserved entries).Admitted := by
  induction entries with
  | nil => exact fun hpool _ => hpool
  | cons first rest ih =>
    intro pool hpool hentries
    have hsame := restoreEntry_registrations pool first
    refine ih (hpool.of_entries hsame.1 hsame.2.1 hsame.2.2 fun key entry h => ?_)
      fun entry hentry => ?_
    · refine (entry_of_restoredEntry h).imp_right ?_
      rintro ⟨rfl, rfl⟩
      exact ⟨rfl, hentries _ List.mem_cons_self⟩
    · rw [hsame.1]
      exact hentries entry (List.mem_cons_of_mem _ hentry)

end Admitted

end Mempool

end Arbor
