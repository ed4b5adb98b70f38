import Arbor.Mempool.Ready

/-!
# Entries set aside and returned

A reservation splits the entries of a pool into those that stay and those set aside.  What
comes back fills the places that are free, the first entry for each (`restored_entries`); if
nothing happened in between, the pool is the one before (`restore_reserved`).  An accounted
pool has one table of sender counts, so the counts follow from the entries.
-/

namespace Arbor

open Result Tally

namespace Mempool

def entryAt (entries : List PoolEntry) (key : PoolKey) : Option PoolEntry :=
  entries.find? fun entry => entry.key = key

theorem entryAt_eq_some {entries : List PoolEntry} {key : PoolKey} {entry : PoolEntry}
    (h : entryAt entries key = some entry) : entry ∈ entries ∧ entry.key = key := by
  have hkey := List.find?_some h
  exact ⟨List.mem_of_find?_eq_some h, of_decide_eq_true hkey⟩

section Reservation

variable {pool next : Mempool}

@[simp] theorem restoreReserved_usedChainIds (entries : List PoolEntry) : ∀ pool : Mempool,
    (pool.restoreReserved entries).usedChainIds = pool.usedChainIds := by
  induction entries with
  | nil => exact fun _ => rfl
  | cons first rest ih => exact fun pool => (ih _).trans (restoreEntry_registrations pool first).2.1

theorem kept_of_reserved {hashes : BTreeSet B256} {key : PoolKey} {entry : PoolEntry}
    (h : pool.entries[key]? = some entry) (hhash : entry.transactionHash ∉ hashes) :
    (pool.reserveHashes hashes).1.entries[key]? = some entry := by
  rw [reserveHashes, (reserveKeys_eq _ pool).1, Tally.getElem?_eraseAll, if_neg ?_]
  · exact h
  · intro hmem
    obtain ⟨⟨_, other⟩, hother, rfl⟩ := List.mem_map.mp hmem
    obtain ⟨hlisted, htaken⟩ := List.mem_filter.mp hother
    rw [Std.ExtTreeMap.mem_toList_iff_getElem?_eq_some.mp hlisted] at h
    cases h
    exact hhash (of_decide_eq_true htaken)

/-- **The split.**  What stays and what is set aside make up the pool. -/
theorem reserved_entries (hashes : BTreeSet B256) (hkeyed : pool.Keyed) (key : PoolKey) :
    pool.entries[key]? = (pool.reserveHashes hashes).1.entries[key]?.or
      (entryAt (pool.reserveHashes hashes).2 key) := by
  have haside : ∀ entry, entryAt (pool.reserveHashes hashes).2 key = some entry →
      pool.entries[key]? = some entry := by
    intro entry h
    obtain ⟨hmem, rfl⟩ := entryAt_eq_some h
    obtain ⟨held, hheld⟩ := entry_of_mem_reserved hmem
    rw [← hkeyed held entry hheld]
    exact hheld
  rcases hkept : (pool.reserveHashes hashes).1.entries[key]? with _ | entry
  · rw [Option.none_or]
    rcases hentry : pool.entries[key]? with _ | entry
    · rcases hreserved : entryAt (pool.reserveHashes hashes).2 key with _ | other
      · rfl
      · rw [haside other hreserved] at hentry
        cases hentry
    · -- an entry that does not stay has one of the hashes
      have hhash : entry.transactionHash ∈ hashes := by
        by_contra hhash
        rw [kept_of_reserved hentry hhash] at hkept
        cases hkept
      rcases hreserved : entryAt (pool.reserveHashes hashes).2 key with _ | other
      · have hmem := mem_reserved.mpr ⟨⟨key, hentry⟩, hhash⟩
        exact absurd (decide_eq_true (hkeyed key entry hentry).symm)
          (List.find?_eq_none.mp hreserved entry hmem)
      · rw [← haside other hreserved, hentry]
  · rw [Option.some_or, (entry_of_reserved hkept).1]

theorem entryAt_reserved {hashes : BTreeSet B256}
    (hkeyed : pool.Keyed) {entry : PoolEntry} (h : entry ∈ (pool.reserveHashes hashes).2) :
    (pool.reserveHashes hashes).1.entries[entry.key]? = none ∧
      entryAt (pool.reserveHashes hashes).2 entry.key = some entry := by
  obtain ⟨⟨key, hheld⟩, hhash⟩ := mem_reserved.mp h
  obtain rfl := hkeyed key entry hheld
  have hgone : (pool.reserveHashes hashes).1.entries[entry.key]? = none := by
    rcases hkept : (pool.reserveHashes hashes).1.entries[entry.key]? with _ | other
    · rfl
    · obtain ⟨hother, hnot⟩ := entry_of_reserved hkept
      rw [hheld] at hother
      cases hother
      exact absurd hhash hnot
  have hsplit := reserved_entries hashes hkeyed entry.key
  rw [hgone, hheld] at hsplit
  exact ⟨hgone, hsplit.symm⟩

variable [Keccak] [Secp256k1]

theorem Accounted.ext (hpool : pool.Accounted) (hnext : next.Accounted)
    (hentries : next.entries = pool.entries) (hids : next.chainIds = pool.chainIds)
    (hused : next.usedChainIds = pool.usedChainIds) (hconfig : next.config = pool.config) :
    next = pool := by
  have hcounts : next.senderCounts = pool.senderCounts := by
    refine Std.ExtTreeMap.ext_getElem? fun sender => ?_
    rw [hnext.counted sender, hpool.counted sender, hentries]
  cases next
  cases pool
  simp_all

/-- Entries come back where the pool has none. -/
theorem restored_entries (key : PoolKey) : ∀ {entries : List PoolEntry} {pool : Mempool},
    (∀ entry ∈ entries, Routed pool.chainIds entry) →
      (pool.restoreReserved entries).entries[key]? = pool.entries[key]?.or
        (entryAt entries key) := by
  intro entries
  induction entries with
  | nil => exact fun _ => Option.or_none.symm
  | cons entry rest ih =>
    intro pool hrouted
    have hrest := fun other hother => hrouted other (List.mem_cons_of_mem _ hother)
    rw [restoreReserved, List.foldl_cons, entryAt, List.find?_cons]
    rcases restoreEntry_cases (hrouted entry List.mem_cons_self) with ⟨hheld, heq⟩ | ⟨hnew, heq⟩
    · -- the place is taken: the entry is passed over
      rw [heq]
      refine (ih hrest).trans ?_
      split
      · rename_i hkey
        obtain ⟨found, hfound⟩ := OrdMap.mem_iff_exists.mp hheld
        rw [← of_decide_eq_true hkey, hfound, Option.some_or, Option.some_or]
      · rfl
    · rw [heq]
      refine (@ih { pool with
        entries := pool.entries.insert entry.key entry
        senderCounts := _ } hrest).trans ?_
      rw [OrdMap.getElem?_insert]
      by_cases hkey : entry.key = key
      · have hnone : pool.entries[key]? = none := by
          rw [← hkey]
          exact Std.ExtTreeMap.getElem?_eq_none hnew
        rw [if_pos hkey, hnone, decide_eq_true hkey, Option.some_or, Option.none_or]
      · rw [if_neg hkey, decide_eq_false hkey]
        rfl

/-- **Nothing lost.**  What is set aside and returned at once leaves the pool as it was. -/
theorem restore_reserved (hpool : pool.Accounted) (hashes : BTreeSet B256) :
    (pool.reserveHashes hashes).1.restoreReserved (pool.reserveHashes hashes).2 = pool := by
  have hids := reserveHashes_chainIds pool hashes
  have hrouted : ∀ entry ∈ (pool.reserveHashes hashes).2,
      Routed (pool.reserveHashes hashes).1.chainIds entry := by
    rw [hids]
    exact fun entry hentry => hpool.reserved_routed hentry
  obtain ⟨haccounted, hids', hconfig, _⟩ := (hpool.reserved hashes).restored hrouted
  refine hpool.ext haccounted ?_ (hids'.trans hids) ?_ ?_
  · refine Std.ExtTreeMap.ext_getElem? fun key => ?_
    rw [restored_entries key hrouted, ← reserved_entries hashes hpool.keyed key]
  · exact (restoreReserved_usedChainIds _ _).trans (reserveKeys_eq _ pool).2.2.1
  · exact hconfig.trans (reserveKeys_eq _ pool).2.2.2

end Reservation

end Mempool

end Arbor
