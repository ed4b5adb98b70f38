import Mathlib.Data.Finset.Image
import Arbor.Mempool.Accounting

/-!
# Runs of nonces

Two loops of the pool go up the nonces of a sender: `ready` collects entries as long as
there are any, and admission asks whether there is one for every nonce up to its own.  Both
find the same run: the nonces from the state nonce on that are in the pool without a gap
(`Held`).  No run is longer than the pool, so the loops end.
-/

namespace Arbor

open Result Tally

namespace Mempool

section Runs

variable {pool : Mempool} {domainId : DomainId} {sender : Address}

/-- The `count` nonces from `nonce` on are in the pool, all below `2 ^ 64`. -/
def Held (pool : Mempool) (domainId : DomainId) (sender : Address) (nonce count : Nat) : Prop :=
  ∀ i < count, nonce + i < 2 ^ 64 ∧ (domainId, sender, BitVec.ofNat 64 (nonce + i)) ∈ pool.entries

theorem held_zero (nonce : Nat) : pool.Held domainId sender nonce 0 :=
  fun _ hi => absurd hi (Nat.not_lt_zero _)

theorem Held.mono {nonce count more : Nat} (h : pool.Held domainId sender nonce more)
    (hle : count ≤ more) : pool.Held domainId sender nonce count :=
  fun i hi => h i (hi.trans_le hle)

theorem held_succ {nonce : U64} {count : Nat} : pool.Held domainId sender nonce.toNat (count + 1) ↔
      (domainId, sender, nonce) ∈ pool.entries ∧
        pool.Held domainId sender (nonce.toNat + 1) count := by
  constructor
  · intro h
    have hfirst := (h 0 (Nat.succ_pos _)).2
    rw [Nat.add_zero, BitVec.ofNat_toNat] at hfirst
    refine ⟨hfirst, fun i hi => ?_⟩
    rw [Nat.add_assoc, Nat.add_comm 1]
    exact h (i + 1) (Nat.succ_lt_succ hi)
  · rintro ⟨hfirst, hrest⟩ i hi
    cases i with
    | zero =>
      rw [Nat.add_zero, BitVec.ofNat_toNat]
      exact ⟨nonce.isLt, hfirst⟩
    | succ i =>
      have hnext := hrest i (Nat.lt_of_succ_lt_succ hi)
      rwa [Nat.add_assoc, Nat.add_comm 1] at hnext

/-- A run is no longer than the pool. -/
theorem Held.le_size {nonce count : Nat} (h : pool.Held domainId sender nonce count) :
    count ≤ pool.entries.size := by
  have hinj : Set.InjOn (fun i => ((domainId, sender, BitVec.ofNat 64 (nonce + i)) : PoolKey))
      (Finset.range count) := by
    intro i hi j hj heq
    have hsame := congrArg (fun key : PoolKey => key.2.2.toNat) heq
    have hlt := (h i (Finset.mem_range.mp hi)).1
    have hlt' := (h j (Finset.mem_range.mp hj)).1
    simp only [BitVec.toNat_ofNat] at hsame
    omega
  rw [← card_keySet, ← Finset.card_range count, ← Finset.card_image_of_injOn hinj]
  refine Finset.card_le_card fun key hkey => ?_
  obtain ⟨i, hi, rfl⟩ := Finset.mem_image.mp hkey
  exact mem_keySet.mpr (h i (Finset.mem_range.mp hi)).2

theorem toNat_succ {nonce : U64} (h : nonce ≠ BitVec.allOnes 64) :
    (nonce + 1).toNat = nonce.toNat + 1 := by
  have hne : nonce.toNat ≠ 2 ^ 64 - 1 := fun heq =>
    h (BitVec.eq_of_toNat_eq (by rw [heq, BitVec.toNat_allOnes]))
  rw [BitVec.toNat_add, Nat.mod_eq_of_lt (by simp; omega)]
  rfl

/-! ## Collecting -/

/-- What the loop has collected: a run in order, whose end it has reached unless it stopped
for want of fuel. -/
structure Collected (pool : Mempool) (domainId : DomainId) (sender : Address) (nonce fuel : Nat)
    (ready : List PoolEntry) : Prop where
  held : pool.Held domainId sender nonce ready.length
  entries : ∀ (i : Nat) (entry : PoolEntry), ready[i]? = some entry →
    pool.entries[(domainId, sender, BitVec.ofNat 64 (nonce + i))]? = some entry
  ended : ready.length < fuel → ¬pool.Held domainId sender nonce (ready.length + 1)

theorem collected_readyFrom (fuel : Nat) : ∀ nonce : U64,
    Collected pool domainId sender nonce.toNat fuel
      (pool.readyFrom domainId sender fuel nonce) := by
  induction fuel with
  | zero => exact fun nonce => ⟨held_zero _, by simp [readyFrom],
    fun h => absurd h (Nat.lt_irrefl 0)⟩
  | succ fuel ih =>
    intro nonce
    unfold readyFrom
    cases hfirst : pool.entries[(domainId, sender, nonce)]? with
    | none =>
      refine ⟨held_zero _, by simp, fun _ h => ?_⟩
      obtain ⟨entry, hentry⟩ := OrdMap.mem_iff_exists.mp (held_succ.mp h).1
      rw [hfirst] at hentry
      cases hentry
    | some first =>
      have hmem : (domainId, sender, nonce) ∈ pool.entries :=
        OrdMap.mem_iff_exists.mpr ⟨first, hfirst⟩
      have hzero : pool.entries[(domainId, sender, BitVec.ofNat 64 (nonce.toNat + 0))]?
          = some first := by
        rw [Nat.add_zero, BitVec.ofNat_toNat, BitVec.setWidth_eq, hfirst]
      dsimp only
      split
      · rename_i hlast
        refine ⟨held_succ.mpr ⟨hmem, held_zero _⟩, ?_, fun _ h => ?_⟩
        · intro i entry hi
          cases i with
          | zero =>
            cases hi
            exact hzero
          | succ i => cases hi
        · have hover := (h 1 (by simp)).1
          rw [hlast, BitVec.toNat_allOnes] at hover
          omega
      · rename_i hlast
        have hrest := ih (nonce + 1)
        rw [toNat_succ hlast] at hrest
        refine ⟨held_succ.mpr ⟨hmem, hrest.held⟩, ?_, fun hfuel h => ?_⟩
        · intro i entry hi
          cases i with
          | zero =>
            cases hi
            exact hzero
          | succ i =>
            have hnext := hrest.entries i entry hi
            rwa [Nat.add_assoc, Nat.add_comm 1] at hnext
        · exact hrest.ended (Nat.lt_of_succ_lt_succ hfuel) (held_succ.mp h).2

theorem Collected.key {nonce fuel i : Nat} {ready : List PoolEntry} {entry : PoolEntry}
    (h : Collected pool domainId sender nonce fuel ready)
    (hkeyed : pool.Keyed) (hi : ready[i]? = some entry) :
    entry.key = (domainId, sender, BitVec.ofNat 64 (nonce + i)) ∧
      entry.transaction.nonce.toNat = nonce + i := by
  obtain ⟨hlength, _⟩ := List.getElem?_eq_some_iff.mp hi
  have hkey := (hkeyed _ _ (h.entries i entry hi)).symm
  refine ⟨hkey, ?_⟩
  have hnonce := congrArg (fun key : PoolKey => key.2.2.toNat) hkey
  simp only [PoolEntry.key, BitVec.toNat_ofNat, Nat.mod_eq_of_lt (h.held i hlength).1] at hnonce
  exact hnonce

theorem mem_readyFrom {entry : PoolEntry} (fuel : Nat) (nonce : U64)
    (h : entry ∈ pool.readyFrom domainId sender fuel nonce) :
    ∃ n : U64, pool.entries[(domainId, sender, n)]? = some entry := by
  obtain ⟨i, hi⟩ := List.mem_iff_getElem?.mp h
  exact ⟨_, (collected_readyFrom fuel nonce).entries i entry hi⟩

theorem Collected.longest {nonce fuel count : Nat} {ready : List PoolEntry}
    (h : Collected pool domainId sender nonce fuel ready) (hfuel : pool.entries.size ≤ fuel)
    (hheld : pool.Held domainId sender nonce count) : count ≤ ready.length := by
  by_contra hlong
  rw [not_le] at hlong
  have hmore := hheld.mono (Nat.succ_le_of_lt hlong)
  exact h.ended (hmore.le_size.trans hfuel) hmore

/-- More fuel changes nothing. -/
theorem readyFrom_eq_ready {fuel : Nat} (hfuel : pool.entries.size ≤ fuel) (nonce : U64) :
    pool.readyFrom domainId sender fuel nonce = pool.ready domainId sender nonce := by
  have hmore : Collected pool domainId sender nonce.toNat fuel
      (pool.readyFrom domainId sender fuel nonce) := collected_readyFrom fuel nonce
  have hready : Collected pool domainId sender nonce.toNat pool.entries.size
      (pool.ready domainId sender nonce) := collected_readyFrom _ nonce
  have hlength := Nat.le_antisymm (hready.longest le_rfl hmore.held)
      (hmore.longest hfuel hready.held)
  refine List.ext_getElem hlength fun i hi hi' => ?_
  exact Option.some.inj ((hmore.entries i _ (List.getElem?_eq_getElem hi)).symm.trans
    (hready.entries i _ (List.getElem?_eq_getElem hi')))

/-! ## Asking -/

theorem contiguousFrom_iff {target : U64} (fuel : Nat) :
    ∀ {nonce : U64}, nonce.toNat ≤ target.toNat →
    (pool.contiguousFrom domainId sender target fuel nonce = true ↔
      target.toNat < nonce.toNat + fuel ∧
        pool.Held domainId sender nonce.toNat (target.toNat - nonce.toNat + 1)) := by
  induction fuel with
  | zero =>
    intro nonce hle
    simp [contiguousFrom, Nat.not_lt.mpr hle]
  | succ fuel ih =>
    intro nonce hle
    rw [contiguousFrom, decide_eq_true_iff, held_succ]
    by_cases hlast : nonce = target
    · subst hlast
      simp [held_zero]
    · have hlt : nonce.toNat < target.toNat :=
        lt_of_le_of_ne hle fun heq => hlast (BitVec.eq_of_toNat_eq heq)
      have hsucc : (nonce + 1).toNat = nonce.toNat + 1 := by
        refine toNat_succ fun hall => ?_
        rw [hall, BitVec.toNat_allOnes] at hlt
        omega
      have hcount : target.toNat - nonce.toNat = target.toNat - (nonce.toNat + 1) + 1 := by omega
      rw [or_iff_right hlast, ih (by omega), hsucc, hcount]
      constructor
      · rintro ⟨hmem, hfuel, hheld⟩
        exact ⟨by omega, hmem, hheld⟩
      · rintro ⟨hfuel, hmem, hheld⟩
        exact ⟨hmem, by omega, hheld⟩

/-- Fuel for the whole pool is enough to see the run. -/
theorem contiguousFrom_iff_held {fuel : Nat} (hfuel : pool.entries.size ≤ fuel) {nonce target : U64}
    (hle : nonce.toNat ≤ target.toNat) :
    pool.contiguousFrom domainId sender target fuel nonce = true ↔
      pool.Held domainId sender nonce.toNat (target.toNat - nonce.toNat + 1) := by
  rw [contiguousFrom_iff fuel hle, and_iff_right_iff_imp]
  intro hheld
  have hsize := hheld.le_size
  omega

end Runs

/-! ## Admission -/

section Admission

variable [Keccak] [Secp256k1] {pool next : Mempool} {domainId : DomainId} {envelope : Bytes}
  {stateNonce : U64} {status : QueueStatus}

theorem status_of_insert (h : pool.insert domainId envelope stateNonce = .ok (next, status))
    (hnew : status ≠ .replaced) : ∃ entry, pool.admitted domainId envelope stateNonce = .ok entry ∧
      next.entries[entry.key]? = some entry ∧ (status = .pending ↔
        next.nonceIsContiguous domainId entry.sender stateNonce entry.transaction.nonce
          = true) := by
  obtain ⟨entry, hadmitted, h⟩ := bind_eq_ok.mp h
  refine ⟨entry, hadmitted, ?_⟩
  split at h
  · obtain ⟨_, h⟩ := check_bind_eq_ok.mp h
    cases h
    exact absurd rfl hnew
  · obtain ⟨_, h⟩ := check_bind_eq_ok.mp h
    obtain ⟨_, h⟩ := check_bind_eq_ok.mp h
    cases h
    refine ⟨by rw [OrdMap.getElem?_insert, if_pos rfl], ?_⟩
    split <;> simp_all

/-- **Readiness.**  The ready entries are the longest run of nonces from the state nonce on,
and a new entry is pending exactly if it is among them.  Both loops end within as many steps
as the pool has entries. -/
theorem mempool_readiness (pool : Mempool) (hpool : pool.Accounted) :
    (∀ (domainId : DomainId) (sender : Address) (nonce : U64),
      pool.Held domainId sender nonce.toNat (pool.ready domainId sender nonce).length ∧
      (∀ count, pool.Held domainId sender nonce.toNat count →
        count ≤ (pool.ready domainId sender nonce).length) ∧
      (∀ (i : Nat) (entry : PoolEntry), (pool.ready domainId sender nonce)[i]? = some entry →
        pool.entries[entry.key]? = some entry ∧ entry.domainId = domainId ∧
          entry.sender = sender ∧ entry.transaction.nonce.toNat = nonce.toNat + i) ∧
      ∀ fuel, pool.entries.size ≤ fuel →
        pool.readyFrom domainId sender fuel nonce = pool.ready domainId sender nonce ∧
        ∀ target : U64, nonce.toNat ≤ target.toNat →
          pool.contiguousFrom domainId sender target fuel nonce
            = pool.nonceIsContiguous domainId sender nonce target) ∧
    ∀ domainId envelope stateNonce next status,
      pool.insert domainId envelope stateNonce = .ok (next, status) → status ≠ .replaced →
      ∃ entry, pool.admitted domainId envelope stateNonce = .ok entry ∧
        (status = .pending ↔ entry ∈ next.ready domainId entry.sender stateNonce) := by
  constructor
  · intro domainId sender nonce
    have hready : Collected pool domainId sender nonce.toNat pool.entries.size
        (pool.ready domainId sender nonce) := collected_readyFrom _ nonce
    refine ⟨hready.held, fun _ => hready.longest le_rfl, ?_, ?_⟩
    · intro i entry hi
      obtain ⟨hkey, hnonce⟩ := hready.key hpool.keyed hi
      have hentry := hready.entries i entry hi
      rw [← hkey] at hentry
      exact ⟨hentry, congrArg Prod.fst hkey, congrArg (fun key : PoolKey => key.2.1) hkey, hnonce⟩
    · intro fuel hfuel
      refine ⟨readyFrom_eq_ready hfuel nonce, fun target htarget => Bool.eq_iff_iff.mpr ?_⟩
      rw [nonceIsContiguous, contiguousFrom_iff_held hfuel htarget,
        contiguousFrom_iff_held le_rfl htarget]
  · intro domainId envelope stateNonce next status h hnew
    obtain ⟨entry, hadmitted, hentry, hstatus⟩ := status_of_insert h hnew
    have hle := (admitted_eq_ok hadmitted).nonce
    obtain rfl := (admitted_eq_ok hadmitted).domainId
    have hready : Collected next entry.domainId entry.sender stateNonce.toNat next.entries.size
        (next.ready entry.domainId entry.sender stateNonce) := collected_readyFrom _ stateNonce
    refine ⟨entry, hadmitted, hstatus.trans ?_⟩
    rw [nonceIsContiguous, contiguousFrom_iff_held le_rfl hle]
    have hindex : stateNonce.toNat + (entry.transaction.nonce.toNat - stateNonce.toNat)
        = entry.transaction.nonce.toNat := by omega
    constructor
    · intro hheld
      have hlength := hready.longest le_rfl hheld
      have hfound := hready.entries _ _ (List.getElem?_eq_getElem hlength)
      rw [hindex, BitVec.ofNat_toNat] at hfound
      have hmem := List.getElem_mem hlength
      rwa [Option.some.inj (hfound.symm.trans hentry)] at hmem
    · intro hmem
      obtain ⟨i, hi⟩ := List.mem_iff_getElem?.mp hmem
      obtain ⟨hlength, _⟩ := List.getElem?_eq_some_iff.mp hi
      have hnonce := (hready.key (hpool.inserted h).keyed hi).2
      exact hready.held.mono (by omega)

end Admission

end Mempool

section Sample

attribute [local instance] rollingKeccak namingCurve

/-- A pool that has set one transaction aside and taken another in. -/
theorem mempool_readiness_displacing :
    (displacing ⟨2, 2, 1000, 10⟩).pool.Accounted ∧ ∀ (sender : Address) (nonce : U64),
      (displacing ⟨2, 2, 1000, 10⟩).pool.Held 1 sender nonce.toNat
        ((displacing ⟨2, 2, 1000, 10⟩).pool.ready 1 sender nonce).length := by
  have hrun : PoolRun (fun op pooled => PoolOp.Allowed op pooled) ⟨2, 2, 1000, 10⟩
      (displacing ⟨2, 2, 1000, 10⟩) := displacing_run _ fun op pooled hrestore hcommit => by
    cases op with
    | restoreReserved entries => exact absurd rfl (hrestore entries)
    | commit entries => exact absurd rfl (hcommit entries)
    | _ => trivial
  have hpool := (hrun.sound fun _ _ h => h).accounted
  exact ⟨hpool, fun sender nonce => ((Mempool.mempool_readiness _ hpool).1 1 sender nonce).1⟩

end Sample

end Arbor
