import Arbor.Consensus.Moves
import Arbor.Consensus.Picking

/-!
# The first domain of a rotation

The domain whose turn is first finds the block empty, so of its ready entries the first one
is taken if it fits at all.  That is the entry of the lowest sender with one at its finalized
nonce (`Leads`); if it does not fit, the domain is left, whatever the other senders offer
(`first_domain_selected_iff`).
-/

namespace Arbor

open Result Device Consensus List Mempool

namespace SingleValidatorEngine

section Rotation

variable [Keccak] {pool : Mempool} {domain : DomainId × FinalizedDomain}

/-! ## The first ready entry -/

/-- A sender of the domain has an entry at its finalized nonce. -/
def Heads (pool : Mempool) (domain : DomainId × FinalizedDomain) (sender : Address)
    (entry : PoolEntry) : Prop :=
  sender ∈ pool.senders domain.1 ∧
    pool.entries[(domain.1, sender, domain.2.state.readNonce sender)]? = some entry

/-- The entry of the lowest such sender. -/
def Leads (pool : Mempool) (domain : DomainId × FinalizedDomain) (entry : PoolEntry) : Prop :=
  ∃ sender, Heads pool domain sender entry ∧ ∀ other found, Heads pool domain other found →
    sender ≤ other

theorem Leads.unique {first second : PoolEntry} (h : Leads pool domain first)
    (h' : Leads pool domain second) : first = second := by
  obtain ⟨sender, hheads, hleast⟩ := h
  obtain ⟨other, hheads', hleast'⟩ := h'
  obtain rfl : sender = other := BitVec.le_antisymm (hleast _ _ hheads') (hleast' _ _ hheads)
  exact Option.some.inj (hheads.2.symm.trans hheads'.2)

omit [Keccak] in
theorem collected_ready (pool : Mempool) (domainId : DomainId) (sender : Address) (nonce : U64) :
    Mempool.Collected pool domainId sender nonce.toNat pool.entries.size
      (pool.ready domainId sender nonce) :=
  Mempool.collected_readyFrom _ nonce

variable {entry : PoolEntry}

theorem Heads.ready {sender : Address} (h : Heads pool domain sender entry) :
    (pool.ready domain.1 sender (domain.2.state.readNonce sender))[0]? = some entry := by
  have hready := collected_ready pool domain.1 sender (domain.2.state.readNonce sender)
  have hheld : pool.Held domain.1 sender (domain.2.state.readNonce sender).toNat 1 :=
    Mempool.held_succ.mpr ⟨OrdMap.mem_iff_exists.mpr ⟨entry, h.2⟩, Mempool.held_zero _⟩
  have hlength := hready.longest le_rfl hheld
  have hfound := hready.entries 0 _ (getElem?_eq_getElem hlength)
  rw [Nat.add_zero, BitVec.ofNat_toNat, BitVec.setWidth_eq, h.2] at hfound
  rw [getElem?_eq_getElem hlength, hfound]

theorem Heads.mem_sortedReady {sender : Address}
    (h : Heads pool domain sender entry) : entry ∈ sortedReady pool domain := by
  refine (sortedReady_perm pool domain).mem_iff.mpr (mem_flatMap.mpr ⟨sender, h.1, ?_⟩)
  exact mem_of_getElem? h.ready

omit [Keccak] in
theorem le_of_compare_pair {a b : Address} {m n : U64} (h : (compare (a, m) (b, n)).isLE = true) :
    a.toNat ≤ b.toNat := by
  refine le_of_isLE ?_
  change ((compare a b).then (compare m n)).isLE = true at h
  cases hcompare : compare a b with
  | lt => rfl
  | eq => rfl
  | gt =>
    rw [hcompare] at h
    cases h

variable (hkeyed : pool.Keyed)

include hkeyed in
/-- The first of the sorted entries leads. -/
theorem leads_of_head {rest : List PoolEntry}
    (h : sortedReady pool domain = entry :: rest) : Leads pool domain entry := by
  have hsorted := sorted_sortedReady pool domain
  rw [h, List.pairwise_cons] at hsorted
  have hfirst : ∀ other ∈ sortedReady pool domain,
      (compare (entry.sender, entry.transaction.nonce)
        (other.sender, other.transaction.nonce)).isLE = true := by
    intro other hother
    rw [h] at hother
    rcases List.mem_cons.mp hother with rfl | hrest
    · have hself : compare (other.sender, other.transaction.nonce)
          (other.sender, other.transaction.nonce) = .eq := Std.ReflCmp.compare_self
      rw [hself]
      rfl
    · exact hsorted.1 other hrest
  have hmem : entry ∈ readyEntries pool domain :=
    (sortedReady_perm pool domain).subset (h ▸ List.mem_cons_self)
  obtain ⟨sender, hsender, hready⟩ := List.mem_flatMap.mp hmem
  obtain ⟨i, hi⟩ := List.mem_iff_getElem?.mp hready
  have hcollected := collected_ready pool domain.1 sender (domain.2.state.readNonce sender)
  obtain ⟨hkey, hnonce⟩ := hcollected.key hkeyed hi
  have hsame : entry.sender = sender := congrArg (fun key : PoolKey => key.2.1) hkey
  have hzero : i = 0 := by
    -- the sender's first entry is not before this one, so this is it
    obtain ⟨hlength, _⟩ := List.getElem?_eq_some_iff.mp hi
    obtain ⟨first, hfound⟩ : ∃ first, (pool.ready domain.1 sender
        (domain.2.state.readNonce sender))[0]? = some first :=
      ⟨_, List.getElem?_eq_getElem (Nat.zero_lt_of_lt hlength)⟩
    obtain ⟨hkey', hnonce'⟩ := hcollected.key hkeyed hfound
    have hle := hfirst first ((sortedReady_perm pool domain).mem_iff.mpr
      (List.mem_flatMap.mpr ⟨sender, hsender, List.mem_of_getElem? hfound⟩))
    have hsame' : first.sender = sender := congrArg (fun key : PoolKey => key.2.1) hkey'
    rw [hsame, hsame', compare_pair] at hle
    have hnonces := le_of_isLE hle
    omega
  have hentry := hcollected.entries i entry hi
  rw [hzero, Nat.add_zero, BitVec.ofNat_toNat] at hentry
  refine ⟨sender, ⟨hsender, hentry⟩, fun other found hheads => ?_⟩
  have hle := le_of_compare_pair (hfirst found hheads.mem_sortedReady)
  have hother : found.sender = other :=
    (congrArg (fun key : PoolKey => key.2.1) (hkeyed _ found hheads.2)).symm
  rw [hsame, hother] at hle
  exact hle

/-! ## The first turn -/

/-- An entry fits its domain and a block. -/
def Fits (domain : DomainId × FinalizedDomain) (entry : PoolEntry) : Prop :=
  entry.transaction.gasLimit.toNat ≤ domain.2.config.gasLimit.toNat ∧
    entry.transaction.gasLimit.toNat ≤ MAX_CONSENSUS_BLOCK_GAS

omit [Keccak] in
theorem selected_selectEntries (domainLimit quota : Nat) (entries : List PoolEntry) :
    ∀ (domainGas : Nat) (selection : Selection),
      selection.selected <+:
        (selectEntries domainLimit quota entries domainGas selection).selected := by
  induction entries with
  | nil => exact fun _ _ => prefix_rfl
  | cons entry rest ih =>
    intro domainGas selection
    unfold selectEntries
    dsimp only
    split
    · exact prefix_rfl
    · exact (prefix_append _ [entry]).trans (ih _ ⟨selection.selected ++ [entry], _⟩)

variable (fairShare : Nat)

omit [Keccak] in
theorem selected_selectDomains (domains : List (Nat × List PoolEntry)) : ∀ selection : Selection,
      selection.selected <+: (domains.foldl (selectDomain fairShare) selection).selected := by
  induction domains with
  | nil => exact fun _ => prefix_rfl
  | cons domain rest ih =>
    exact fun selection => (selected_selectEntries _ _ _ 0 selection).trans (ih _)

omit [Keccak] in
theorem selectDomain_first (domain : DomainId × FinalizedDomain) (entry : PoolEntry)
    (rest : List PoolEntry) : (Fits domain entry → entry ∈ (selectDomain fairShare ⟨[], 0⟩
        (domain.2.config.gasLimit.toNat, entry :: rest)).selected) ∧
      (¬Fits domain entry → selectDomain fairShare ⟨[], 0⟩
        (domain.2.config.gasLimit.toNat, entry :: rest) = ⟨[], 0⟩) := by
  have htake : (entry :: rest).take MAX_FAIR_DOMAIN_TRANSACTIONS
      = entry :: rest.take (MAX_FAIR_DOMAIN_TRANSACTIONS - 1) := rfl
  rw [selectDomain, htake, selectEntries]
  constructor
  · rintro ⟨hdomain, hblock⟩
    rw [if_neg (by
      simp only [Nat.zero_add, length_nil, MAX_DEV_PROPOSAL_TRANSACTIONS]
      omega)]
    exact (selected_selectEntries _ _ _ _ _).subset (by simp)
  · intro hfits
    rw [Fits, not_and_or, not_le] at hfits
    rw [if_pos (by omega)]

include hkeyed in
/-- **The first turn.** -/
theorem selectDomains_first {rest : List (DomainId × FinalizedDomain)}
    (hnodup : ((domain :: rest).map (·.1)).Nodup) (hready : sortedReady pool domain ≠ []) :
    (∃ entry ∈ (((domain :: rest).map fun domain =>
        (domain.2.config.gasLimit.toNat, sortedReady pool domain)).foldl (selectDomain fairShare)
          ⟨[], 0⟩).selected, entry.domainId = domain.1) ↔
      ∀ entry, Leads pool domain entry → Fits domain entry := by
  obtain ⟨first, more, hsorted⟩ := exists_cons_of_ne_nil hready
  have hleads := leads_of_head hkeyed hsorted
  have hturn := selectDomain_first fairShare domain first more
  rw [map_cons, nodup_cons] at hnodup
  rw [map_cons, foldl_cons, hsorted]
  constructor
  · rintro ⟨entry, hentry, hid⟩ leader hleader
    rw [← hleads.unique hleader]
    by_contra hfits
    rw [hturn.2 hfits] at hentry
    have hstart : Selection.Within ⟨[], 0⟩ := ⟨rfl, Nat.zero_le _, Nat.zero_le _⟩
    obtain ⟨taken, hpicked, hselected, _⟩ := selectDomains_spec hkeyed fairShare rest hnodup.2
      ⟨[], 0⟩ hstart
    rw [hselected] at hentry
    obtain ⟨other, hother, hsame⟩ := hpicked.domain entry hentry
    exact hnodup.1 (mem_map.mpr ⟨other, hother, hsame.symm.trans hid⟩)
  · intro hfits
    refine ⟨first, (selected_selectDomains fairShare _ _).subset (hturn.1 (hfits first hleads)), ?_⟩
    refine domainId_of_ready hkeyed ((sortedReady_perm pool domain).subset ?_)
    rw [hsorted]
    exact mem_cons_self

/-- The selection takes a transaction of the domain. -/
def Selects (engine : SingleValidatorEngine) (domainId : DomainId) : Prop :=
  ∃ selected, engine.selectTransactions = .ok selected ∧
    ∃ entry ∈ selected, entry.domainId = domainId

/-- All accounts that a selection asks for can be read. -/
def Readable (engine : SingleValidatorEngine) : Prop :=
  ∀ domain ∈ engine.finalized.domains.toList, SendersReadable engine.mempool domain

/-- **The domain whose turn is first** is selected from exactly if its first entry fits. -/
theorem first_domain_selected_iff {engine : SingleValidatorEngine}
    (hkeyed : engine.mempool.Keyed) (hfirst : (rotation engine).head? = some domain) :
    Selects engine domain.1 ↔ Readable engine ∧
      ∀ entry, Leads engine.mempool domain entry → Fits domain entry := by
  obtain ⟨rest, hrotation⟩ := head?_eq_some_iff.mp hfirst
  have hperm : (rotation engine).Perm (readyDomains engine) := rotate_perm _ _
  have hnodup := (hperm.map (·.1)).nodup_iff.mpr (nodup_readyDomains engine)
  rw [hrotation] at hperm hnodup
  have hready : sortedReady engine.mempool domain ≠ [] := by
    have hmem := (mem_filter.mp (hperm.subset mem_cons_self)).2
    rw [ne_eq, ← length_eq_zero_iff, (sortedReady_perm engine.mempool domain).length_eq,
      length_eq_zero_iff]
    exact of_decide_eq_true hmem
  have hturn := selectDomains_first hkeyed
    (MAX_CONSENSUS_BLOCK_GAS / (readyDomains engine).length) hnodup hready
  rw [← hrotation] at hturn
  rw [Selects, ← hturn]
  simp only [selectTransactions_eq_ok_iff, and_assoc, exists_and_left, exists_eq_left,
    mem_mergeSort]
  rfl

/-- A sender of the domain offers an entry that fits the domain. -/
def Offered (engine : SingleValidatorEngine) (domain : DomainId × FinalizedDomain) : Prop :=
  ∃ sender entry, Heads engine.mempool domain sender entry ∧
    entry.transaction.gasLimit.toNat ≤ domain.2.config.gasLimit.toNat

/-- **When one sender cannot block a domain.**  In the first turn an offer that fits leads to
a selection exactly if the entry of the lowest sender fits, and accounts can be read. -/
theorem offered_domain_selected_iff (engine : SingleValidatorEngine)
    (hkeyed : engine.mempool.Keyed) (domain : DomainId × FinalizedDomain)
    (hfirst : (rotation engine).head? = some domain) :
    (Offered engine domain → Selects engine domain.1) ↔
      (Offered engine domain → Readable engine ∧
        ∀ entry, Leads engine.mempool domain entry → Fits domain entry) :=
  imp_congr_right fun _ => first_domain_selected_iff hkeyed hfirst

end Rotation

/-! ## Pools of a run -/

section Runs

variable [Keccak] [Secp256k1]

variable {engine : SingleValidatorEngine}

theorem registerDomains_admitted {domains : List (DomainId × U64)} {pool next : Mempool}
    (hpool : pool.Admitted) (h : registerDomains pool domains = .ok next) : next.Admitted :=
  registerDomains_invariant (fun hpool h => hpool.registered h) hpool h

/-- An engine whose pool, and what it has set aside, has been admitted. -/
structure Holding (engine : SingleValidatorEngine) : Prop where
  pool : engine.mempool.Admitted
  reserved : ∀ pending, engine.pending = some pending → ∀ entry ∈ pending.reserved,
    Mempool.Checked engine.mempool.chainIds entry

theorem checked_reserved {pool : Mempool} (hpool : pool.Admitted) {hashes : BTreeSet B256}
    {entry : PoolEntry} (h : entry ∈ (pool.reserveHashes hashes).2) :
    Checked (pool.reserveHashes hashes).1.chainIds entry := by
  obtain ⟨key, hheld⟩ := entry_of_mem_reserved h
  rw [reserveHashes_chainIds]
  exact hpool.checked key entry hheld

variable [Revm] [OrderedTrie]

theorem Opened.holding (h : Opened engine) : Holding engine := by
  obtain ⟨config, hregistered⟩ := h.registered
  refine ⟨registerDomains_admitted (.new config) hregistered, fun pending hpending => ?_⟩
  rw [h.pending] at hpending
  cases hpending

theorem Holding.called {engine : SingleValidatorEngine} (h : Holding engine) (call : Call) :
    Holding (left (call.run engine)) := by
  have hmoved := call.moved engine
  generalize call.run engine = result at hmoved
  cases hmoved with
  | failed hsame =>
    obtain ⟨faults, rfl⟩ := hsame
    exact ⟨h.pool, h.reserved⟩
  | submitted _ _ _ _ hinsert =>
    refine ⟨h.pool.inserted hinsert, fun pending hpending entry hentry => ?_⟩
    have hchecked := h.reserved pending hpending entry hentry
    obtain ⟨_, _, ⟨_, rfl⟩ | ⟨_, _, _, rfl⟩⟩ := insert_eq_ok hinsert <;> exact hchecked
  | kept hashes =>
    refine ⟨h.pool.reserved hashes, fun pending hpending entry hentry => ?_⟩
    change Checked (engine.mempool.reserveHashes hashes).1.chainIds entry
    rw [reserveHashes_chainIds]
    exact h.reserved pending hpending entry hentry
  | returned hashes =>
    refine ⟨(h.pool.reserved hashes).restored fun entry hentry => checked_reserved h.pool hentry,
      fun pending hpending entry hentry => ?_⟩
    change Checked (restoreReserved (engine.mempool.reserveHashes hashes).1
      (engine.mempool.reserveHashes hashes).2).chainIds entry
    rw [restoreReserved_chainIds, reserveHashes_chainIds]
    exact h.reserved pending hpending entry hentry
  | built hashes _ _ _ _ _ =>
    refine ⟨h.pool.reserved hashes, fun pending hpending entry hentry => ?_⟩
    cases hpending
    exact checked_reserved h.pool hentry
  | abandoned hpending =>
    exact ⟨h.pool.restored fun entry hentry => h.reserved _ hpending entry hentry,
      fun pending hnone => by cases hnone⟩
  | committed _ hregistered =>
    exact ⟨(registerDomains_admitted h.pool hregistered).reserved _,
      fun pending hnone => by cases hnone⟩
  | restarted hidle _ hregistered =>
    refine ⟨registerDomains_admitted h.pool hregistered, fun pending hnone => ?_⟩
    rw [hidle] at hnone
    cases hnone

theorem EngineRun.holding (h : EngineRun engine) : Holding engine := by
  induction h with
  | opened h => exact (opened_of_open h).holding
  | called call _ ih => exact ih.called call

/-- **The pool of every run has been admitted.** -/
theorem EngineRun.admitted (h : EngineRun engine) : engine.mempool.Admitted :=
  h.holding.pool

end Runs

/-! ## Two senders -/

section Sample

attribute [local instance] rollingKeccak namingCurve

def queuePayment (signer : U256) (gasLimit : U64) : Bytes :=
  (Ethereum.encodeEip1559 ⟨1, 0, 0, 2000000000, gasLimit, some 0xabc, 1, [], [], false, signer, 1⟩
    ).toOption.getD []

def queuePool (gasLimit : U64) : Pooled :=
  (PoolOp.insert 1 (queuePayment 2 21000) 0).run ((PoolOp.insert 1 (queuePayment 1 gasLimit) 0).run
    ((PoolOp.registerDomain 1 1).run ⟨Mempool.new ⟨10, 10, 1000, 10⟩, []⟩))

def quietDomain : FinalizedDomain :=
  ⟨⟨1, 1, 30000000, 1000000000⟩, ⟨1, 0, 0, 0, 0, 0, 0, 0, 0, 30000000, 0, 1000000000⟩, 0,
    ⟨⟨0, ∅, ∅⟩, ∅, ∅, ∅⟩⟩

def queue (pool : Mempool) : SingleValidatorEngine where
  database := ⟨fun _ => ∅, never⟩
  retention := .archive
  genesis := sampleGenesis ∅
  finalized := ⟨5, 0, 6, 1700000000, 0, 0, 1, 0xfef,
    (∅ : BTreeMap DomainId FinalizedDomain).insert 1 quietDomain, ∅⟩
  mempool := pool
  pending := none
  events := []
  schedulerCursor := 0
  historyRetention := .all

def queued (pool : Mempool) (gasLimit : U64) : Bool :=
  pool.senders 1 = [1, 2] &&
    (pool.entries[((1, 1, 0) : PoolKey)]?).map (·.transaction.gasLimit) = some gasLimit &&
    (pool.entries[((1, 2, 0) : PoolKey)]?).map (·.transaction.gasLimit) = some 21000

theorem queued_evaluates :
    (queued (queuePool 30000001).pool 30000001 && queued (queuePool 21000).pool 21000) = true := by
  decide +kernel

theorem keyed_queuePool (gasLimit : U64) : (queuePool gasLimit).pool.Keyed := by
  have hrun : PoolRun PoolOp.Allowed ⟨10, 10, 1000, 10⟩ (queuePool gasLimit) :=
    .step (.step (.step .start _ trivial) _ trivial) _ trivial
  exact (hrun.sound fun _ _ h => h).accounted.keyed

variable {pool : Mempool} {gasLimit : U64}

theorem heads_queue (h : queued pool gasLimit = true) :
    ∃ first second, Leads pool (1, quietDomain) first ∧ first.transaction.gasLimit = gasLimit ∧
      Heads pool (1, quietDomain) 2 second ∧ second.transaction.gasLimit = 21000 := by
  simp only [queued, Bool.and_eq_true, decide_eq_true_iff] at h
  obtain ⟨⟨hsenders, hfirst⟩, hsecond⟩ := h
  obtain ⟨first, hfirst, hgas⟩ := Option.map_eq_some_iff.mp hfirst
  obtain ⟨second, hsecond, hgas'⟩ := Option.map_eq_some_iff.mp hsecond
  have hsender : ∀ sender : Address, sender ∈ pool.senders 1 ↔ sender = 1 ∨ sender = 2 := by
    intro sender
    rw [hsenders]
    simp
  refine ⟨first, second, ⟨1, ⟨(hsender 1).mpr (.inl rfl), hfirst⟩, fun other _ hother => ?_⟩, hgas,
    ⟨(hsender 2).mpr (.inr rfl), hsecond⟩, hgas'⟩
  rcases (hsender other).mp hother.1 with rfl | rfl <;> decide

theorem domains_queue (pool : Mempool) :
    (queue pool).finalized.domains.toList = [(1, quietDomain)] :=
  OrdMap.toList_insert_empty _ _

theorem rotation_queue (h : queued pool gasLimit = true) :
    (rotation (queue pool)).head? = some (1, quietDomain) := by
  obtain ⟨_, second, _, _, hheads, _⟩ := heads_queue h
  have hready : readyEntries pool (1, quietDomain) ≠ [] := fun hnone => by
    have hmem := (sortedReady_perm _ _).subset hheads.mem_sortedReady
    rw [hnone] at hmem
    cases hmem
  have hdomains : readyDomains (queue pool) = [(1, quietDomain)] := by
    exact filter_cons_of_pos (decide_eq_true hready)
  rw [rotation, hdomains]
  rfl

/-- A payment that no block of its domain has room for keeps the other one out. -/
theorem blocked_domain : ∃ engine domain, (rotation engine).head? = some domain ∧
    Offered engine domain ∧ ¬Selects engine domain.1 := by
  have hqueued := (Bool.and_eq_true_iff.mp queued_evaluates).1
  have hkeyed := keyed_queuePool 30000001
  generalize (queuePool 30000001).pool = pool at hqueued hkeyed
  obtain ⟨first, second, hleads, hgas, hheads, hgas'⟩ := heads_queue hqueued
  refine ⟨queue pool, (1, quietDomain), rotation_queue hqueued, ⟨2, second, hheads, ?_⟩, ?_⟩
  · rw [hgas']
    decide
  · have hkeyed : (queue pool).mempool.Keyed := hkeyed
    rw [first_domain_selected_iff hkeyed (rotation_queue hqueued)]
    rintro ⟨_, hfits⟩
    have hlimit := (hfits first hleads).1
    rw [hgas] at hlimit
    exact absurd hlimit (by decide)

/-- Where the first payment fits, there is a selection. -/
theorem offered_domain_selected_fitting : Selects (queue (queuePool 21000).pool) 1 := by
  have hqueued := (Bool.and_eq_true_iff.mp queued_evaluates).2
  have hkeyed := keyed_queuePool 21000
  generalize (queuePool 21000).pool = pool at hqueued hkeyed ⊢
  obtain ⟨first, second, hleads, hgas, hheads, hgas'⟩ := heads_queue hqueued
  refine (offered_domain_selected_iff (queue pool) hkeyed (1, quietDomain)
    (rotation_queue hqueued)).mpr (fun _ => ⟨?_, fun entry hentry => ?_⟩) ⟨2, second, hheads, ?_⟩
  · intro domain hdomain
    rw [domains_queue, mem_singleton] at hdomain
    rw [hdomain]
    exact fun sender _ => ⟨none, rfl⟩
  · rw [Fits, ← hleads.unique hentry, hgas]
    decide
  · rw [hgas']
    decide

end Sample

end SingleValidatorEngine

end Arbor
