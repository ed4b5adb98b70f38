import Arbor.Consensus.Engine
import Arbor.Evm.JournalFacts
import Arbor.Mempool.Ready

/-!
# What the proposer picks

The proposer takes ready transactions domain by domain, within the gas of the domain and of
the block and up to a number of transactions.  What it takes from a domain is the beginning
of the domain's ready list (`Picked`), so the nonces of every sender go on from the state
without a gap.
-/

namespace Arbor

open Result Device Consensus List Mempool

namespace SingleValidatorEngine

/-! ## Ready entries of a domain -/

section Ready

variable [Keccak]

/-- The ready entries of a domain, sender by sender. -/
def readyEntries (pool : Mempool) (domain : DomainId × FinalizedDomain) : List PoolEntry :=
  (pool.senders domain.1).flatMap fun sender =>
    pool.ready domain.1 sender (domain.2.state.readNonce sender)

/-- They are sorted by sender and nonce before the selection. -/
def sortedReady (pool : Mempool) (domain : DomainId × FinalizedDomain) : List PoolEntry :=
  (readyEntries pool domain).mergeSort fun a b =>
    (compare (a.sender, a.transaction.nonce) (b.sender, b.transaction.nonce)).isLE

variable {pool : Mempool} {domain : DomainId × FinalizedDomain}

theorem readySender_eq_ok {sender : Address} {ready : List PoolEntry}
    (h : readySender pool domain.1 domain.2 sender = .ok ready) :
    ready = pool.ready domain.1 sender (domain.2.state.readNonce sender) := by
  obtain ⟨account, haccount, h⟩ := bind_eq_ok.mp h
  cases h
  rw [ExecutionState.readNonce, ExecutionState.readAccount, mapError_eq_ok.mp haccount]
  rfl

/-- The accounts of a domain's senders can be read. -/
def SendersReadable (pool : Mempool) (domain : DomainId × FinalizedDomain) : Prop :=
  ∀ sender ∈ pool.senders domain.1, ∃ account, domain.2.state.account sender = .ok account

variable {ready : Nat × List PoolEntry}

theorem readyDomain_eq_ok_iff : readyDomain pool domain = .ok ready ↔
      SendersReadable pool domain ∧
        ready = (domain.2.config.gasLimit.toNat, sortedReady pool domain) := by
  have hsender : ∀ sender, readySender pool domain.1 domain.2 sender
        = .ok (pool.ready domain.1 sender (domain.2.state.readNonce sender)) ↔
      ∃ account, domain.2.state.account sender = .ok account := by
    intro sender
    constructor
    · intro h
      obtain ⟨account, haccount, _⟩ := bind_eq_ok.mp h
      exact ⟨account, mapError_eq_ok.mp haccount⟩
    · rintro ⟨account, haccount⟩
      have hready : readySender pool domain.1 domain.2 sender = .ok _ :=
        bind_eq_ok.mpr ⟨account, mapError_eq_ok.mpr haccount, rfl⟩
      rw [hready, readySender_eq_ok hready]
  rw [readyDomain, bind_eq_ok]
  simp only [mapAll_eq_ok_iff fun _ _ => readySender_eq_ok, hsender]
  constructor
  · rintro ⟨_, ⟨hreadable, rfl⟩, h⟩
    cases h
    exact ⟨hreadable, rfl⟩
  · rintro ⟨hreadable, rfl⟩
    exact ⟨_, ⟨hreadable, rfl⟩, rfl⟩

theorem readyDomain_eq_ok (h : readyDomain pool domain = .ok ready) :
    ready = (domain.2.config.gasLimit.toNat, sortedReady pool domain) :=
  (readyDomain_eq_ok_iff.mp h).2

theorem sortedReady_perm (pool : Mempool) (domain : DomainId × FinalizedDomain) :
    (sortedReady pool domain).Perm (readyEntries pool domain) :=
  mergeSort_perm _ _

theorem sorted_sortedReady (pool : Mempool) (domain : DomainId × FinalizedDomain) :
    (sortedReady pool domain).Pairwise fun a b =>
      (compare (a.sender, a.transaction.nonce) (b.sender, b.transaction.nonce)).isLE = true := by
  refine pairwise_mergeSort (fun _ _ _ => Std.TransCmp.isLE_trans) (fun a b => ?_) _
  have hswap : compare (b.sender, b.transaction.nonce) (a.sender, a.transaction.nonce)
      = (compare (a.sender, a.transaction.nonce) (b.sender, b.transaction.nonce)).swap :=
    Std.OrientedCmp.eq_swap
  rw [hswap]
  cases compare (a.sender, a.transaction.nonce) (b.sender, b.transaction.nonce) <;> rfl

theorem mem_readyEntries {entry : PoolEntry} (h : entry ∈ readyEntries pool domain) :
    ∃ (sender : Address) (nonce : U64), pool.entries[(domain.1, sender, nonce)]? = some entry := by
  obtain ⟨sender, _, hready⟩ := mem_flatMap.mp h
  obtain ⟨nonce, hentry⟩ := mem_readyFrom _ _ hready
  exact ⟨sender, nonce, hentry⟩

variable (hkeyed : pool.Keyed)

include hkeyed in
theorem domainId_of_ready {entry : PoolEntry} (h : entry ∈ readyEntries pool domain) :
    entry.domainId = domain.1 := by
  obtain ⟨sender, nonce, hentry⟩ := mem_readyEntries h
  exact (congrArg Prod.fst (hkeyed _ entry hentry)).symm

end Ready

/-! ## What is picked -/

def gasOf (entries : List PoolEntry) : Nat :=
  (entries.map fun entry => entry.transaction.gasLimit.toNat).sum

theorem gasOf_append (l l' : List PoolEntry) : gasOf (l ++ l') = gasOf l + gasOf l' := by
  rw [gasOf, map_append, sum_append, gasOf, gasOf]

/-- A selection within the limits that it counts. -/
structure Selection.Within (selection : Selection) : Prop where
  gas : gasOf selection.selected = selection.aggregateGas
  aggregate : selection.aggregateGas ≤ MAX_CONSENSUS_BLOCK_GAS
  count : selection.selected.length ≤ MAX_DEV_PROPOSAL_TRANSACTIONS

theorem Selection.Within.add {selection : Selection} (h : selection.Within) {entry : PoolEntry}
    (hgas : selection.aggregateGas + entry.transaction.gasLimit.toNat ≤ MAX_CONSENSUS_BLOCK_GAS)
    (hcount : selection.selected.length < MAX_DEV_PROPOSAL_TRANSACTIONS) :
    Selection.Within ⟨selection.selected ++ [entry],
      selection.aggregateGas + entry.transaction.gasLimit.toNat⟩ where
  gas := by
    rw [gasOf_append, h.gas]
    simp [gasOf]
  aggregate := hgas
  count := by
    rw [length_append]
    exact hcount

theorem selectEntries_spec (domainLimit quota : Nat) (entries : List PoolEntry) :
    ∀ (domainGas : Nat) (selection : Selection), domainGas ≤ domainLimit → selection.Within →
      ∃ taken, taken <+: entries ∧ domainGas + gasOf taken ≤ domainLimit ∧
        (selectEntries domainLimit quota entries domainGas selection).selected
          = selection.selected ++ taken ∧
        (selectEntries domainLimit quota entries domainGas selection).Within := by
  induction entries with
  | nil => exact fun domainGas selection hlimit h =>
    ⟨[], prefix_rfl, hlimit, (append_nil _).symm, h⟩
  | cons entry rest ih =>
    intro domainGas selection hlimit h
    unfold selectEntries
    simp only
    split
    · exact ⟨[], nil_prefix, hlimit, (append_nil _).symm, h⟩
    · rename_i hfits
      simp only [not_or, not_le, not_lt] at hfits
      obtain ⟨taken, hbegins, hgas, hselected, hwithin⟩ :=
        ih (domainGas + entry.transaction.gasLimit.toNat) _ hfits.2.2.1
          (h.add hfits.2.2.2.1 hfits.2.2.2.2.2)
      refine ⟨entry :: taken, cons_prefix_cons.mpr ⟨rfl, hbegins⟩, ?_, ?_, hwithin⟩
      · rw [Nat.add_assoc] at hgas
        exact hgas
      · rw [hselected, append_assoc, singleton_append]

section Picking

variable [Keccak]

/-- Entries taken from the ready lists of domains. -/
structure Picked (pool : Mempool) (domains : List (DomainId × FinalizedDomain))
    (taken : List PoolEntry) : Prop where
  ready : ∀ domain ∈ domains,
    (taken.filter fun entry => entry.domainId = domain.1) <+: sortedReady pool domain
  gas : ∀ domain ∈ domains,
    gasOf (taken.filter fun entry => entry.domainId = domain.1) ≤ domain.2.config.gasLimit.toNat
  domain : ∀ entry ∈ taken, ∃ domain ∈ domains, entry.domainId = domain.1

variable {pool : Mempool}

/-- What a domain adds is the beginning of its ready list. -/
theorem Picked.cons {domain : DomainId × FinalizedDomain}
    {domains : List (DomainId × FinalizedDomain)}
    {first rest : List PoolEntry} (hnew : domain.1 ∉ domains.map (·.1))
    (hdomain : ∀ entry ∈ first, entry.domainId = domain.1)
    (hbegins : first <+: sortedReady pool domain)
    (hgas : gasOf first ≤ domain.2.config.gasLimit.toNat) (hrest : Picked pool domains rest) :
    Picked pool (domain :: domains) (first ++ rest) := by
  have hown : ((first ++ rest).filter fun entry => entry.domainId = domain.1) = first := by
    have hkept : (first.filter fun entry => entry.domainId = domain.1) = first :=
      filter_eq_self.mpr fun entry hentry => decide_eq_true (hdomain entry hentry)
    have hnone : (rest.filter fun entry => entry.domainId = domain.1) = [] := by
      refine filter_eq_nil_iff.mpr fun entry hentry heq => ?_
      obtain ⟨other, hother, hid⟩ := hrest.domain entry hentry
      exact hnew (mem_map.mpr ⟨other, hother, hid.symm.trans (of_decide_eq_true heq)⟩)
    rw [filter_append, hkept, hnone, append_nil]
  have hother : ∀ other ∈ domains, ((first ++ rest).filter fun entry => entry.domainId = other.1)
      = rest.filter fun entry => entry.domainId = other.1 := by
    intro other hmem
    have hnone : (first.filter fun entry => entry.domainId = other.1) = [] := by
      refine filter_eq_nil_iff.mpr fun entry hentry heq => ?_
      rw [decide_eq_true_eq, hdomain entry hentry] at heq
      exact hnew (mem_map.mpr ⟨other, hmem, heq.symm⟩)
    rw [filter_append, hnone, nil_append]
  refine ⟨fun each heach => ?_, fun each heach => ?_, fun entry hentry => ?_⟩
  · rcases mem_cons.mp heach with rfl | hmem
    · rw [hown]
      exact hbegins
    · rw [hother each hmem]
      exact hrest.ready each hmem
  · rcases mem_cons.mp heach with rfl | hmem
    · rw [hown]
      exact hgas
    · rw [hother each hmem]
      exact hrest.gas each hmem
  · rcases mem_append.mp hentry with hfirst | hlater
    · exact ⟨domain, mem_cons_self, hdomain entry hfirst⟩
    · obtain ⟨other, hmem, hid⟩ := hrest.domain entry hlater
      exact ⟨other, mem_cons_of_mem _ hmem, hid⟩

variable (hkeyed : pool.Keyed)

include hkeyed in
/-- The domains take their turns. -/
theorem selectDomains_spec (fairShare : Nat) (domains : List (DomainId × FinalizedDomain)) :
    (domains.map (·.1)).Nodup → ∀ selection : Selection, selection.Within →
      ∃ taken, Picked pool domains taken ∧
        ((domains.map fun domain => (domain.2.config.gasLimit.toNat, sortedReady pool domain)).foldl
          (selectDomain fairShare) selection).selected = selection.selected ++ taken ∧
        ((domains.map fun domain => (domain.2.config.gasLimit.toNat, sortedReady pool domain)).foldl
          (selectDomain fairShare) selection).Within := by
  induction domains with
  | nil => exact fun _ selection h =>
    ⟨[], ⟨by simp, by simp, by simp⟩, (append_nil _).symm, h⟩
  | cons domain domains ih =>
    intro hnodup selection h
    rw [map_cons, nodup_cons] at hnodup
    obtain ⟨first, hbegins, hgas, hfirst, hwithin⟩ := selectEntries_spec
      domain.2.config.gasLimit.toNat (min fairShare domain.2.config.gasLimit.toNat)
      ((sortedReady pool domain).take MAX_FAIR_DOMAIN_TRANSACTIONS) 0 selection (Nat.zero_le _) h
    rw [Nat.zero_add] at hgas
    obtain ⟨rest, hrest, hselected, hend⟩ := ih hnodup.2 _ hwithin
    have hready : first <+: sortedReady pool domain := hbegins.trans <| take_prefix _ _
    refine ⟨first ++ rest, hrest.cons hnodup.1 (fun entry hentry => ?_) hready hgas, ?_, hend⟩
    · exact domainId_of_ready hkeyed ((sortedReady_perm pool domain).subset (hready.subset hentry))
    · rw [← append_assoc, ← hfirst]
      exact hselected

def readyDomains (engine : SingleValidatorEngine) : List (DomainId × FinalizedDomain) :=
  engine.finalized.domains.toList.filter fun domain => readyEntries engine.mempool domain ≠ []

theorem nodup_readyDomains (engine : SingleValidatorEngine) :
    ((readyDomains engine).map (·.1)).Nodup :=
  (OrdMap.nodup_keys engine.finalized.domains).sublist (filter_sublist.map _)

/-- Their order: rotated to the cursor. -/
def rotation (engine : SingleValidatorEngine) : List (DomainId × FinalizedDomain) :=
  (readyDomains engine).rotate (engine.schedulerCursor % (readyDomains engine).length)

def takenInTurn (engine : SingleValidatorEngine) : List PoolEntry :=
  (((rotation engine).map fun domain =>
      (domain.2.config.gasLimit.toNat, sortedReady engine.mempool domain)).foldl
    (selectDomain (MAX_CONSENSUS_BLOCK_GAS / (readyDomains engine).length)) ⟨[], 0⟩).selected

variable {engine : SingleValidatorEngine} {selected : List PoolEntry}

theorem selectTransactions_eq_ok_iff : engine.selectTransactions = .ok selected ↔
      (∀ domain ∈ engine.finalized.domains.toList, SendersReadable engine.mempool domain) ∧
        selected = (takenInTurn engine).mergeSort fun a b => (compare a.key b.key).isLE := by
  have hlists : ((engine.finalized.domains.toList.map fun domain =>
      (domain.2.config.gasLimit.toNat, sortedReady engine.mempool domain)).filter fun domain =>
        domain.2 ≠ []) = (readyDomains engine).map fun domain =>
        (domain.2.config.gasLimit.toNat, sortedReady engine.mempool domain) := by
    rw [filter_map]
    congr 1
    refine filter_congr fun domain _ => ?_
    have hempty : sortedReady engine.mempool domain = [] ↔ readyEntries engine.mempool domain
        = [] := by
      rw [← length_eq_zero_iff, (sortedReady_perm engine.mempool domain).length_eq,
        length_eq_zero_iff]
    simp [hempty]
  have hreadable : ∀ domain : DomainId × FinalizedDomain, readyDomain engine.mempool domain
        = .ok (domain.2.config.gasLimit.toNat, sortedReady engine.mempool domain) ↔
      SendersReadable engine.mempool domain := by
    intro domain
    rw [readyDomain_eq_ok_iff, and_iff_left rfl]
  rw [selectTransactions, bind_eq_ok]
  simp only [mapAll_eq_ok_iff fun _ _ => readyDomain_eq_ok, hreadable, and_assoc,
    exists_and_left, exists_eq_left, hlists]
  refine and_congr_right fun _ => ?_
  rw [takenInTurn, rotation, map_rotate]
  split
  · rename_i hnone
    rw [hnone]
    simp [eq_comm]
  · simp [eq_comm]

end Picking

end SingleValidatorEngine

end Arbor
