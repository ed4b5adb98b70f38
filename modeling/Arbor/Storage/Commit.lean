import Arbor.Storage.Archive

/-!
# What a commit writes

The checks of a commit read the tables as they were, and lead to one transaction.  Its lines
are those of the new states, of contract bodies, receipts, indexes and registry records, and
the marker (`Written`).  Applied to tables that represent an archive it adds the snapshots
of the batch.
-/

namespace Arbor.Database

open Result Reader Device Canonical MarkSweep

variable {pending pending' : Pending} {node : B256 × Bytes} {change : Change Column}
  {state : DomainStateCommit} {domainId : DomainId}

/-! ## Trie nodes -/

/-- The nodes handled so far: each is stored already or pending, and only those are
pending. -/
structure NodesGathered (tables : Tables Column) (listed : List (B256 × Bytes))
    (pending : Pending) : Prop where
  covered : ∀ node ∈ listed, look tables .trieNodes (toBytes node.1) = some node.2
    ∨ node.1 ∈ pending.nodeHashes
  hashes : ∀ hash ∈ pending.nodeHashes, ∃ bytes,
    (⟨.trieNodes, toBytes hash, some bytes⟩ : Change Column) ∈ pending.transaction
  lines : ∀ change ∈ pending.transaction, change.column = .trieNodes → ∃ node ∈ listed,
    change = ⟨.trieNodes, toBytes node.1, some node.2⟩
      ∧ look tables .trieNodes (toBytes node.1) = none

theorem readOnly_appendNode (pending : Pending) (node : B256 × Bytes) :
    ReadOnly .database (appendNode pending node) := by
  refine (readOnly_get _ _).bind fun stored => ?_
  cases stored with
  | none =>
    dsimp only
    split
    · exact readOnly_pure _
    · exact readOnly_pure _
  | some existing =>
    dsimp only
    split
    · exact readOnly_check (.error _)
    · exact readOnly_pure _

variable {tables : Tables Column}

theorem appendNode_cases (h : value (appendNode pending node) tables = .ok pending') :
    (pending' = pending ∧ (look tables .trieNodes (toBytes node.1) = some node.2
        ∨ node.1 ∈ pending.nodeHashes)) ∨ (look tables .trieNodes (toBytes node.1) = none
        ∧ pending'.transaction
          = pending.transaction ++ [⟨.trieNodes, toBytes node.1, some node.2⟩]
        ∧ pending'.nodeHashes = pending.nodeHashes.insert node.1
        ∧ pending'.stats.pruningError = pending.stats.pruningError) := by
  rw [appendNode, value_bind (readOnly_get _ _), value_get, ok_bind] at h
  rcases hstored : look tables .trieNodes (toBytes node.1) with _ | existing
  · rw [hstored] at h
    dsimp only at h
    split at h
    · rename_i hpending
      cases h
      exact .inl ⟨rfl, .inr hpending⟩
    · cases h
      exact .inr ⟨rfl, rfl, rfl, rfl⟩
  · rw [hstored] at h
    dsimp only at h
    split at h
    · cases h
    · rename_i hsame
      cases h
      exact .inl ⟨rfl, .inl (by rw [not_not.mp hsame])⟩

theorem NodesGathered.step {listed : List (B256 × Bytes)} (hI : NodesGathered tables listed pending)
    (h : value (appendNode pending node) tables = .ok pending') :
    NodesGathered tables (listed ++ [node]) pending' := by
  rcases appendNode_cases h with ⟨rfl, hthere⟩ | ⟨habsent, htransaction, hhashes, _⟩
  · refine ⟨fun other hother => ?_, hI.hashes, fun change hchange hcolumn => ?_⟩
    · rcases List.mem_append.mp hother with hmem | hmem
      · exact hI.covered other hmem
      · rw [List.mem_singleton.mp hmem]
        exact hthere
    · obtain ⟨other, hother, hline⟩ := hI.lines change hchange hcolumn
      exact ⟨other, List.mem_append_left _ hother, hline⟩
  · have hmem : ∀ hash, hash ∈ pending'.nodeHashes ↔ hash = node.1 ∨ hash ∈ pending.nodeHashes := by
      intro hash
      rw [hhashes, Std.ExtTreeSet.mem_insert, Std.LawfulEqCmp.compare_eq_iff_eq, eq_comm]
    refine ⟨fun other hother => ?_, fun hash hhash => ?_, fun change hchange hcolumn => ?_⟩
    · rcases List.mem_append.mp hother with hold | hnew
      · exact (hI.covered other hold).imp_right fun hpending => (hmem _).mpr (.inr hpending)
      · rw [List.mem_singleton.mp hnew]
        exact .inr ((hmem _).mpr (.inl rfl))
    · rw [htransaction]
      rcases (hmem hash).mp hhash with rfl | hpending
      · exact ⟨node.2, List.mem_append_right _ (List.mem_singleton.mpr rfl)⟩
      · obtain ⟨bytes, hline⟩ := hI.hashes hash hpending
        exact ⟨bytes, List.mem_append_left _ hline⟩
    · rw [htransaction] at hchange
      rcases List.mem_append.mp hchange with hold | hnew
      · obtain ⟨other, hother, hline⟩ := hI.lines change hold hcolumn
        exact ⟨other, List.mem_append_left _ hother, hline⟩
      · exact ⟨node, List.mem_append_right _ (List.mem_singleton.mpr rfl),
          List.mem_singleton.mp hnew,
          habsent⟩

/-- Lines outside the trie nodes. -/
theorem appendNode_others (h : value (appendNode pending node) tables = .ok pending')
    (hcolumn : change.column ≠ .trieNodes) :
    change ∈ pending'.transaction ↔ change ∈ pending.transaction := by
  rcases appendNode_cases h with ⟨rfl, _⟩ | ⟨_, htransaction, _, _⟩
  · exact Iff.rfl
  · rw [htransaction, List.mem_append, List.mem_singleton]
    refine or_iff_left ?_
    rintro rfl
    exact hcolumn rfl

theorem appendNodes_others {nodes : List (B256 × Bytes)}
    (h : nodes.foldlM (fun pending node => value (appendNode pending node) tables) pending = .ok
      pending') (hcolumn : change.column ≠ .trieNodes) :
    change ∈ pending'.transaction ↔ change ∈ pending.transaction :=
  foldlM_invariant (I := fun _ p => change ∈ p.transaction ↔ change ∈ pending.transaction)
    (fun _ _ _ _ hI h => (appendNode_others h hcolumn).trans hI) [] Iff.rfl h

theorem appendNode_pruningError (h : value (appendNode pending node) tables = .ok pending') :
    pending'.stats.pruningError = pending.stats.pruningError := by
  rcases appendNode_cases h with ⟨rfl, _⟩ | ⟨_, _, _, hstats⟩
  · rfl
  · exact hstats

/-! ## States -/

def stateRecords (state : DomainStateCommit) : DbTransaction :=
  [⟨.metadata, rootKey state.domainId state.consensusHeight, some (toBytes state.snapshot.root)⟩,
    ⟨.metadata, manifestKey state.domainId state.consensusHeight,
      some (manifestBytes (manifestOf state.snapshot))⟩,
    ⟨.metadata, headKey state.domainId,
      some (encodeHead state.consensusHeight state.snapshot.root)⟩]

theorem readOnly_oldLeafKeys (domainId : DomainId) : ReadOnly .database (oldLeafKeys domainId) := by
  refine (readOnly_latestHead domainId).bind fun head => ?_
  cases head with
  | none => exact readOnly_pure _
  | some head =>
    refine (readOnly_loadManifest domainId head.1).bind fun manifest => ?_
    cases manifest with
    | none => exact readOnly_check (.error _)
    | some manifest => exact readOnly_pure _

theorem toList_inj {a b : BTreeMap B256 Bytes} (h : a.toList = b.toList) : a = b := by
  rw [← OrdMap.insertMany_toList a, ← OrdMap.insertMany_toList b, h]

theorem mem_stateChanges {oldKeys : List B256} (hflat : change.column ≠ .flatState) :
    change ∈ stateChanges state oldKeys (manifestBytes (manifestOf state.snapshot))
      ↔ change ∈ stateRecords state := by
  rw [stateChanges, List.mem_append, List.mem_append]
  refine or_iff_right ?_
  rintro (h | h)
  · obtain ⟨key, _, rfl⟩ := List.mem_map.mp h
    exact hflat rfl
  · obtain ⟨leaf, _, rfl⟩ := List.mem_map.mp h
    exact hflat rfl

theorem column_of_mem_stateRecords (h : change ∈ stateRecords state) :
    change.column = .metadata := by
  simp only [stateRecords, List.mem_cons, List.not_mem_nil, or_false] at h
  rcases h with rfl | rfl | rfl <;> rfl

section States

variable {height : U64} {transaction : DbTransaction}

theorem readOnly_appendRecord (transaction : DbTransaction) (record : IndexedValue) :
    ReadOnly .database (appendRecord transaction record) := by
  refine (readOnly_check _).bind fun _ => (readOnly_get _ _).bind fun stored => ?_
  cases stored with
  | none => exact readOnly_pure _
  | some existing =>
    dsimp only
    split
    · exact readOnly_check (.error _)
    · exact readOnly_pure _

/-- A registry record adds lines to no other column. -/
theorem appendRecord_others {transaction' : DbTransaction} {record : IndexedValue}
    (h : value (appendRecord transaction record) tables = .ok transaction') {change : Change Column}
    (hcolumn : change.column ≠ .domainRegistry) : change ∈ transaction' ↔ change ∈ transaction := by
  rw [appendRecord, value_bind (readOnly_check _), check_bind_eq_ok, value_bind (readOnly_get _ _),
    value_get, ok_bind] at h
  obtain ⟨_, h⟩ := h
  rcases hstored : look tables .domainRegistry record.key with _ | existing
  · rw [hstored] at h
    cases h
    rw [List.mem_append, List.mem_singleton]
    refine or_iff_left ?_
    rintro rfl
    exact hcolumn rfl
  · rw [hstored] at h
    dsimp only at h
    split at h
    · cases h
    · cases h
      exact Iff.rfl

theorem checkUnique_eq_ok {α : Type} [DecidableEq α] {what : String} {keys : List α} {u : Unit} :
    checkUnique what keys = .ok u ↔ keys.Nodup := by
  rw [checkUnique, rejectIf_eq_ok, not_not]

theorem checkMonotonic_eq_ok {current : Option FinalizedMarker} {u : Unit} :
    checkMonotonic current height = .ok u ↔ ∀ marker, current = some marker →
      marker.height < height := by
  cases current with
  | none => simp [checkMonotonic]
  | some current => simp [checkMonotonic]

variable [Keccak]

structure StatesGathered (tables : Tables Column) (height : U64) (done : List DomainStateCommit)
    (pending : Pending) : Prop where
  nodes : NodesGathered tables (done.flatMap fun state => state.snapshot.nodes.toList) pending
  checked : ∀ state ∈ done, Checked state.snapshot
  below : ∀ state ∈ done, state.consensusHeight ≤ height
  others : ∀ change : Change Column, change.column ≠ .trieNodes → change.column ≠ .flatState →
    (change ∈ pending.transaction ↔ ∃ state ∈ done, change ∈ stateRecords state)
  pruningError : pending.stats.pruningError = none

theorem readOnly_appendStateChanges (pending : Pending) (state : DomainStateCommit) :
    ReadOnly .database (appendStateChanges pending state) :=
  (readOnly_check _).bind fun _ => (readOnly_check _).bind fun _ =>
    (ReadOnly.foldlM readOnly_appendNode _ _).bind fun _ =>
      (readOnly_oldLeafKeys _).bind fun _ => (readOnly_check _).bind fun _ => readOnly_pure _

theorem readOnly_appendState (height : U64) (pending : Pending) (state : DomainStateCommit) :
    ReadOnly .database (appendState height pending state) :=
  (readOnly_check _).bind fun _ => readOnly_appendStateChanges pending state

/-- What passing the checks of one state says and appends. -/
theorem appendState_eq_ok {pending pending' : Pending} {state : DomainStateCommit}
    (h : value (appendState height pending state) tables = .ok pending') :
    state.consensusHeight ≤ height ∧ Checked state.snapshot ∧ ∃ middle oldKeys,
      state.snapshot.nodes.toList.foldlM
        (fun pending node => value (appendNode pending node) tables)
        pending = .ok middle
      ∧ value (oldLeafKeys state.domainId) tables = .ok oldKeys
      ∧ pending'.nodeHashes = middle.nodeHashes ∧ pending'.stats = middle.stats
      ∧ pending'.transaction = middle.transaction
        ++ stateChanges state oldKeys (manifestBytes (manifestOf state.snapshot)) := by
  rw [appendState, value_bind (readOnly_check _), value_give, check_bind_eq_ok, rejectIf_eq_ok] at h
  obtain ⟨hheight, h⟩ := h
  rw [appendStateChanges, value_bind (readOnly_check _), value_give, bind_eq_ok] at h
  obtain ⟨rebuilt, hrebuilt, h⟩ := h
  rw [value_bind (readOnly_check _), value_give, check_bind_eq_ok, rejectIf_eq_ok, not_not] at h
  obtain ⟨hleaves, h⟩ := h
  rw [value_bind (ReadOnly.foldlM readOnly_appendNode _ _), value_foldlM readOnly_appendNode,
    bind_eq_ok] at h
  obtain ⟨middle, hmiddle, h⟩ := h
  rw [value_bind (readOnly_oldLeafKeys _), bind_eq_ok] at h
  obtain ⟨oldKeys, holdKeys, h⟩ := h
  rw [value_bind (readOnly_check _), value_give, bind_eq_ok] at h
  obtain ⟨bytes, hbytes, h⟩ := h
  obtain ⟨⟨hnodes, hleafCount⟩, rfl⟩ := encode_eq_ok.mp hbytes
  cases h
  rw [mapError_eq_ok, toList_inj hleaves] at hrebuilt
  exact ⟨Nat.le_of_not_lt hheight, ⟨hnodes, hleafCount, hrebuilt⟩, middle, oldKeys, hmiddle,
    holdKeys, rfl, rfl, rfl⟩

theorem StatesGathered.step {done : List DomainStateCommit} {pending pending' : Pending}
    {state : DomainStateCommit} (hI : StatesGathered tables height done pending)
    (h : value (appendState height pending state) tables = .ok pending') :
    StatesGathered tables height (done ++ [state]) pending' := by
  obtain ⟨hheight, hchecked, middle, oldKeys, hmiddle, _, hhashes, hstats, htransaction⟩ :=
    appendState_eq_ok h
  have hnodes : NodesGathered tables
      ((done.flatMap fun state => state.snapshot.nodes.toList) ++ state.snapshot.nodes.toList)
        middle :=
    foldlM_invariant (fun _ _ _ _ hI h => hI.step h) _ hI.nodes hmiddle
  have hothers : ∀ change : Change Column, change.column ≠ .trieNodes →
      (change ∈ middle.transaction ↔ change ∈ pending.transaction) :=
    fun _ hcolumn => appendNodes_others hmiddle hcolumn
  have hmem : ∀ {change : Change Column}, change ∈ pending'.transaction →
      change.column = .trieNodes → change ∈ middle.transaction := by
    intro change hchange hcolumn
    rw [htransaction] at hchange
    refine (List.mem_append.mp hchange).resolve_right fun hstate => ?_
    rw [mem_stateChanges (by rw [hcolumn]; decide)] at hstate
    rw [column_of_mem_stateRecords hstate] at hcolumn
    cases hcolumn
  refine ⟨⟨?_, ?_, ?_⟩, ?_, ?_, ?_, ?_⟩
  · rw [List.flatMap_append, List.flatMap_singleton, hhashes]
    exact hnodes.covered
  · intro hash hhash
    rw [hhashes] at hhash
    obtain ⟨bytes, hline⟩ := hnodes.hashes hash hhash
    rw [htransaction]
    exact ⟨bytes, List.mem_append_left _ hline⟩
  · rw [List.flatMap_append, List.flatMap_singleton]
    exact fun change hchange hcolumn => hnodes.lines change (hmem hchange hcolumn) hcolumn
  · intro other hother
    rcases List.mem_append.mp hother with hold | hnew
    · exact hI.checked other hold
    · rw [List.mem_singleton.mp hnew]
      exact hchecked
  · intro other hother
    rcases List.mem_append.mp hother with hold | hnew
    · exact hI.below other hold
    · rw [List.mem_singleton.mp hnew]
      exact hheight
  · intro change hnode hflat
    rw [htransaction, List.mem_append, hothers change hnode, mem_stateChanges hflat,
      hI.others change hnode hflat]
    simp [or_and_right, exists_or]
  · rw [hstats]
    exact foldlM_invariant (I := fun _ pending => pending.stats.pruningError = none)
      (fun _ _ _ _ hI h => (appendNode_pruningError h).trans hI) [] hI.pruningError hmiddle

/-! ## The whole batch -/

/-- What the transaction of a batch holds, and what its checks have found. -/
structure Written (tables : Tables Column) (batch : CommitBatch) (transaction : DbTransaction) :
    Prop where
  above : ∀ marker, value finalizedMarker tables = .ok (some marker) →
    marker.height < batch.marker.height
  domains : (batch.states.map (·.domainId)).Nodup
  receiptKeys : (batch.receipts.map (·.key)).Nodup
  indexKeys : (batch.indexes.map (·.key)).Nodup
  checked : ∀ state ∈ batch.states, Checked state.snapshot
  below : ∀ state ∈ batch.states, state.consensusHeight ≤ batch.marker.height
  /-- A node is stored already or has a line. -/
  covered : ∀ state ∈ batch.states, ∀ node ∈ state.snapshot.nodes.toList,
    look tables .trieNodes (toBytes node.1) = some node.2
      ∨ ∃ bytes, (⟨.trieNodes, toBytes node.1, some bytes⟩ : Change Column) ∈ transaction
  nodeLines : ∀ change ∈ transaction, change.column = .trieNodes → ∃ state ∈ batch.states,
    ∃ node ∈ state.snapshot.nodes.toList, change = ⟨.trieNodes, toBytes node.1, some node.2⟩
      ∧ look tables .trieNodes (toBytes node.1) = none
  metadata : ∀ change : Change Column, change.column = .metadata → (change ∈ transaction ↔
    change = ⟨.metadata, KEY_MARKER, some (encodeMarker batch.marker)⟩
      ∨ ∃ state ∈ batch.states, change ∈ stateRecords state)
  receipts : ∀ change : Change Column, change.column = .receipts → (change ∈ transaction ↔
    ∃ record ∈ batch.receipts, change = ⟨.receipts, record.key, some record.value⟩)
  indexes : ∀ change : Change Column, change.column = .indexes → (change ∈ transaction ↔
    ∃ record ∈ batch.indexes, change = ⟨.indexes, record.key, some record.value⟩)

theorem readOnly_prepare (batch : CommitBatch) : ReadOnly .database (prepare batch) :=
  readOnly_finalizedMarker.bind fun _ => (readOnly_check _).bind fun _ =>
    (readOnly_check _).bind fun _ =>
      (ReadOnly.foldlM (readOnly_appendState batch.marker.height) _ _).bind fun _ =>
        (readOnly_check _).bind fun _ =>
          (ReadOnly.foldlM readOnly_appendRecord _ _).bind fun _ => readOnly_pure _

/-- What is gathered for a batch, and the lines of its transaction outside the registry. -/
structure Prepared (tables : Tables Column) (batch : CommitBatch) (transaction : DbTransaction)
    (pending : Pending) : Prop where
  above : ∀ marker, value finalizedMarker tables = .ok (some marker) →
    marker.height < batch.marker.height
  domains : (batch.states.map (·.domainId)).Nodup
  receiptKeys : (batch.receipts.map (·.key)).Nodup
  indexKeys : (batch.indexes.map (·.key)).Nodup
  states : batch.states.foldlM (fun pending state =>
    value (appendState batch.marker.height pending state) tables) ⟨[], ∅, {}⟩ = .ok pending
  lines : ∀ change : Change Column, change.column ≠ .domainRegistry → (change ∈ transaction ↔
    (((change ∈ pending.transaction
      ∨ ∃ code ∈ batch.contractCode.toList, ⟨.contractCode, toBytes code.1, some code.2⟩ = change)
      ∨ ∃ record ∈ batch.receipts, ⟨.receipts, record.key, some record.value⟩ = change)
      ∨ ∃ record ∈ batch.indexes, ⟨.indexes, record.key, some record.value⟩ = change)
      ∨ change = ⟨.metadata, KEY_MARKER, some (encodeMarker batch.marker)⟩)

theorem prepared_of_prepare {batch : CommitBatch} {stats : CommitStats}
    (h : value (prepare batch) tables = .ok (transaction, stats)) :
    ∃ pending, Prepared tables batch transaction pending ∧ stats = pending.stats := by
  rw [prepare, value_bind readOnly_finalizedMarker, bind_eq_ok] at h
  obtain ⟨current, hcurrent, h⟩ := h
  rw [value_bind (readOnly_check _), value_give, check_bind_eq_ok, checkMonotonic_eq_ok] at h
  obtain ⟨habove, h⟩ := h
  rw [value_bind (readOnly_check _), value_give, check_bind_eq_ok, validateUnique] at h
  obtain ⟨hunique, h⟩ := h
  simp only [check_bind_eq_ok, checkUnique_eq_ok] at hunique
  rw [value_bind (ReadOnly.foldlM (readOnly_appendState _) _ _),
    value_foldlM (readOnly_appendState _), bind_eq_ok] at h
  obtain ⟨pending, hpending, h⟩ := h
  rw [value_bind (readOnly_check _), check_bind_eq_ok] at h
  obtain ⟨_, h⟩ := h
  rw [value_bind (ReadOnly.foldlM readOnly_appendRecord _ _), value_foldlM readOnly_appendRecord,
    bind_eq_ok] at h
  obtain ⟨recorded, hrecorded, h⟩ := h
  cases h
  refine ⟨pending, ⟨fun marker hmarker => ?_, hunique.1, hunique.2.1, hunique.2.2.1, hpending,
    fun change hcolumn => ?_⟩, rfl⟩
  · rw [hcurrent] at hmarker
    exact habove marker (Except.ok.inj hmarker)
  · have hbase : ∀ {base : DbTransaction}, batch.domainRegistry.foldlM
        (fun transaction record => value (appendRecord transaction record) tables) base
          = .ok recorded →
        (change ∈ recorded ↔ change ∈ base) := fun {base} h =>
      foldlM_invariant (I := fun _ transaction => change ∈ transaction ↔ change ∈ base)
        (fun _ _ _ _ hI h => (appendRecord_others h hcolumn).trans hI) [] Iff.rfl h
    rw [List.mem_append, List.mem_singleton, hbase hrecorded]
    simp only [List.mem_append, List.mem_map]

/-- **The transaction of a commit.** -/
theorem written_of_prepare {batch : CommitBatch} {stats : CommitStats}
    (h : value (prepare batch) tables = .ok (transaction, stats)) :
    Written tables batch transaction ∧ stats.pruningError = none := by
  obtain ⟨pending, hprepared, rfl⟩ := prepared_of_prepare h
  have hmem := hprepared.lines
  have hstart : StatesGathered tables batch.marker.height [] ⟨[], ∅, {}⟩ :=
    ⟨⟨by simp, by simp, by simp⟩, by simp, by simp, by simp, rfl⟩
  have hstates := foldlM_invariant (fun _ _ _ _ hI h => StatesGathered.step hI h) [] hstart
    hprepared.states
  have hforeign : ∀ change : Change Column, change.column ≠ .trieNodes ∧ change.column ≠ .flatState
      ∧ change.column ≠ .metadata → change ∉ pending.transaction := by
    rintro change ⟨hnode, hflat, hmeta⟩
    rw [hstates.others change hnode hflat]
    rintro ⟨state, _, hrecord⟩
    exact hmeta (column_of_mem_stateRecords hrecord)
  refine ⟨⟨hprepared.above, hprepared.domains, hprepared.receiptKeys, hprepared.indexKeys,
    hstates.checked, hstates.below, ?_, ?_, ?_, ?_, ?_⟩, hstates.pruningError⟩
  · intro state hstate node hnode
    refine (hstates.nodes.covered node (List.mem_flatMap.mpr ⟨state, hstate, hnode⟩)).imp_right
      fun hpending => ?_
    obtain ⟨bytes, hline⟩ := hstates.nodes.hashes node.1 hpending
    exact ⟨bytes, (hmem _ (by simp)).mpr (.inl (.inl (.inl (.inl hline))))⟩
  · intro change hchange hcolumn
    have hline : change ∈ pending.transaction := by
      rcases (hmem change (by rw [hcolumn]; decide)).mp hchange with
        (((hline | ⟨_, _, rfl⟩) | ⟨_, _, rfl⟩) | ⟨_, _, rfl⟩) | rfl
      · exact hline
      all_goals cases hcolumn
    obtain ⟨node, hnode, hline⟩ := hstates.nodes.lines change hline hcolumn
    obtain ⟨state, hstate, hnode⟩ := List.mem_flatMap.mp hnode
    exact ⟨state, hstate, node, hnode, hline⟩
  · intro change hcolumn
    rw [hmem change (by rw [hcolumn]; decide),
      hstates.others change (by rw [hcolumn]; decide) (by rw [hcolumn]; decide)]
    constructor
    · rintro ((((hstate | ⟨_, _, rfl⟩) | ⟨_, _, rfl⟩) | ⟨_, _, rfl⟩) | hmarker)
      · exact .inr hstate
      · cases hcolumn
      · cases hcolumn
      · cases hcolumn
      · exact .inl hmarker
    · rintro (hmarker | hstate)
      · exact .inr hmarker
      · exact .inl (.inl (.inl (.inl hstate)))
  · intro change hcolumn
    rw [hmem change (by rw [hcolumn]; decide)]
    constructor
    · rintro ((((hline | ⟨_, _, rfl⟩) | ⟨record, hrecord, rfl⟩) | ⟨_, _, rfl⟩) | rfl)
      · exact absurd hline (hforeign change (by rw [hcolumn]; decide))
      · cases hcolumn
      · exact ⟨record, hrecord, rfl⟩
      · cases hcolumn
      · cases hcolumn
    · rintro ⟨record, hrecord, rfl⟩
      exact .inl (.inl (.inr ⟨record, hrecord, rfl⟩))
  · intro change hcolumn
    rw [hmem change (by rw [hcolumn]; decide)]
    constructor
    · rintro ((((hline | ⟨_, _, rfl⟩) | ⟨_, _, rfl⟩) | ⟨record, hrecord, rfl⟩) | rfl)
      · exact absurd hline (hforeign change (by rw [hcolumn]; decide))
      · cases hcolumn
      · cases hcolumn
      · exact ⟨record, hrecord, rfl⟩
      · cases hcolumn
    · rintro ⟨record, hrecord, rfl⟩
      exact .inl (.inr ⟨record, hrecord, rfl⟩)

end States

/-! ## The archive after a commit -/

def stateOf (batch : CommitBatch) (domainId : DomainId) : Option DomainStateCommit :=
  batch.states.find? fun state => state.domainId = domainId

theorem stateOf_eq_some {batch : CommitBatch} (hdomains : (batch.states.map (·.domainId)).Nodup) :
    stateOf batch domainId = some state ↔ state ∈ batch.states ∧ state.domainId = domainId := by
  constructor
  · intro h
    exact ⟨List.mem_of_find?_eq_some h, by simpa using List.find?_some h⟩
  · rintro ⟨hmem, rfl⟩
    rcases hfind : stateOf batch state.domainId with _ | other
    · have hnone := List.find?_eq_none.mp hfind state hmem
      simp at hnone
    · have hsame : other.domainId = state.domainId := by simpa using List.find?_some hfind
      rw [List.inj_on_of_nodup_map hdomains (List.mem_of_find?_eq_some hfind) hmem hsame]

theorem stateOf_eq_none {batch : CommitBatch} :
    stateOf batch domainId = none ↔ ∀ state ∈ batch.states, state.domainId ≠ domainId := by
  simp [stateOf]

def snapshotOf (batch : CommitBatch) (domainId : DomainId) : Option (U64 × TrieSnapshot) :=
  (stateOf batch domainId).map fun state => (state.consensusHeight, state.snapshot)

/-- The nodes of a batch stand under their hashes. -/
def Addressed [Keccak] (batch : CommitBatch) : Prop :=
  ∀ state ∈ batch.states, ∀ node ∈ state.snapshot.nodes.toList, keccak256 node.2 = node.1

def nodeBytes (batch : CommitBatch) : Set Bytes :=
  {bytes | ∃ state ∈ batch.states, ∃ node ∈ state.snapshot.nodes.toList, node.2 = bytes}

/-! Which line a key belongs to. -/

theorem record_of_manifestKey {height : U64} (h : change ∈ stateRecords state)
    (hkey : change.key = manifestKey domainId height) :
    (state.domainId = domainId ∧ state.consensusHeight = height)
      ∧ change.value = some (manifestBytes (manifestOf state.snapshot)) := by
  simp only [stateRecords, List.mem_cons, List.not_mem_nil, or_false] at h
  rcases h with rfl | rfl | rfl
  · exact absurd hkey (ne_of_head? (head?_rootKey _ _) (head?_manifestKey _ _) (by decide))
  · exact ⟨manifestKey_inj hkey, rfl⟩
  · exact absurd hkey (ne_of_head? (head?_headKey _) (head?_manifestKey _ _) (by decide))

theorem record_of_rootKey {height : U64} (h : change ∈ stateRecords state)
    (hkey : change.key = rootKey domainId height) :
    (state.domainId = domainId ∧ state.consensusHeight = height)
      ∧ change.value = some (toBytes state.snapshot.root) := by
  simp only [stateRecords, List.mem_cons, List.not_mem_nil, or_false] at h
  rcases h with rfl | rfl | rfl
  · exact ⟨rootKey_inj hkey, rfl⟩
  · exact absurd hkey (ne_of_head? (head?_manifestKey _ _) (head?_rootKey _ _) (by decide))
  · exact absurd hkey (ne_of_head? (head?_headKey _) (head?_rootKey _ _) (by decide))

theorem record_of_headKey (h : change ∈ stateRecords state) (hkey : change.key = headKey domainId) :
    state.domainId = domainId
      ∧ change.value = some (encodeHead state.consensusHeight state.snapshot.root) := by
  simp only [stateRecords, List.mem_cons, List.not_mem_nil, or_false] at h
  rcases h with rfl | rfl | rfl
  · exact absurd hkey (ne_of_head? (head?_rootKey _ _) (head?_headKey _) (by decide))
  · exact absurd hkey (ne_of_head? (head?_manifestKey _ _) (head?_headKey _) (by decide))
  · exact ⟨headKey_inj hkey, rfl⟩

/-- How an archive follows from another by a commit of some states and a retention pass. -/
structure Follows (states : List DomainStateCommit) (A B : Archive) : Prop where
  kept : ∀ domainId height snapshot, B.kept domainId height = some snapshot →
    A.kept domainId height = some snapshot ∨ ∃ state ∈ states, state.domainId = domainId
      ∧ state.consensusHeight = height ∧ state.snapshot = snapshot
  idle : ∀ domainId, (∀ state ∈ states, state.domainId ≠ domainId) →
    B.head domainId = A.head domainId
  headed : ∀ domainId, (A.head domainId).isSome → (B.head domainId).isSome

variable {states : List DomainStateCommit}

theorem Follows.refl (A : Archive) : Follows states A A :=
  ⟨fun _ _ _ h => .inl h, fun _ _ => rfl, fun _ h => h⟩

theorem Follows.thinned {A B C : Archive} (hAB : Follows states A B) (hBC : B.Thinned C) :
    Follows states A C :=
  ⟨fun domainId height snapshot h => hAB.kept _ _ _ (hBC.kept domainId height snapshot h),
    fun domainId h => by rw [hBC.head]; exact hAB.idle domainId h,
    fun domainId h => by rw [hBC.head]; exact hAB.headed domainId h⟩

section Applied

variable [Keccak] {batch : CommitBatch} {transaction : DbTransaction}

variable {A : Archive}

section

variable (h : Written tables batch transaction)
include h

/-- Stored nodes stay. -/
theorem Written.look_stored {hash : B256} {bytes : Bytes}
    (hstored : look tables .trieNodes (toBytes hash) = some bytes) :
    look (apply tables transaction) .trieNodes (toBytes hash) = some bytes := by
  rw [apply_untouched, hstored]
  rintro change hchange ⟨hcolumn, hkey⟩
  obtain ⟨_, _, node, _, rfl, habsent⟩ := h.nodeLines change hchange hcolumn
  have hkey' : toBytes node.1 = toBytes hash := hkey
  rw [hkey', hstored] at habsent
  cases habsent

theorem Written.look_listed (haddressed : Addressed batch)
    (hinj : Set.InjOn keccak256 (nodeBytes batch)) {state : DomainStateCommit}
    (hstate : state ∈ batch.states) {node : B256 × Bytes}
    (hnode : node ∈ state.snapshot.nodes.toList) :
    look (apply tables transaction) .trieNodes (toBytes node.1) = some node.2 := by
  rcases h.covered state hstate node hnode with hstored | ⟨bytes, hline⟩
  · exact h.look_stored hstored
  · refine apply_settled ⟨_, hline, rfl, rfl⟩ fun change hchange hcolumn hkey => ?_
    obtain ⟨state', hstate', node', hnode', rfl, _⟩ := h.nodeLines change hchange hcolumn
    have hhash : node'.1 = node.1 := toBytes_injective (by decide) hkey
    have hbytes : node'.2 = node.2 := hinj ⟨state', hstate', node', hnode', rfl⟩
      ⟨state, hstate, node, hnode, rfl⟩
      (by rw [haddressed state' hstate' node' hnode', haddressed state hstate node hnode, hhash])
    exact congrArg some hbytes

/-- A metadata key that no line of the batch names. -/
theorem Written.look_metadata_other {key : Bytes} (hmarker : key ≠ KEY_MARKER)
    (hstates : ∀ state ∈ batch.states, ∀ change ∈ stateRecords state, change.key ≠ key) :
    look (apply tables transaction) .metadata key = look tables .metadata key := by
  refine apply_untouched ?_
  rintro change hchange ⟨hcolumn, hkey⟩
  rcases (h.metadata change hcolumn).mp hchange with rfl | ⟨state, hstate, hrecord⟩
  · exact hmarker hkey.symm
  · exact hstates state hstate change hrecord hkey

theorem Written.look_metadata_state
    {state : DomainStateCommit} (hstate : state ∈ batch.states) {line : Change Column}
    (hline : line ∈ stateRecords state) (hmarker : line.key ≠ KEY_MARKER)
    (hsame : ∀ other ∈ batch.states, ∀ change ∈ stateRecords other, change.key = line.key →
      change.value = line.value) :
    look (apply tables transaction) .metadata line.key = line.value := by
  have hmetadata := column_of_mem_stateRecords hline
  refine apply_settled ⟨line, (h.metadata line hmetadata).mpr (.inr ⟨state, hstate, hline⟩),
    hmetadata, rfl⟩ fun change hchange hcolumn hkey => ?_
  rcases (h.metadata change hcolumn).mp hchange with rfl | ⟨other, hother, hrecord⟩
  · exact absurd hkey.symm hmarker
  · exact hsame other hother change hrecord hkey

variable {kept : DomainId → U64 → Option TrieSnapshot}

theorem Written.look_slot {key : DomainId → U64 → Bytes} {content : TrieSnapshot → Bytes}
    (hrecord : ∀ state : DomainStateCommit, (⟨.metadata, key state.domainId state.consensusHeight,
      some (content state.snapshot)⟩ : Change Column) ∈ stateRecords state)
    (honly : ∀ {state : DomainStateCommit} {change : Change Column} {domainId : DomainId}
      {height : U64}, change ∈ stateRecords state → change.key = key domainId height →
        (state.domainId = domainId ∧ state.consensusHeight = height)
          ∧ change.value = some (content state.snapshot))
    (hmarker : ∀ domainId height, key domainId height ≠ KEY_MARKER)
    (hkept : ∀ domainId height, look tables .metadata (key domainId height)
      = (kept domainId height).map content) (domainId : DomainId) (height : U64) :
    look (apply tables transaction) .metadata (key domainId height)
      = (keptWith kept (snapshotOf batch) domainId height).map content := by
  by_cases hnew : ∃ state ∈ batch.states, state.domainId = domainId ∧ state.consensusHeight = height
  · obtain ⟨state, hstate, rfl, rfl⟩ := hnew
    have hfound := (stateOf_eq_some h.domains).mpr ⟨hstate, rfl⟩
    have hlook := h.look_metadata_state hstate (hrecord state) (hmarker _ _)
      fun other hother change hchange hkey => by
        obtain ⟨⟨hdomain, _⟩, hvalue⟩ := honly hchange hkey
        have hsame := (stateOf_eq_some h.domains).mpr ⟨hother, hdomain⟩
        rw [hfound] at hsame
        cases hsame
        exact hvalue
    rw [hlook]
    simp [keptWith, snapshotOf, hfound]
  · have hlook := h.look_metadata_other (hmarker domainId height)
      fun state hstate change hchange hkey => hnew ⟨state, hstate, (honly hchange hkey).1⟩
    rw [hlook, hkept]
    rcases hfound : stateOf batch domainId with _ | state
    · simp [keptWith, snapshotOf, hfound]
    · obtain ⟨hstate, hdomain⟩ := (stateOf_eq_some h.domains).mp hfound
      have hother : ¬state.consensusHeight = height := fun heq => hnew ⟨state, hstate, hdomain, heq⟩
      simp [keptWith, snapshotOf, hfound, hother]

/-- A key that was not there before is one the batch names. -/
theorem Written.metadata_keys {key : Bytes}
    (hsome : (look (apply tables transaction) .metadata key).isSome) :
    (look tables .metadata key).isSome ∨ key = KEY_MARKER
      ∨ ∃ state ∈ batch.states, ∃ change ∈ stateRecords state, change.key = key := by
  by_cases hmarker : key = KEY_MARKER
  · exact .inr (.inl hmarker)
  · by_cases hnamed : ∃ state ∈ batch.states, ∃ change ∈ stateRecords state, change.key = key
    · exact .inr (.inr hnamed)
    · rw [h.look_metadata_other hmarker fun state hstate change hchange hkey =>
        hnamed ⟨state, hstate, change, hchange, hkey⟩] at hsome
      exact .inl hsome

theorem Written.look_snapshot (haddressed : Addressed batch)
    (hinj : Set.InjOn keccak256 (nodeBytes batch)) {domainId : DomainId} {height : U64}
    {snapshot : TrieSnapshot} (hnew : snapshotOf batch domainId = some (height, snapshot))
    {hash : B256} {bytes : Bytes} (hlisted : nodeOf snapshot hash = some bytes) :
    look (apply tables transaction) .trieNodes (toBytes hash) = some bytes := by
  obtain ⟨state, hfound, heq⟩ := Option.map_eq_some_iff.mp hnew
  cases heq
  have hstate := ((stateOf_eq_some h.domains).mp hfound).1
  have hmem : (hash, bytes) ∈ state.snapshot.nodes.toList :=
    Std.ExtTreeMap.mem_toList_iff_getElem?_eq_some.mpr hlisted
  have hlook := h.look_listed haddressed hinj hstate hmem
  exact hlook

/-- The head of a domain after a commit. -/
theorem Written.look_head (domainId : DomainId) :
    look (apply tables transaction) .metadata (headKey domainId)
      = match stateOf batch domainId with
        | none => look tables .metadata (headKey domainId)
        | some state => some (encodeHead state.consensusHeight state.snapshot.root) := by
  have hmarker : headKey domainId ≠ KEY_MARKER :=
    ne_of_head? (head?_headKey _) head?_KEY_MARKER (by decide)
  rcases hfound : stateOf batch domainId with _ | state
  · have hnone := stateOf_eq_none.mp hfound
    exact h.look_metadata_other hmarker fun state hstate change hchange hkey =>
      hnone state hstate (record_of_headKey hchange hkey).1
  · obtain ⟨hstate, rfl⟩ := (stateOf_eq_some h.domains).mp hfound
    have hline : (⟨.metadata, headKey state.domainId,
        some (encodeHead state.consensusHeight state.snapshot.root)⟩ : Change Column)
          ∈ stateRecords state := by
      simp [stateRecords]
    refine h.look_metadata_state hstate hline hmarker fun other hother change hchange hkey => ?_
    obtain ⟨hdomain, hvalue⟩ := record_of_headKey hchange hkey
    have hsame := (stateOf_eq_some h.domains).mpr ⟨hother, hdomain⟩
    rw [hfound] at hsame
    cases hsame
    exact hvalue

theorem Written.look_marker :
    look (apply tables transaction) .metadata KEY_MARKER = some (encodeMarker batch.marker) := by
  refine apply_settled ⟨_, (h.metadata _ rfl).mpr (.inl rfl), rfl, rfl⟩ ?_
  intro change hchange hcolumn hkey
  rcases (h.metadata change hcolumn).mp hchange with rfl | ⟨state, _, hrecord⟩
  · rfl
  · simp only [stateRecords, List.mem_cons, List.not_mem_nil, or_false] at hrecord
    rcases hrecord with rfl | rfl | rfl
    · exact absurd hkey (ne_of_head? (head?_rootKey _ _) head?_KEY_MARKER (by decide))
    · exact absurd hkey (ne_of_head? (head?_manifestKey _ _) head?_KEY_MARKER (by decide))
    · exact absurd hkey (ne_of_head? (head?_headKey _) head?_KEY_MARKER (by decide))

theorem Written.look_index {record : IndexedValue} (hrecord : record ∈ batch.indexes) :
    look (apply tables transaction) .indexes record.key = some record.value := by
  refine apply_settled ⟨_, (h.indexes _ rfl).mpr ⟨record, hrecord, rfl⟩, rfl, rfl⟩ ?_
  intro change hchange hcolumn hkey
  obtain ⟨other, hother, rfl⟩ := (h.indexes change hcolumn).mp hchange
  rw [List.inj_on_of_nodup_map h.indexKeys hother hrecord hkey]

/-- The records after a commit. -/
theorem Written.recorded {head : DomainId → Option U64} (hrecorded : Recorded tables kept head) :
    Recorded (apply tables transaction) (keptWith kept (snapshotOf batch))
      (headWith head (snapshotOf batch)) where
  manifests := h.look_slot (by simp [stateRecords]) record_of_manifestKey
    (fun _ _ => ne_of_head? (head?_manifestKey _ _) head?_KEY_MARKER (by decide))
      hrecorded.manifests
  roots := h.look_slot (by simp [stateRecords]) record_of_rootKey
    (fun _ _ => ne_of_head? (head?_rootKey _ _) head?_KEY_MARKER (by decide)) hrecorded.roots
  heads domainId := by
    rw [h.look_head]
    rcases hfound : stateOf batch domainId with _ | state
    · rw [hrecorded.heads]
      simp [headWith, keptWith, snapshotOf, hfound]
    · simp [headWith, keptWith, snapshotOf, hfound]
  headKept _ _ := headWith_kept hrecorded.headKept
  checked domainId height snapshot hkept := by
    rcases keptWith_eq_some.mp hkept with hnew | ⟨_, hold⟩
    · obtain ⟨state, hfound, heq⟩ := Option.map_eq_some_iff.mp hnew
      cases heq
      exact h.checked state ((stateOf_eq_some h.domains).mp hfound).1
    · exact hrecorded.checked domainId height snapshot hold
  manifestKeys key hsome hstarts := by
    have hfirst := head?_of_prefix_manifest hstarts
    rcases h.metadata_keys hsome with hold | rfl | ⟨state, _, change, hchange, rfl⟩
    · exact hrecorded.manifestKeys key hold hstarts
    · cases hfirst
    · simp only [stateRecords, List.mem_cons, List.not_mem_nil, or_false] at hchange
      rcases hchange with rfl | rfl | rfl
      · cases hfirst
      · exact ⟨_, _, rfl⟩
      · cases hfirst
  rootKeys key domainId hsome hstarts := by
    have hfirst := head?_of_prefix_root hstarts
    rcases h.metadata_keys hsome with hold | rfl | ⟨state, _, change, hchange, rfl⟩
    · exact hrecorded.rootKeys key domainId hold hstarts
    · cases hfirst
    · simp only [stateRecords, List.mem_cons, List.not_mem_nil, or_false] at hchange
      rcases hchange with rfl | rfl | rfl
      · rw [prefix_rootKey_iff.mp hstarts]
        exact ⟨_, rfl⟩
      · cases hfirst
      · cases hfirst

/-- The archive with the snapshots of a batch. -/
def Written.archive (h : Written tables batch transaction) (haddressed : Addressed batch)
    (hinj : Set.InjOn keccak256 (nodeBytes batch)) {A : Archive} (hA : Represents tables A) :
    Archive :=
  A.add (snapshotOf batch) (fun hash => look (apply tables transaction) .trieNodes (toBytes hash))
    (fun hash _ hnode => h.look_stored ((hA.nodes hash).trans hnode))
    (fun _ _ _ hnew _ _ hlisted => h.look_snapshot haddressed hinj hnew hlisted)

/-- **A commit adds its snapshots.** -/
theorem Written.represents (haddressed : Addressed batch)
    (hinj : Set.InjOn keccak256 (nodeBytes batch)) (hA : Represents tables A) :
    Represents (apply tables transaction) (h.archive haddressed hinj hA) :=
  ⟨h.recorded hA.records, fun _ => rfl⟩

theorem Written.follows (haddressed : Addressed batch)
    (hinj : Set.InjOn keccak256 (nodeBytes batch)) (hA : Represents tables A) :
    Follows batch.states A (h.archive haddressed hinj hA) := by
  refine ⟨fun domainId height snapshot hkept => ?_, fun domainId hidle => ?_,
    fun domainId hsome => ?_⟩
  · rcases keptWith_eq_some.mp hkept with hnew | ⟨_, hold⟩
    · obtain ⟨state, hfound, heq⟩ := Option.map_eq_some_iff.mp hnew
      cases heq
      obtain ⟨hstate, hdomain⟩ := (stateOf_eq_some h.domains).mp hfound
      exact .inr ⟨state, hstate, hdomain, rfl, rfl⟩
    · exact .inl hold
  · simp [Written.archive, Archive.add, headWith, snapshotOf, stateOf_eq_none.mpr hidle]
  · rcases hfound : stateOf batch domainId with _ | state
    · simpa [Written.archive, Archive.add, headWith, snapshotOf, hfound] using hsome
    · simp [Written.archive, Archive.add, headWith, snapshotOf, hfound]

end

variable (retention : RetentionPolicy)

/-- **Commits and archives.**  Whatever fails, the tables of an archive become those of one
that follows it. -/
theorem commit_follows (haddressed : Addressed batch)
    (hinj : Set.InjOn keccak256 (nodeBytes batch)) (hA : Represents tables A) :
    MovesFrom (fun _ tables' => ∃ B, Represents tables' B ∧ Follows batch.states A B) tables
      (commit retention batch) := by
  have hstay : ∃ B, Represents tables B ∧ Follows batch.states A B := ⟨A, hA, .refl A⟩
  refine (readOnly_prepare batch).movesFrom hstay fun prepared hprepared => ?_
  have hwritten := (written_of_prepare hprepared).1
  refine movesFrom_commit_bind hstay fun faults => ?_
  have hpass := thins_reportRetention retention batch prepared.2 (apply tables prepared.1) faults
  obtain ⟨B, hB, hthinned⟩ := hpass _ (hwritten.represents haddressed hinj hA)
  exact ⟨B, hB, (hwritten.follows haddressed hinj hA).thinned hthinned⟩

theorem commit_cases (batch : CommitBatch) (disk : Disk Column) :
    (∃ error faults, commit retention batch disk = .error error ⟨disk.tables, faults⟩)
    ∨ ∃ stats stats' transaction disk', commit retention batch disk = .ok stats' disk'
      ∧ value (prepare batch) disk.tables = .ok (transaction, stats)
      ∧ Standing (apply disk.tables transaction) disk'.tables
      ∧ Thins (apply disk.tables transaction) disk'.tables := by
  rw [commit]
  rcases (readOnly_prepare batch).cases _ disk with
    ⟨⟨transaction, stats⟩, faults, hprepared, _, hrun⟩ | ⟨error, faults, hrun, _⟩
  · rw [hrun]
    dsimp only
    rw [run_bind, Device.commit]
    rcases hfault : faults 0 with _ | what
    · rw [operate_ok hfault]
      have hstands := standing_reportRetention retention batch stats
        (apply disk.tables transaction) fun n => faults (n + 1)
      have hthins := thins_reportRetention retention batch stats
        (apply disk.tables transaction) fun n => faults (n + 1)
      obtain ⟨stats', disk', hreport⟩ := reportRetention_ok retention batch stats
        ⟨apply disk.tables transaction, fun n => faults (n + 1)⟩
      rw [after, hreport] at hstands hthins
      exact .inr ⟨stats, stats', transaction, disk', hreport, hprepared, hstands, hthins⟩
    · rw [operate_error hfault]
      exact .inl ⟨_, _, rfl⟩
  · exact .inl ⟨error, faults, hrun⟩

/-- **What a commit leaves.**  A failed commit leaves the tables as they were; a successful one
has written the whole batch, and its retention pass leaves heads, marker and indexes standing. -/
theorem commit_outcome (batch : CommitBatch) (disk : Disk Column) :
    (∃ error faults, commit retention batch disk = .error error ⟨disk.tables, faults⟩)
    ∨ ∃ stats transaction disk', commit retention batch disk = .ok stats disk'
      ∧ Written disk.tables batch transaction
      ∧ Standing (apply disk.tables transaction) disk'.tables := by
  rcases commit_cases retention batch disk with
    hfailed | ⟨stats, stats', transaction, disk', hrun, hprepared, hstands, _⟩
  · exact .inl hfailed
  · exact .inr ⟨stats', transaction, disk', hrun, (written_of_prepare hprepared).1, hstands⟩

end Applied

end Arbor.Database
