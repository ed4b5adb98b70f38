import Arbor.Storage.Pruning

/-!
# The flat cache agrees with the trie

Beside the tries a database keeps the leaves of each domain's head under flat keys.  A commit
takes out the leaves that the manifest of the old head lists and the new one lacks, not what
the cache holds; so what is in the cache has to be listed by the head.  That is the invariant
here (`Cached`): after any commits, clears and rebuilds every entry of the cache is a leaf of
its domain's head, whatever the device lets fail.
-/

namespace Arbor.Database

open Result Device Canonical MarkSweep

theorem flatKey_inj {domainId domainId' : DomainId} {key key' : B256}
    (h : flatKey domainId key = flatKey domainId' key') : domainId = domainId' ∧ key = key' := by
  obtain ⟨hdomain, hkey⟩ := List.append_inj h (by simp)
  exact ⟨toBytes_injective (by decide) hdomain, toBytes_injective (by decide) hkey⟩

theorem prefix_flatKey_iff {domainId domainId' : DomainId} {key : B256} :
    toBytes domainId <+: flatKey domainId' key ↔ domainId = domainId' := by
  constructor
  · rintro ⟨rest, h⟩
    exact toBytes_injective (by decide) (List.append_inj_left h (by simp))
  · rintro rfl
    exact List.prefix_append _ _

section Cache

variable {tables : Tables Column} {A B : Archive} {batch : CommitBatch}
  {transaction : DbTransaction}

variable {height : U64} {state : DomainStateCommit} {domainId : DomainId} {snapshot : TrieSnapshot}
  {change : Change Column} {key : Bytes} {leaves : Leaves} {disk : Disk Column}

/-! ## The lines of a commit -/

/-- The lines of a transaction that move the cache of one domain to a new state. -/
def flatChanges (state : DomainStateCommit) (oldKeys : List B256) : DbTransaction :=
  (oldKeys.filter fun key => key ∉ state.snapshot.leaves).map
      (fun key => ⟨.flatState, flatKey state.domainId key, none⟩)
    ++ state.snapshot.leaves.toList.map
      (fun leaf => ⟨.flatState, flatKey state.domainId leaf.1, some leaf.2⟩)

/-- The lines for the cache are those of the given states, made from their old leaf keys. -/
def FlatLines (tables : Tables Column) (states : List DomainStateCommit)
    (transaction : DbTransaction) : Prop :=
  ∀ change : Change Column, change.column = .flatState → (change ∈ transaction ↔
    ∃ state ∈ states, ∃ oldKeys, value (oldLeafKeys state.domainId) tables = .ok oldKeys
      ∧ change ∈ flatChanges state oldKeys)

/-- The lines that bring leaves into the cache of a domain. -/
def fillChanges (domainId : DomainId) (leaves : Leaves) : DbTransaction :=
  leaves.toList.map fun leaf => ⟨.flatState, flatKey domainId leaf.1, some leaf.2⟩

theorem mem_fillChanges :
    change ∈ fillChanges domainId leaves ↔ ∃ key bytes, leaves[key]? = some bytes
      ∧ change = ⟨.flatState, flatKey domainId key, some bytes⟩ := by
  rw [fillChanges, List.mem_map]
  constructor
  · rintro ⟨leaf, hleaf, rfl⟩
    exact ⟨leaf.1, leaf.2, Std.ExtTreeMap.mem_toList_iff_getElem?_eq_some.mp hleaf, rfl⟩
  · rintro ⟨key, bytes, hleaf, rfl⟩
    exact ⟨(key, bytes), Std.ExtTreeMap.mem_toList_iff_getElem?_eq_some.mpr hleaf, rfl⟩

theorem mem_flatChanges {oldKeys : List B256} : change ∈ flatChanges state oldKeys ↔
      (∃ key ∈ oldKeys, state.snapshot.leaves[key]? = none
        ∧ change = ⟨.flatState, flatKey state.domainId key, none⟩)
      ∨ ∃ key bytes, state.snapshot.leaves[key]? = some bytes
        ∧ change = ⟨.flatState, flatKey state.domainId key, some bytes⟩ := by
  rw [flatChanges, List.mem_append, List.mem_map]
  refine or_congr ?_ mem_fillChanges
  constructor
  · rintro ⟨key, hkey, rfl⟩
    obtain ⟨hold, hnew⟩ := List.mem_filter.mp hkey
    refine ⟨key, hold, ?_, rfl⟩
    exact Std.ExtTreeMap.getElem?_eq_none (of_decide_eq_true hnew)
  · rintro ⟨key, hold, hnew, rfl⟩
    refine ⟨key, List.mem_filter.mpr ⟨hold, decide_eq_true fun hmem => ?_⟩, rfl⟩
    obtain ⟨bytes, hbytes⟩ := OrdMap.mem_iff_exists.mp hmem
    rw [hnew] at hbytes
    cases hbytes

theorem key_of_mem_flatChanges {oldKeys : List B256} (h : change ∈ flatChanges state oldKeys) :
    ∃ key, change.key = flatKey state.domainId key
      ∧ change.value = state.snapshot.leaves[key]? := by
  rcases mem_flatChanges.mp h with ⟨key, _, hnone, rfl⟩ | ⟨key, bytes, hsome, rfl⟩
  · exact ⟨key, rfl, hnone.symm⟩
  · exact ⟨key, rfl, hsome.symm⟩

theorem FlatLines.look_idle (h : FlatLines tables batch.states transaction)
    (hidle : ∀ state ∈ batch.states, ∀ secureKey, key ≠ flatKey state.domainId secureKey) :
    look (apply tables transaction) .flatState key = look tables .flatState key := by
  refine apply_untouched ?_
  rintro change hchange ⟨hcolumn, rfl⟩
  obtain ⟨state, hstate, oldKeys, _, hline⟩ := (h change hcolumn).mp hchange
  obtain ⟨secureKey, hkey, _⟩ := key_of_mem_flatChanges hline
  exact hidle state hstate secureKey hkey

/-! ## The invariant -/

/-- Every entry of the cache is a leaf of the head of its domain. -/
def Cached (tables : Tables Column) (A : Archive) : Prop :=
  ∀ key bytes, look tables .flatState key = some bytes → ∃ domainId secureKey height snapshot,
    key = flatKey domainId secureKey ∧ A.head domainId = some height
      ∧ A.kept domainId height = some snapshot ∧ snapshot.leaves[secureKey]? = some bytes

theorem Cached.thinned (h : Cached tables A) (hthinned : A.Thinned B) {tables' : Tables Column}
    (hflat : ∀ key, look tables' .flatState key = look tables .flatState key) :
    Cached tables' B := by
  intro key bytes hlook
  rw [hflat] at hlook
  obtain ⟨domainId, secureKey, height, snapshot, hkey, hhead, hkept, hleaf⟩ := h key bytes hlook
  have hheadB : B.head domainId = some height := by rw [hthinned.head, hhead]
  obtain ⟨snapshot', hkept'⟩ := B.headKept domainId height hheadB
  have hsame := hthinned.kept domainId height snapshot' hkept'
  rw [hkept] at hsame
  cases hsame
  exact ⟨domainId, secureKey, height, snapshot, hkey, hheadB, hkept', hleaf⟩

/-! ## Clearing and rebuilding -/

/-- The lines that clear the cache of a domain. -/
def clearChanges (tables : Tables Column) (domainId : DomainId) : DbTransaction :=
  (scan (tables .flatState) (toBytes domainId)).map fun entry => ⟨.flatState, entry.1, none⟩

theorem look_clear (domainId : DomainId) (key : Bytes) :
    look (apply tables (clearChanges tables domainId)) .flatState key
      = if toBytes domainId <+: key then none else look tables .flatState key := by
  have hline : ∀ change ∈ clearChanges tables domainId, toBytes domainId <+: change.key
      ∧ change.value = none := by
    intro change hchange
    obtain ⟨entry, hentry, rfl⟩ := List.mem_map.mp hchange
    exact ⟨(mem_scan.mp hentry).2, rfl⟩
  split
  · rename_i hstarts
    by_cases hnamed : ∃ change ∈ clearChanges tables domainId, change.column = .flatState
        ∧ change.key = key
    · exact apply_settled hnamed fun change hchange _ _ => (hline change hchange).2
    · rw [apply_untouched fun change hchange hat => hnamed ⟨change, hchange, hat⟩]
      rcases hlook : look tables .flatState key with _ | bytes
      · rfl
      · have hentry : (key, bytes) ∈ scan (tables .flatState) (toBytes domainId) :=
          mem_scan.mpr ⟨hlook, hstarts⟩
        exact absurd ⟨_, List.mem_map_of_mem hentry, rfl, rfl⟩ hnamed
  · rename_i hforeign
    refine apply_untouched ?_
    rintro change hchange ⟨_, rfl⟩
    exact hforeign (hline change hchange).1

theorem Cached.clear (h : Cached tables A) (domainId : DomainId) :
    Cached (apply tables (clearChanges tables domainId)) A := by
  intro key bytes hlook
  rw [look_clear] at hlook
  split at hlook
  · cases hlook
  · exact h key bytes hlook

variable {R : Tables Column → Tables Column → Prop}

theorem movesFrom_clearFlatState (hstay : R tables tables)
    (domainId : DomainId) (hmove : R tables (apply tables (clearChanges tables domainId))) :
    MovesFrom R tables (clearFlatState domainId) := by
  refine (readOnly_entries _ _).movesFrom hstay fun entries hentries => ?_
  cases hentries
  exact (movesFrom_commit hstay hmove).map _

theorem column_of_mem_fillChanges :
    ∀ change ∈ fillChanges domainId leaves, change.column = .flatState := by
  intro change hchange
  obtain ⟨_, _, _, rfl⟩ := mem_fillChanges.mp hchange
  rfl

theorem look_fill_other (hother : ∀ secureKey, key ≠ flatKey domainId secureKey) :
    look (apply tables (fillChanges domainId leaves)) .flatState key
      = look tables .flatState key := by
  refine apply_untouched ?_
  rintro change hchange ⟨_, rfl⟩
  obtain ⟨secureKey, bytes, _, rfl⟩ := mem_fillChanges.mp hchange
  exact hother secureKey rfl

theorem Cached.look_fill (h : Cached tables A) (hhead : A.head domainId = some height)
    (hkept : A.kept domainId height = some snapshot) (secureKey : B256) :
    look (apply tables (fillChanges domainId snapshot.leaves)) .flatState
      (flatKey domainId secureKey)
      = snapshot.leaves[secureKey]? := by
  rcases hleaf : snapshot.leaves[secureKey]? with _ | bytes
  · rw [apply_untouched]
    · rcases hlook : look tables .flatState (flatKey domainId secureKey) with _ | bytes
      · rfl
      · obtain ⟨owner, key, height', snapshot', hkey, hhead', hkept', hleaf'⟩ := h _ _ hlook
        obtain ⟨rfl, rfl⟩ := flatKey_inj hkey
        rw [hhead] at hhead'
        cases hhead'
        rw [hkept] at hkept'
        cases hkept'
        rw [hleaf] at hleaf'
        cases hleaf'
    · rintro change hchange ⟨_, hkey⟩
      obtain ⟨key, bytes, hbytes, rfl⟩ := mem_fillChanges.mp hchange
      obtain ⟨_, rfl⟩ := flatKey_inj hkey
      rw [hleaf] at hbytes
      cases hbytes
  · refine apply_settled ⟨_, mem_fillChanges.mpr ⟨secureKey, bytes, hleaf, rfl⟩, rfl, rfl⟩ ?_
    intro change hchange _ hkey
    obtain ⟨key, bytes', hbytes', rfl⟩ := mem_fillChanges.mp hchange
    obtain ⟨_, rfl⟩ := flatKey_inj hkey
    rw [hleaf] at hbytes'
    exact hbytes'.symm

theorem Cached.fill (h : Cached tables A) (hhead : A.head domainId = some height)
    (hkept : A.kept domainId height = some snapshot) :
    Cached (apply tables (fillChanges domainId snapshot.leaves)) A := by
  intro key bytes hlook
  by_cases hnamed : ∃ secureKey, key = flatKey domainId secureKey
  · obtain ⟨secureKey, rfl⟩ := hnamed
    rw [h.look_fill hhead hkept] at hlook
    exact ⟨domainId, secureKey, height, snapshot, rfl, hhead, hkept, hlook⟩
  · rw [look_fill_other fun secureKey hkey => hnamed ⟨secureKey, hkey⟩] at hlook
    exact h key bytes hlook

/-! ## Commits -/

variable [Keccak]

theorem FlatLines.step {done : List DomainStateCommit} {pending pending' : Pending}
    (hI : FlatLines tables done pending.transaction)
    (h : value (appendState height pending state) tables = .ok pending') :
    FlatLines tables (done ++ [state]) pending'.transaction := by
  obtain ⟨_, _, middle, oldKeys, hmiddle, holdKeys, _, _, htransaction⟩ := appendState_eq_ok h
  intro change hcolumn
  have hrecords : change ∈ stateChanges state oldKeys (manifestBytes (manifestOf state.snapshot))
      ↔ change ∈ flatChanges state oldKeys := by
    refine List.mem_append.trans (or_iff_left ?_)
    intro hrecord
    rw [column_of_mem_stateRecords hrecord] at hcolumn
    cases hcolumn
  rw [htransaction, List.mem_append, hrecords,
    appendNodes_others hmiddle (by rw [hcolumn]; decide), hI change hcolumn]
  constructor
  · rintro (⟨other, hother, hline⟩ | hline)
    · exact ⟨other, List.mem_append_left _ hother, hline⟩
    · exact ⟨state, by simp, oldKeys, holdKeys, hline⟩
  · rintro ⟨other, hother, keys, hkeys, hline⟩
    rcases List.mem_append.mp hother with hold | hnew
    · exact .inl ⟨other, hold, keys, hkeys, hline⟩
    · rw [List.mem_singleton.mp hnew] at hkeys hline
      rw [holdKeys] at hkeys
      cases hkeys
      exact .inr hline

theorem flatLines_of_prepare {stats : CommitStats}
    (h : value (prepare batch) tables = .ok (transaction, stats)) :
    FlatLines tables batch.states transaction := by
  obtain ⟨pending, hprepared, rfl⟩ := prepared_of_prepare h
  have hstart : FlatLines tables [] (⟨[], ∅, {}⟩ : Pending).transaction := by
    intro change _
    simp
  have hstates := foldlM_invariant
      (I := fun done pending => FlatLines tables done pending.transaction)
    (fun _ _ _ _ hI h => hI.step h) [] hstart hprepared.states
  rw [List.nil_append] at hstates
  intro change hcolumn
  rw [hprepared.lines change (by rw [hcolumn]; decide), ← hstates change hcolumn]
  constructor
  · rintro ((((hline | ⟨_, _, rfl⟩) | ⟨_, _, rfl⟩) | ⟨_, _, rfl⟩) | rfl)
    · exact hline
    all_goals cases hcolumn
  · exact fun hline => .inl (.inl (.inl (.inl hline)))

variable {kept : DomainId → U64 → Option TrieSnapshot} {head : DomainId → Option U64}

/-- The keys a commit takes for old are those of the head. -/
theorem Recorded.oldLeafKeys (h : Recorded tables kept head)
    (hhead : head domainId = some height) (hkept : kept domainId height = some snapshot) :
    value (oldLeafKeys domainId) tables = .ok snapshot.leaves.keys := by
  have hrecorded : headOf kept head domainId = some (height, snapshot.root) :=
    headOf_eq_some.mpr ⟨hhead, snapshot, hkept, rfl⟩
  rw [Database.oldLeafKeys, value_bind (readOnly_latestHead _), h.latestHead, ok_bind, hrecorded]
  rw [value_bind (readOnly_loadManifest _ _), h.loadManifest, hkept]
  rfl

theorem Recorded.exists_oldLeafKeys (h : Recorded tables kept head) (domainId : DomainId) :
    ∃ keys, value (Database.oldLeafKeys domainId) tables = .ok keys := by
  rcases hhead : head domainId with _ | height
  · refine ⟨[], ?_⟩
    rw [Database.oldLeafKeys, value_bind (readOnly_latestHead _), h.latestHead, headOf, hhead]
    rfl
  · obtain ⟨snapshot, hkept⟩ := h.headKept domainId height hhead
    exact ⟨_, h.oldLeafKeys hhead hkept⟩

theorem FlatLines.look_state (h : FlatLines tables batch.states transaction)
    (hdomains : (batch.states.map (·.domainId)).Nodup) (hA : Represents tables A)
    (hcached : Cached tables A) (hstate : state ∈ batch.states) (secureKey : B256) :
    look (apply tables transaction) .flatState (flatKey state.domainId secureKey)
      = state.snapshot.leaves[secureKey]? := by
  have hall : ∀ change ∈ transaction, change.column = .flatState →
      change.key = flatKey state.domainId secureKey →
      change.value = state.snapshot.leaves[secureKey]? := by
    intro change hchange hcolumn hkey
    obtain ⟨other, hother, oldKeys, _, hline⟩ := (h change hcolumn).mp hchange
    obtain ⟨otherKey, hotherKey, hvalue⟩ := key_of_mem_flatChanges hline
    obtain ⟨hdomain, rfl⟩ := flatKey_inj (hotherKey.symm.trans hkey)
    rw [hvalue, List.inj_on_of_nodup_map hdomains hother hstate hdomain]
  by_cases hnamed : ∃ change ∈ transaction, change.column = .flatState
      ∧ change.key = flatKey state.domainId secureKey
  · exact apply_settled hnamed hall
  obtain ⟨oldKeys, holdKeys⟩ := hA.records.exists_oldLeafKeys state.domainId
  have hunnamed : ∀ value, (⟨.flatState, flatKey state.domainId secureKey, value⟩ : Change Column)
      ∉ flatChanges state oldKeys := fun value hline =>
    hnamed ⟨_, (h _ rfl).mpr ⟨state, hstate, oldKeys, holdKeys, hline⟩, rfl, rfl⟩
  have hnew : state.snapshot.leaves[secureKey]? = none := by
    rcases hleaf : state.snapshot.leaves[secureKey]? with _ | bytes
    · rfl
    · exact absurd (mem_flatChanges.mpr (.inr ⟨secureKey, bytes, hleaf, rfl⟩)) (hunnamed _)
  rw [apply_untouched fun change hchange hat => hnamed ⟨change, hchange, hat⟩, hnew]
  rcases hlook : look tables .flatState (flatKey state.domainId secureKey) with _ | bytes
  · rfl
  · obtain ⟨domainId, key, height, snapshot, hkey, hhead, hkept, hleaf⟩ := hcached _ _ hlook
    obtain ⟨rfl, rfl⟩ := flatKey_inj hkey
    rw [hA.records.oldLeafKeys hhead hkept] at holdKeys
    cases holdKeys
    have hlisted : secureKey ∈ snapshot.leaves.keys := mem_keys.mpr ⟨bytes, hleaf⟩
    exact absurd (mem_flatChanges.mpr (.inl ⟨secureKey, hlisted, hnew, rfl⟩)) (hunnamed none)

theorem Written.cached (h : Written tables batch transaction)
    (hlines : FlatLines tables batch.states transaction) (haddressed : Addressed batch)
    (hinj : Set.InjOn keccak256 (nodeBytes batch)) (hA : Represents tables A)
    (hcached : Cached tables A) :
    Cached (apply tables transaction) (h.archive haddressed hinj hA) := by
  intro key bytes hlook
  by_cases hnamed : ∃ state ∈ batch.states, ∃ secureKey, key = flatKey state.domainId secureKey
  · obtain ⟨state, hstate, secureKey, rfl⟩ := hnamed
    rw [hlines.look_state h.domains hA hcached hstate] at hlook
    have hfound : snapshotOf batch state.domainId
        = some (state.consensusHeight, state.snapshot) := by
      rw [snapshotOf, (stateOf_eq_some h.domains).mpr ⟨hstate, rfl⟩]
      rfl
    refine ⟨state.domainId, secureKey, state.consensusHeight, state.snapshot, rfl, ?_, ?_, hlook⟩
    · simp [Written.archive, Archive.add, headWith, hfound]
    · exact keptWith_eq_some.mpr (.inl hfound)
  · have hidle : ∀ state ∈ batch.states, ∀ secureKey, key ≠ flatKey state.domainId secureKey :=
      fun state hstate secureKey hkey => hnamed ⟨state, hstate, secureKey, hkey⟩
    rw [hlines.look_idle hidle] at hlook
    obtain ⟨domainId, secureKey, height, snapshot, rfl, hhead, hkept, hleaf⟩ :=
      hcached key bytes hlook
    have hnone : snapshotOf batch domainId = none := by
      rw [snapshotOf, stateOf_eq_none.mpr fun state hstate hdomain =>
        hidle state hstate secureKey (by rw [hdomain])]
      rfl
    refine ⟨domainId, secureKey, height, snapshot, rfl, ?_, ?_, hleaf⟩
    · simp [Written.archive, Archive.add, headWith, hnone, hhead]
    · exact keptWith_eq_some.mpr (.inr ⟨by simp [hnone], hkept⟩)

/-- A transaction on the cache alone leaves the archive. -/
theorem Represents.of_flat (hA : Represents tables A) {changes : DbTransaction}
    (hflat : ∀ change ∈ changes, change.column = .flatState) :
    Represents (apply tables changes) A := by
  have hother : ∀ column key, column ≠ .flatState →
      look (apply tables changes) column key = look tables column key := by
    refine fun column key hcolumn => apply_untouched ?_
    rintro change hchange ⟨rfl, _⟩
    exact hcolumn (hflat change hchange)
  have hmeta := fun key => hother .metadata key (by decide)
  have hrecords := hA.records
  refine ⟨⟨fun d n => ?_, fun d n => ?_, fun d => ?_, hrecords.headKept, hrecords.checked,
    fun key hsome => ?_, fun key d hsome => ?_⟩, fun hash => ?_⟩
  · rw [hmeta, hrecords.manifests]
  · rw [hmeta, hrecords.roots]
  · rw [hmeta, hrecords.heads]
  · rw [hmeta] at hsome
    exact hrecords.manifestKeys key hsome
  · rw [hmeta] at hsome
    exact hrecords.rootKeys key d hsome
  · rw [hother .trieNodes _ (by decide), hA.nodes]

/-! ## The head of a domain -/

/-- The leaves of the trie below the head of a domain. -/
def HeadLeaves (tables : Tables Column) (domainId : DomainId) (leaves : Leaves) : Prop :=
  ∃ height root, value (latestHead domainId) tables = .ok (some (height, root))
    ∧ Trie.collectLeaves root (nodeStore tables) = .ok leaves

theorem Represents.headLeaves (hA : Represents tables A) (hhead : A.head domainId = some height)
    (hkept : A.kept domainId height = some snapshot) :
    HeadLeaves tables domainId snapshot.leaves := by
  refine ⟨height, snapshot.root, ?_, hA.walks hkept⟩
  rw [hA.records.latestHead, headOf_eq_some.mpr ⟨hhead, snapshot, hkept, rfl⟩]

theorem Represents.of_latestHead (hA : Represents tables A) {root : B256}
    (h : value (latestHead domainId) tables = .ok (some (height, root))) :
    ∃ snapshot, A.head domainId = some height ∧ A.kept domainId height = some snapshot
      ∧ Trie.collectLeaves root (nodeStore tables) = .ok snapshot.leaves := by
  rw [hA.records.latestHead, Except.ok.injEq, headOf_eq_some] at h
  obtain ⟨hhead, snapshot, hkept, rfl⟩ := h
  exact ⟨snapshot, hhead, hkept, hA.walks hkept⟩

/-! ## Runs -/

/-- What is done with a database and its cache. -/
inductive CacheOperation where
  | stored (operation : Operation)
  | clear (domainId : DomainId)
  | rebuild (domainId : DomainId) (root : B256)

namespace CacheOperation

/-- The disk after an operation, which may have failed. -/
def perform (operation : CacheOperation) (disk : Disk Column) : Disk Column :=
  match operation with
  | .stored operation => operation.perform disk
  | .clear domainId => after (clearFlatState domainId) disk
  | .rebuild domainId root => after (rebuildFlatState domainId root) disk

/-- The domains an operation commits, clears or rebuilds. -/
def Concerns (domainId : DomainId) : CacheOperation → Prop
  | .stored operation => ∃ state ∈ operation.states, state.domainId = domainId
  | .clear cleared => cleared = domainId
  | .rebuild rebuilt _ => rebuilt = domainId

/-- Commits bring nodes under their hashes; a rebuild is given the root of the domain's head. -/
def Allowed (tables : Tables Column) : CacheOperation → Prop
  | .stored operation => operation.Valid
  | .clear _ => True
  | .rebuild domainId root => ∃ height, value (latestHead domainId) tables
    = .ok (some (height, root))

end CacheOperation

/-- Disks reached from an empty database by allowed operations, any of which may fail. -/
inductive CacheRun : Disk Column → Prop
  | start (faults : Nat → Option String) : CacheRun ⟨fun _ => ∅, faults⟩
  | step {disk : Disk Column} {operation : CacheOperation} :
      CacheRun disk → operation.Allowed disk.tables → CacheRun (operation.perform disk)

theorem Operation.flat_idle (operation : Operation) (disk : Disk Column)
    (hidle : ∀ state ∈ operation.states, ∀ secureKey, key ≠ flatKey state.domainId secureKey) :
    look (operation.perform disk).tables .flatState key = look disk.tables .flatState key := by
  cases operation with
  | openDatabase identity retention =>
    refine movesFrom_openDatabase (R := fun tables tables' =>
      look tables' .flatState key = look tables .flatState key) identity retention rfl ?_
      disk.faults
    refine apply_untouched ?_
    rintro change hchange ⟨hcolumn, _⟩
    simp only [identityChanges, List.mem_cons, List.not_mem_nil, or_false] at hchange
    rcases hchange with rfl | rfl | rfl <;> cases hcolumn
  | commit retention batch =>
    rw [perform, after]
    rcases commit_cases retention batch disk with
      ⟨error, faults, hrun⟩ | ⟨stats, stats', transaction, disk', hrun, hprepared, hstands, _⟩
    · rw [hrun]
    · rw [hrun]
      exact (hstands.others _ _ (by decide) (by decide)).trans
        ((flatLines_of_prepare hprepared).look_idle hidle)
  | pruneRoot domainId height =>
    exact (standing_pruneRoot domainId height disk.tables disk.faults).others _ _ (by decide)
      (by decide)
  | applyRetention retention height states =>
    exact (moves_applyRetention standing_refl standing_trans standing_pruneRoot retention height
      states disk.tables disk.faults).others _ _ (by decide) (by decide)

/-- The tables hold an archive and a cache of its heads. -/
def Agrees (tables : Tables Column) : Prop := ∃ A, Represents tables A ∧ Cached tables A

theorem Agrees.stored (h : Agrees disk.tables) {operation : Operation} (hvalid : operation.Valid) :
    Agrees (operation.perform disk).tables := by
  obtain ⟨A, hA, hcached⟩ := h
  cases operation with
  | openDatabase identity retention =>
    refine ⟨A, openDatabase_represents identity retention hA disk.faults,
      hcached.thinned (.refl A) fun key => ?_⟩
    exact Operation.flat_idle (.openDatabase identity retention) disk
      (fun _ hmem => absurd hmem List.not_mem_nil)
  | commit retention batch =>
    rw [Operation.perform, after]
    rcases commit_cases retention batch disk with
      ⟨error, faults, hrun⟩ | ⟨stats, stats', transaction, disk', hrun, hprepared, hstands, hthins⟩
    · rw [hrun]
      exact ⟨A, hA, hcached⟩
    · rw [hrun]
      have hwritten := (written_of_prepare hprepared).1
      obtain ⟨B, hB, hthinned⟩ := hthins _ (hwritten.represents hvalid.1 hvalid.2 hA)
      refine ⟨B, hB, (hwritten.cached (flatLines_of_prepare hprepared) hvalid.1 hvalid.2 hA
        hcached).thinned hthinned fun key => ?_⟩
      exact hstands.others _ _ (by decide) (by decide)
  | pruneRoot domainId height =>
    obtain ⟨B, hB, hthinned⟩ := moves_pruneRoot domainId height disk.tables disk.faults A hA
    refine ⟨B, hB, hcached.thinned hthinned fun key => ?_⟩
    exact Operation.flat_idle (.pruneRoot domainId height) disk
      (fun _ hmem => absurd hmem List.not_mem_nil)
  | applyRetention retention height states =>
    obtain ⟨B, hB, hthinned⟩ :=
      thins_applyRetention retention height states disk.tables disk.faults A hA
    refine ⟨B, hB, hcached.thinned hthinned fun key => ?_⟩
    exact Operation.flat_idle (.applyRetention retention height states) disk
      (fun _ hmem => absurd hmem List.not_mem_nil)

theorem movesFrom_rebuildFlatState (hstay : R tables tables) (domainId : DomainId) (root : B256)
    (hmove : ∀ leaves, Trie.collectLeaves root (nodeStore tables) = .ok leaves →
      R tables (apply tables (fillChanges domainId leaves))) :
    MovesFrom R tables (rebuildFlatState domainId root) := by
  refine ReadOnly.movesFrom (readOnly_operate _) hstay fun walked hwalked => ?_
  refine (readOnly_check _).movesFrom hstay fun leaves hleaves => ?_
  rw [value_give, ← Except.ok.inj hwalked, mapError_eq_ok] at hleaves
  exact (movesFrom_commit hstay (hmove leaves hleaves)).map _

theorem Agrees.perform (h : Agrees disk.tables) {operation : CacheOperation}
    (hallowed : operation.Allowed disk.tables) : Agrees (operation.perform disk).tables := by
  cases operation with
  | stored operation => exact h.stored hallowed
  | clear domainId =>
    obtain ⟨A, hA, hcached⟩ := h
    refine movesFrom_clearFlatState (R := fun _ tables' => Agrees tables') ⟨A, hA, hcached⟩ domainId
      ⟨A, hA.of_flat fun change hchange => ?_, hcached.clear domainId⟩ disk.faults
    obtain ⟨_, _, rfl⟩ := List.mem_map.mp hchange
    rfl
  | rebuild domainId root =>
    obtain ⟨A, hA, hcached⟩ := h
    obtain ⟨height, hlatest⟩ := hallowed
    obtain ⟨snapshot, hhead, hkept, hwalks⟩ := hA.of_latestHead hlatest
    refine movesFrom_rebuildFlatState (R := fun _ tables' => Agrees tables') ⟨A, hA, hcached⟩
      domainId root (fun leaves hleaves => ?_) disk.faults
    rw [hwalks] at hleaves
    cases hleaves
    exact ⟨A, hA.of_flat column_of_mem_fillChanges, hcached.fill hhead hkept⟩

theorem CacheRun.agrees (h : CacheRun disk) : Agrees disk.tables := by
  induction h with
  | start faults =>
    refine ⟨_, represents_empty faults, fun key bytes hlook => ?_⟩
    cases hlook
  | step _ hallowed ih => exact ih.perform hallowed

/-- The entries of a domain are the leaves of its head. -/
def Complete (tables : Tables Column) (domainId : DomainId) : Prop :=
  ∃ leaves, HeadLeaves tables domainId leaves ∧
    ∀ secureKey, value (flatState domainId secureKey) tables = .ok leaves[secureKey]?

theorem complete_of_look (hA : Represents tables A) (hhead : A.head domainId = some height)
    (hkept : A.kept domainId height = some snapshot)
    (hlook : ∀ secureKey, look tables .flatState (flatKey domainId secureKey) =
      snapshot.leaves[secureKey]?) : Complete tables domainId := by
  refine ⟨snapshot.leaves, hA.headLeaves hhead hkept, fun secureKey => ?_⟩
  rw [flatState, value_get, hlook]

theorem Agrees.commit {disk' : Disk Column} (h : Agrees disk.tables) {retention : RetentionPolicy}
    {stats : CommitStats} (hvalid : (Operation.commit retention batch).Valid)
    (hrun : Database.commit retention batch disk = .ok stats disk')
    (hstate : state ∈ batch.states) : Complete disk'.tables state.domainId := by
  obtain ⟨A, hA, hcached⟩ := h
  rcases commit_cases retention batch disk with
    ⟨error, faults, hfailed⟩ | ⟨_, _, transaction, disk'', hdone, hprepared, hstands, hthins⟩
  · rw [hrun] at hfailed
    cases hfailed
  rw [hrun] at hdone
  cases hdone
  have hwritten := (written_of_prepare hprepared).1
  have hlines := flatLines_of_prepare hprepared
  obtain ⟨B, hB, hthinned⟩ := hthins _ (hwritten.represents hvalid.1 hvalid.2 hA)
  have hfound : snapshotOf batch state.domainId = some (state.consensusHeight, state.snapshot) := by
    rw [snapshotOf, (stateOf_eq_some hwritten.domains).mpr ⟨hstate, rfl⟩]
    rfl
  have hhead : B.head state.domainId = some state.consensusHeight := by
    rw [hthinned.head]
    simp [Written.archive, Archive.add, headWith, hfound]
  obtain ⟨snapshot, hkept⟩ := B.headKept _ _ hhead
  have hsame : snapshot = state.snapshot := by
    rcases keptWith_eq_some.mp (hthinned.kept _ _ _ hkept) with hnew | ⟨hother, _⟩
    · rw [hfound] at hnew
      cases hnew
      rfl
    · exact absurd rfl (hother _ _ hfound)
  refine complete_of_look hB hhead hkept fun secureKey => ?_
  rw [hstands.others _ _ (by decide) (by decide), hsame,
    hlines.look_state hwritten.domains hA hcached hstate]

theorem Agrees.rebuild {disk' : Disk Column} (h : Agrees disk.tables) {root : B256} {count : Nat}
    (hallowed : (CacheOperation.rebuild domainId root).Allowed disk.tables)
    (hrun : rebuildFlatState domainId root disk = .ok count disk') :
    Complete disk'.tables domainId := by
  obtain ⟨A, hA, hcached⟩ := h
  obtain ⟨height, hlatest⟩ := hallowed
  obtain ⟨snapshot, hhead, hkept, hwalks⟩ := hA.of_latestHead hlatest
  obtain ⟨walked, middle, hquery, hrun⟩ := run_bind_eq_ok.mp hrun
  obtain ⟨hwalked, hmiddle⟩ := (readOnly_operate _).of_ok hquery
  rw [value_operate, hwalks] at hwalked
  cases hwalked
  obtain ⟨leaves, hleaves, hrun⟩ := run_give_eq_ok.mp hrun
  cases mapError_eq_ok.mp hleaves
  obtain ⟨_, last, hcommit, hrun⟩ := run_bind_eq_ok.mp hrun
  cases hrun
  have htables : disk'.tables = apply disk.tables (fillChanges domainId snapshot.leaves) := by
    rw [tables_of_commit hcommit, hmiddle]
    rfl
  rw [htables]
  exact complete_of_look (hA.of_flat column_of_mem_fillChanges) hhead hkept
    (hcached.look_fill hhead hkept)

/-- **The flat cache agrees with the trie.**  Whatever was committed, cleared and rebuilt, and
whatever failed in it, every entry of the cache is a leaf of its domain's head; a commit of a
domain and a rebuild make its entries all these leaves; and no operation touches the entries of
a domain it does not concern. -/
theorem flat_cache_agrees {disk : Disk Column} (h : CacheRun disk) :
    (∀ key bytes, look disk.tables .flatState key = some bytes → ∃ domainId secureKey leaves,
      key = flatKey domainId secureKey ∧ HeadLeaves disk.tables domainId leaves
        ∧ leaves[secureKey]? = some bytes) ∧
    (∀ retention batch stats disk', (Operation.commit retention batch).Valid →
      commit retention batch disk = .ok stats disk' →
      ∀ state ∈ batch.states, Complete disk'.tables state.domainId) ∧
    (∀ domainId root count disk', (CacheOperation.rebuild domainId root).Allowed disk.tables →
      rebuildFlatState domainId root disk = .ok count disk' → Complete disk'.tables domainId) ∧
    ∀ (operation : CacheOperation) (domainId : DomainId), ¬operation.Concerns domainId →
      ∀ secureKey, look (operation.perform disk).tables .flatState (flatKey domainId secureKey)
        = look disk.tables .flatState (flatKey domainId secureKey) := by
  have hagrees := h.agrees
  refine ⟨fun key bytes hlook => ?_, fun _ _ _ _ hvalid hrun _ hstate =>
    hagrees.commit hvalid hrun hstate, fun _ _ _ _ hallowed hrun => hagrees.rebuild hallowed hrun,
    fun operation domainId hidle secureKey => ?_⟩
  · obtain ⟨A, hA, hcached⟩ := hagrees
    obtain ⟨domainId, secureKey, height, snapshot, hkey, hhead, hkept, hleaf⟩ :=
      hcached key bytes hlook
    exact ⟨domainId, secureKey, snapshot.leaves, hkey, hA.headLeaves hhead hkept, hleaf⟩
  · cases operation with
    | stored operation =>
      refine operation.flat_idle disk fun state hstate key hkey => hidle ⟨state, hstate, ?_⟩
      exact (flatKey_inj hkey).1.symm
    | clear cleared =>
      refine movesFrom_clearFlatState (R := fun tables tables' =>
        look tables' .flatState (flatKey domainId secureKey)
          = look tables .flatState (flatKey domainId secureKey)) rfl cleared ?_ disk.faults
      rw [look_clear, if_neg fun hstarts => hidle (prefix_flatKey_iff.mp hstarts)]
    | rebuild rebuilt root =>
      refine movesFrom_rebuildFlatState (R := fun tables tables' =>
        look tables' .flatState (flatKey domainId secureKey)
          = look tables .flatState (flatKey domainId secureKey)) rfl rebuilt root
        (fun leaves _ => ?_) disk.faults
      exact look_fill_other fun key hkey => hidle (flatKey_inj hkey).1.symm

end Cache

/-! ## A run -/

section Sample

attribute [local instance] rollingKeccak

def clearedDisk : Disk Column :=
  (CacheOperation.clear 7).perform
    ((CacheOperation.stored (.commit .archive (leafBatch 1))).perform ⟨fun _ => ∅, never⟩)

/-- The cleared cache is empty and gets its leaf back. -/
theorem flat_cache_agrees_rebuilt : value (flatState 7 1) clearedDisk.tables = .ok none
    ∧ Complete ((CacheOperation.rebuild 7 (leafSnapshot 1).root).perform clearedDisk).tables 7
    ∧ value (flatState 7 1)
      ((CacheOperation.rebuild 7 (leafSnapshot 1).root).perform clearedDisk).tables
        = .ok (some [1]) := by
  have hvalid : (CacheOperation.stored (.commit .archive (leafBatch 1))).Allowed
      (⟨fun _ => ∅, never⟩ : Disk Column).tables := leafBatch_valid .archive (by decide)
  have hrun : CacheRun clearedDisk := .step (.step (.start never) hvalid) trivial
  have hhead : value (latestHead 7) clearedDisk.tables = .ok (some (1, (leafSnapshot 1).root)) := by
    decide +kernel
  have hcount : returned (rebuildFlatState 7 (leafSnapshot 1).root) clearedDisk = .ok 1 := by
    decide +kernel
  refine ⟨by decide +kernel, ?_, by decide +kernel⟩
  exact (flat_cache_agrees hrun).2.2.1 7 (leafSnapshot 1).root 1
    (after (rebuildFlatState 7 (leafSnapshot 1).root) clearedDisk) ⟨1, hhead⟩
      (run_of_returned hcount)

end Sample

end Arbor.Database
