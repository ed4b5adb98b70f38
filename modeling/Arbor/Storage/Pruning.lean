import Arbor.Storage.Commit

/-!
# Pruning never damages a retained root

A database is used through commits, prunes and retention passes, any of which may fail at
any of its operations on the device.  Throughout, what a stored manifest lists is stored
with the bytes that were committed, so that every recorded root can be walked, and the root
and the manifest of each head are there (`retained_roots_intact`).
-/

namespace Arbor.Database

open Result Device List

variable {tables : Tables Column}

theorem getElem?_nodeStore (tables : Tables Column) (hash : B256) :
    (nodeStore tables)[hash]? = look tables .trieNodes (toBytes hash) := by
  set key : Bytes → Option B256 := fun bytes =>
    if bytes.length = 32 then some (ofBytes 256 bytes) else none
  set entries := (tables .trieNodes).toList.filterMap fun entry =>
    if entry.1.length = 32 then some (ofBytes 256 entry.1, entry.2) else none with hentries
  have hkeys : entries.map Prod.fst = ((tables .trieNodes).toList.map Prod.fst).filterMap key := by
    rw [map_filterMap, filterMap_map]
    refine congrArg (fun f => filterMap f _) (funext fun entry => ?_)
    by_cases hlength : entry.1.length = 32 <;> simp [key, hlength]
  have hnodup : (entries.map Prod.fst).Nodup := by
    rw [hkeys]
    refine Nodup.filterMap (fun a b hash ha hb => ?_) (OrdMap.nodup_keys _)
    simp only [key, Option.mem_def, Option.ite_none_right_eq_some, Option.some.injEq] at ha hb
    have hback : ∀ {bytes : Bytes}, bytes.length = 32 → toBytes (ofBytes 256 bytes) = bytes :=
      fun hlength => toBytes_ofBytes (by omega)
    rw [← hback ha.1, ha.2, ← hb.2, hback hb.1]
  rcases hlook : look tables .trieNodes (toBytes hash) with _ | bytes
  · refine (OrdMap.getElem?_insertMany_of_not_mem _ fun hmem => ?_).trans
      Std.ExtTreeMap.getElem?_empty
    rw [hkeys, mem_filterMap] at hmem
    obtain ⟨bytes, hbytes, hkey⟩ := hmem
    obtain ⟨entry, hentry, rfl⟩ := mem_map.mp hbytes
    simp only [key, Option.ite_none_right_eq_some, Option.some.injEq] at hkey
    rw [← hkey.2, toBytes_ofBytes (by omega), look,
      Std.ExtTreeMap.mem_toList_iff_getElem?_eq_some.mp hentry] at hlook
    cases hlook
  · refine OrdMap.getElem?_insertMany_of_mem _ hnodup
      (mem_filterMap.mpr ⟨(toBytes hash, bytes), ?_, ?_⟩)
    · exact Std.ExtTreeMap.mem_toList_iff_getElem?_eq_some.mpr hlook
    · simp [ofBytes_toBytes (show 8 ∣ 256 by decide)]

/-! ## Opening -/

theorem Represents.schema [Keccak] {A : Archive} (h : Represents tables A) {changes : DbTransaction}
    (hkeys : ∀ change ∈ changes, change.column = .metadata ∧ change.key ∈ [KEY_SCHEMA, KEY_NETWORK,
      KEY_GENESIS]) : Represents (apply tables changes) A := by
  have hfirst : ∀ change ∈ changes, change.key.head? ∈ [some 0x73, some 0x6e, some 0x67] := by
    intro change hchange
    have hkey := (hkeys change hchange).2
    simp only [mem_cons, not_mem_nil, or_false] at hkey
    rcases hkey with hkey | hkey | hkey <;> rw [hkey] <;> decide
  have hother : ∀ {key : Bytes} {letter : Byte}, key.head? = some letter →
      some letter ∉ [some (0x73 : Byte), some 0x6e, some 0x67] →
      look (apply tables changes) .metadata key = look tables .metadata key := by
    intro key letter hkey hletter
    refine apply_untouched fun change hchange hat => hletter ?_
    rw [← hkey, ← hat.2]
    exact hfirst change hchange
  have hnodes : ∀ key, look (apply tables changes) .trieNodes key = look tables .trieNodes key :=
    fun key => apply_untouched fun change hchange hat => by
      rw [(hkeys change hchange).1] at hat
      cases hat.1
  have hrecords := h.records
  refine ⟨⟨fun d n => ?_, fun d n => ?_, fun d => ?_, hrecords.headKept, hrecords.checked,
    fun key hsome hstarts => ?_, fun key d hsome hstarts => ?_⟩,
    fun hash => (hnodes _).trans (h.nodes hash)⟩
  · rw [hother (head?_manifestKey d n) (by decide), hrecords.manifests]
  · rw [hother (head?_rootKey d n) (by decide), hrecords.roots]
  · rw [hother (head?_headKey d) (by decide), hrecords.heads]
  · rw [hother (head?_of_prefix_manifest hstarts) (by decide)] at hsome
    exact hrecords.manifestKeys key hsome hstarts
  · rw [hother (head?_of_prefix_root hstarts) (by decide)] at hsome
    exact hrecords.rootKeys key d hsome hstarts

theorem readOnly_identityHash (key : Bytes) (missing name : String) :
    ReadOnly .database (identityHash key missing name) := by
  refine (readOnly_get _ _).bind fun stored => ?_
  cases stored with
  | none => exact readOnly_check (.error _)
  | some bytes => exact readOnly_check _

theorem readOnly_readSchema : ReadOnly .database readSchema := by
  refine (readOnly_get _ _).bind fun stored => ?_
  cases stored with
  | none => exact readOnly_check (.error _)
  | some bytes => exact (readOnly_check _).bind fun _ => readOnly_pure _

def identityChanges (identity : DatabaseIdentity) : DbTransaction :=
  [⟨.metadata, KEY_SCHEMA, some (toBytes SCHEMA_VERSION)⟩,
    ⟨.metadata, KEY_NETWORK, some (toBytes identity.networkId)⟩,
    ⟨.metadata, KEY_GENESIS, some (toBytes identity.genesisHash)⟩]

variable (identity : DatabaseIdentity) (retention : RetentionPolicy)

/-- Opening writes at most the identity of the database. -/
theorem movesFrom_openDatabase {R : Tables Column → Tables Column → Prop} (hstay : R tables tables)
    (hmove : R tables (apply tables (identityChanges identity))) :
    MovesFrom R tables (openDatabase identity retention) := by
  refine (readOnly_check _).movesFrom hstay fun _ _ => ?_
  refine (readOnly_get _ _).movesFrom hstay fun schema _ => ?_
  cases schema with
  | none =>
    refine (readOnly_get _ _).movesFrom hstay fun _ _ => (readOnly_get _ _).movesFrom hstay
      fun _ _ => (readOnly_get _ _).movesFrom hstay fun _ _ =>
        (readOnly_check _).movesFrom hstay fun _ _ => ?_
    exact movesFrom_commit hstay hmove
  | some bytes =>
    exact (readOnly_readSchema.bind fun _ => (readOnly_check _).bind fun _ =>
      (readOnly_identityHash _ _ _).bind fun _ => (readOnly_identityHash _ _ _).bind fun _ =>
        readOnly_check _).stays hstay

theorem openDatabase_represents [Keccak] {A : Archive} (hA : Represents tables A) :
    MovesFrom (fun _ tables' => Represents tables' A) tables (openDatabase identity retention) :=
  movesFrom_openDatabase identity retention hA (hA.schema (by simp [identityChanges]))

/-! ## Runs -/

inductive Operation where
  | openDatabase (identity : DatabaseIdentity) (retention : RetentionPolicy)
  | commit (retention : RetentionPolicy) (batch : CommitBatch)
  | pruneRoot (domainId : DomainId) (height : U64)
  | applyRetention (retention : RetentionPolicy) (height : U64) (states : List DomainStateCommit)

def Operation.states : Operation → List DomainStateCommit
  | .commit _ batch => batch.states
  | _ => []

section Runs

variable [Keccak]

variable {A : Archive} {tables : Tables Column}

/-- The disk after an operation, which may have failed. -/
def Operation.perform (operation : Operation) (disk : Disk Column) : Disk Column :=
  match operation with
  | .openDatabase identity retention => after (Database.openDatabase identity retention) disk
  | .commit retention batch => after (Database.commit retention batch) disk
  | .pruneRoot domainId height => after (Database.pruneRoot domainId height) disk
  | .applyRetention retention height states =>
    after (Database.applyRetention retention height states) disk

def performAll (disk : Disk Column) (operations : List Operation) : Disk Column :=
  operations.foldl (fun disk operation => operation.perform disk) disk

/-- Committed snapshots hold their nodes under their hashes, which tell the nodes of one
commit apart. -/
def Operation.Valid : Operation → Prop
  | .commit _ batch => Addressed batch ∧ Set.InjOn keccak256 (nodeBytes batch)
  | _ => True

theorem Operation.follows {operation : Operation} (hvalid : operation.Valid) {disk : Disk Column}
    (hA : Represents disk.tables A) : ∃ B, Represents (operation.perform disk).tables B
      ∧ Follows operation.states A B := by
  cases operation with
  | openDatabase identity retention =>
    exact ⟨A, openDatabase_represents identity retention hA disk.faults, .refl A⟩
  | commit retention batch =>
    exact commit_follows retention hvalid.1 hvalid.2 hA disk.faults
  | pruneRoot domainId height =>
    obtain ⟨B, hB, hthinned⟩ := moves_pruneRoot domainId height disk.tables disk.faults A hA
    exact ⟨B, hB, (Follows.refl A).thinned hthinned⟩
  | applyRetention retention height states =>
    obtain ⟨B, hB, hthinned⟩ :=
      thins_applyRetention retention height states disk.tables disk.faults A hA
    exact ⟨B, hB, (Follows.refl A).thinned hthinned⟩

/-- A snapshot was committed for a domain at a height. -/
def Committed (operations : List Operation) (domainId : DomainId) (height : U64)
    (snapshot : TrieSnapshot) : Prop :=
  ∃ operation ∈ operations, ∃ state ∈ operation.states, state.domainId = domainId
    ∧ state.consensusHeight = height ∧ state.snapshot = snapshot

theorem recorded_empty : Recorded (fun _ => ∅ : Tables Column) (fun _ _ => none)
      (fun _ => none) := by
  have hempty : ∀ column key, look (fun _ => ∅ : Tables Column) column key = none :=
    fun _ _ => Std.ExtTreeMap.getElem?_empty
  refine ⟨fun d n => hempty _ _, fun d n => hempty _ _, fun d => hempty _ _, ?_, ?_, ?_, ?_⟩
  · intro d n h
    cases h
  · intro d n snapshot h
    cases h
  · intro key hsome
    cases hsome
  · intro key d hsome
    cases hsome

theorem represents_empty (faults : Nat → Option String) :
    Represents (⟨fun _ => ∅, faults⟩ : Disk Column).tables MarkSweep.Archive.empty :=
  ⟨recorded_empty, fun _ => Std.ExtTreeMap.getElem?_empty⟩

theorem exists_archive (operations : List Operation) (hvalid : ∀ op ∈ operations, op.Valid)
    (faults : Nat → Option String) :
    ∃ A, Represents (performAll ⟨fun _ => ∅, faults⟩ operations).tables A
      ∧ ∀ domainId height snapshot, A.kept domainId height = some snapshot →
        Committed operations domainId height snapshot := by
  induction operations using reverseRecOn with
  | nil => exact ⟨_, represents_empty faults, fun _ _ _ h => by cases h⟩
  | append_singleton operations operation ih =>
    obtain ⟨A, hA, hcommitted⟩ := ih fun op hop => hvalid op (mem_append_left _ hop)
    obtain ⟨B, hB, hfollows⟩ := Operation.follows (hvalid operation (by simp)) hA
    refine ⟨B, ?_, fun domainId height snapshot hkept => ?_⟩
    · rw [performAll, foldl_append]
      exact hB
    · rcases hfollows.kept domainId height snapshot hkept with hold | ⟨state, hstate, hsame⟩
      · obtain ⟨op, hop, hstates⟩ := hcommitted domainId height snapshot hold
        exact ⟨op, mem_append_left _ hop, hstates⟩
      · exact ⟨operation, by simp, state, hstate, hsame⟩

/-- Every recorded root stands with all it was made of. -/
structure Intact (operations : List Operation) (tables : Tables Column) : Prop where
  /-- Stored manifests can be read. -/
  manifests : ∀ key bytes, look tables .metadata key = some bytes → PREFIX_MANIFEST <+: key →
    ∃ domainId height manifest, key = manifestKey domainId height
      ∧ value (loadManifest domainId height) tables = .ok (some manifest)
  /-- What a manifest lists is stored as it was committed. -/
  listed : ∀ domainId height manifest,
    value (loadManifest domainId height) tables = .ok (some manifest) →
    ∃ snapshot, Committed operations domainId height snapshot ∧ manifest = manifestOf snapshot
      ∧ ∀ hash ∈ manifest.nodeHashes, ∃ bytes, snapshot.nodes[hash]? = some bytes
        ∧ value (get .trieNodes (toBytes hash)) tables = .ok (some bytes)
  /-- A recorded root can be walked, and so can every storage trie its snapshot carries. -/
  walks : ∀ domainId height root, value (stateRoot domainId height) tables = .ok root →
    ∃ snapshot, Committed operations domainId height snapshot ∧ root = snapshot.root
      ∧ value (loadManifest domainId height) tables = .ok (some (manifestOf snapshot))
      ∧ Trie.collectLeaves root (nodeStore tables) = .ok snapshot.leaves
      ∧ ∀ storageRoot leaves, Trie.collectLeaves storageRoot snapshot.nodes = .ok leaves →
        Trie.collectLeaves storageRoot (nodeStore tables) = .ok leaves
  /-- The root and the manifest of a head are there. -/
  heads : ∀ domainId height root, value (latestHead domainId) tables = .ok (some (height, root)) →
    value (stateRoot domainId height) tables = .ok root
      ∧ ∃ manifest, value (loadManifest domainId height) tables = .ok (some manifest)

variable {snapshot : TrieSnapshot}

theorem Represents.extends (hA : Represents tables A) {domainId : DomainId} {height : U64}
    (hkept : A.kept domainId height = some snapshot) :
    Trie.Extends snapshot.nodes (nodeStore tables) := by
  intro hash bytes hlisted
  rw [getElem?_nodeStore, hA.nodes]
  exact A.present domainId height snapshot hkept hash bytes hlisted

theorem Represents.walks (hA : Represents tables A) {domainId : DomainId} {height : U64}
    (hkept : A.kept domainId height = some snapshot) :
    Trie.collectLeaves snapshot.root (nodeStore tables) = .ok snapshot.leaves :=
  Trie.collectLeaves_carries (hA.extends hkept) _ _ (hA.records.checked _ _ _ hkept).walks

theorem Represents.intact (hA : Represents tables A) {operations : List Operation}
    (hcommitted : ∀ domainId height snapshot, A.kept domainId height = some snapshot → Committed
      operations domainId height snapshot) : Intact operations tables where
  manifests key bytes hlook hstarts := by
    obtain ⟨domainId, height, rfl⟩ := hA.records.manifestKeys key (by rw [hlook]; rfl) hstarts
    rw [hA.records.manifests, Option.map_eq_some_iff] at hlook
    obtain ⟨snapshot, hkept, _⟩ := hlook
    exact ⟨domainId, height, manifestOf snapshot, rfl, by rw [hA.records.loadManifest, hkept]; rfl⟩
  listed domainId height manifest hload := by
    rw [hA.records.loadManifest, Except.ok.injEq, Option.map_eq_some_iff] at hload
    obtain ⟨snapshot, hkept, rfl⟩ := hload
    refine ⟨snapshot, hcommitted _ _ _ hkept, rfl, fun hash hhash => ?_⟩
    obtain ⟨bytes, hbytes⟩ := mem_keys.mp hhash
    refine ⟨bytes, hbytes, ?_⟩
    rw [value_get, hA.nodes, A.present domainId height snapshot hkept hash bytes hbytes]
  walks domainId height root hroot := by
    rw [hA.records.stateRoot] at hroot
    rcases hkept : A.kept domainId height with _ | snapshot
    · rw [hkept] at hroot
      cases hroot
    · rw [hkept] at hroot
      cases hroot
      exact ⟨snapshot, hcommitted _ _ _ hkept, rfl, by rw [hA.records.loadManifest, hkept]; rfl,
        hA.walks hkept,
        fun storageRoot leaves => Trie.collectLeaves_carries (hA.extends hkept) storageRoot leaves⟩
  heads domainId height root hhead := by
    rw [hA.records.latestHead, Except.ok.injEq, headOf_eq_some] at hhead
    obtain ⟨_, snapshot, hkept, rfl⟩ := hhead
    refine ⟨?_, manifestOf snapshot, ?_⟩
    · rw [hA.records.stateRoot, hkept]
    · rw [hA.records.loadManifest, hkept]
      rfl

/-- **Pruning never damages a retained root.**  After any commits, prunes and retention
passes, with any failures of the device, every recorded root is intact; and no further
operation takes a head away, or changes the head of a domain it does not commit. -/
theorem retained_roots_intact (operations : List Operation)
    (hvalid : ∀ operation ∈ operations, operation.Valid) (faults : Nat → Option String) :
    Intact operations (performAll ⟨fun _ => ∅, faults⟩ operations).tables
    ∧ ∀ operation : Operation, operation.Valid → ∀ domainId height root,
      value (latestHead domainId) (performAll ⟨fun _ => ∅, faults⟩ operations).tables
        = .ok (some (height, root)) →
      (∃ height' root', value (latestHead domainId)
        (performAll ⟨fun _ => ∅, faults⟩ (operations ++ [operation])).tables
          = .ok (some (height', root')))
      ∧ ((∀ state ∈ operation.states, state.domainId ≠ domainId) →
        value (latestHead domainId)
          (performAll ⟨fun _ => ∅, faults⟩ (operations ++ [operation])).tables
            = .ok (some (height, root))) := by
  obtain ⟨A, hA, hcommitted⟩ := exists_archive operations hvalid faults
  refine ⟨hA.intact hcommitted, fun operation hoperation domainId height root hhead => ?_⟩
  rw [hA.records.latestHead, Except.ok.injEq, headOf_eq_some] at hhead
  obtain ⟨hstamp, snapshot, hkept, hroot⟩ := hhead
  obtain ⟨B, hB, hfollows⟩ := operation.follows hoperation hA
  have hrun : performAll ⟨fun _ => ∅, faults⟩ (operations ++ [operation])
      = operation.perform (performAll ⟨fun _ => ∅, faults⟩ operations) := by
    rw [performAll, foldl_append]
    rfl
  rw [hrun, hB.records.latestHead]
  simp only [Except.ok.injEq, headOf_eq_some]
  constructor
  · obtain ⟨height', hheight'⟩ := Option.isSome_iff_exists.mp
      (hfollows.headed domainId (by rw [hstamp]; rfl))
    obtain ⟨snapshot', hkept'⟩ := B.headKept domainId height' hheight'
    exact ⟨height', snapshot'.root, hheight', snapshot', hkept', rfl⟩
  · intro hidle
    have hheight : B.head domainId = some height := (hfollows.idle domainId hidle).trans hstamp
    obtain ⟨snapshot', hkept'⟩ := B.headKept domainId height hheight
    refine ⟨hheight, snapshot', hkept', ?_⟩
    rcases hfollows.kept domainId height snapshot' hkept' with hold | ⟨state, hstate, hdomain, _⟩
    · rw [hkept] at hold
      cases hold
      exact hroot
    · exact absurd hdomain (hidle state hstate)

end Runs

/-! ## A run -/

section Sample

attribute [local instance] rollingKeccak

def leafSnapshot (value : Byte) : TrieSnapshot :=
  match Trie.build ((∅ : Leaves).insert 1 [value]) with
  | .ok snapshot => snapshot
  | .error _ => ⟨0, ∅, ∅⟩

def leafBatch (height : Nat) : CommitBatch where
  marker := ⟨BitVec.ofNat 64 height, 0, 0⟩
  states := [⟨7, BitVec.ofNat 64 height, leafSnapshot (BitVec.ofNat 8 height)⟩]

def leafOperations : List Operation :=
  [.openDatabase ⟨1, 2⟩ .archive, .commit .archive (leafBatch 1), .commit .archive (leafBatch 2),
    .pruneRoot 7 1]

theorem leafBatch_valid (retention : RetentionPolicy) {height : Nat} (h : height ∈ [1, 2]) :
    (Operation.commit retention (leafBatch height)).Valid := by
  have hbytes : ∀ height ∈ [1, 2], ∀ p ∈ (leafSnapshot (BitVec.ofNat 8 height)).nodes.toList,
      keccak256 p.2 = p.1 ∧ ∀ q ∈ (leafSnapshot (BitVec.ofNat 8 height)).nodes.toList,
        keccak256 p.2 = keccak256 q.2 → p.2 = q.2 := by decide +kernel
  constructor
  · intro state hstate node hnode
    rw [mem_singleton.mp hstate] at hnode
    exact (hbytes height h node hnode).1
  · rintro _ ⟨state, hstate, p, hp, rfl⟩ _ ⟨state', hstate', q, hq, rfl⟩ heq
    rw [mem_singleton.mp hstate] at hp
    rw [mem_singleton.mp hstate'] at hq
    exact (hbytes height h p hp).2 q hq heq

/-- The second root can be walked after the first one was pruned. -/
theorem retained_roots_intact_pruned :
    value (stateRoot 7 2) (performAll ⟨fun _ => ∅, never⟩ leafOperations).tables
      = .ok (leafSnapshot 2).root
    ∧ (look (performAll ⟨fun _ => ∅, never⟩ leafOperations).tables .metadata (rootKey 7 1)) = none
    ∧ ∃ leaves, Trie.collectLeaves (leafSnapshot 2).root
        (nodeStore (performAll ⟨fun _ => ∅, never⟩ leafOperations).tables) = .ok leaves := by
  have hvalid : ∀ operation ∈ leafOperations, operation.Valid := by
    intro operation hmem
    simp only [leafOperations, mem_cons, not_mem_nil, or_false] at hmem
    rcases hmem with rfl | rfl | rfl | rfl
    · trivial
    · exact leafBatch_valid _ (by decide)
    · exact leafBatch_valid _ (by decide)
    · trivial
  have hroot : value (stateRoot 7 2) (performAll ⟨fun _ => ∅, never⟩ leafOperations).tables
      = .ok (leafSnapshot 2).root := by decide +kernel
  obtain ⟨hintact, -⟩ := retained_roots_intact leafOperations hvalid never
  obtain ⟨snapshot, -, -, -, hwalk, -⟩ := hintact.walks 7 2 (leafSnapshot 2).root hroot
  exact ⟨hroot, by decide +kernel, snapshot.leaves, hwalk⟩

end Sample

end Arbor.Database
