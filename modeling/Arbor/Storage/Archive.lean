import Arbor.Lib.MarkSweep
import Arbor.State.TrieStore
import Arbor.Storage.Records

/-!
# The database as an archive of snapshots

The tables of a database represent an archive: a snapshot for each recorded root, with the
domain's head among them, over one store of trie nodes (`Represents`).  Pruning a root is a
sweep of the archive, a commit adds its snapshots; a failed operation leaves the tables as
they are, and a retention pass that stops half-way has swept some roots.
-/

namespace Arbor.Database

open Result Reader Device Canonical MarkSweep List

/-! ## Reading programs -/

theorem readOnly_get (column : Column) (key : Bytes) : ReadOnly .database (get column key) :=
  Device.readOnly_get column key

theorem readOnly_check {α : Type} (result : Except StorageError α) :
    ReadOnly .database (give result : Storage α) :=
  readOnly_give result

theorem readOnly_finalizedMarker : ReadOnly .database finalizedMarker :=
  (readOnly_get _ _).bind fun _ => readOnly_give _

theorem readOnly_latestHead (domainId : DomainId) : ReadOnly .database (latestHead domainId) :=
  (readOnly_get _ _).bind fun _ => readOnly_give _

theorem readOnly_loadManifest (domainId : DomainId) (height : U64) :
    ReadOnly .database (loadManifest domainId height) :=
  (readOnly_get _ _).bind fun _ => readOnly_give _

theorem readOnly_liveNodeHashes (excluding : Option (DomainId × U64)) :
    ReadOnly .database (liveNodeHashes excluding) :=
  (readOnly_entries _ _).bind fun _ => readOnly_give _

theorem readOnly_rootHeights (domainId : DomainId) : ReadOnly .database (rootHeights domainId) :=
  (readOnly_entries _ _).bind fun _ => readOnly_give _

@[simp] theorem value_get (column : Column) (key : Bytes) (tables : Tables Column) :
    value (get column key) tables = .ok (look tables column key) :=
  Device.value_get column key tables

theorem value_finalizedMarker (tables : Tables Column) :
    value finalizedMarker tables = decoded decodeMarker (look tables .metadata KEY_MARKER) := by
  rw [finalizedMarker, value_bind (readOnly_get _ _), value_get, ok_bind, value_give]

/-- The head of a domain, from its record. -/
theorem value_latestHead (domainId : DomainId) (tables : Tables Column) :
    value (latestHead domainId) tables
      = decoded decodeHead (look tables .metadata (headKey domainId)) := by
  rw [latestHead, value_bind (readOnly_get _ _), value_get, ok_bind, value_give]

/-- The manifest of a root, from its record. -/
theorem value_loadManifest (domainId : DomainId) (height : U64) (tables : Tables Column) :
    value (loadManifest domainId height) tables = decoded ReachabilityManifest.decode
      (look tables .metadata (manifestKey domainId height)) := by
  rw [loadManifest, value_bind (readOnly_get _ _), value_get, ok_bind, value_give]

/-! ## Records -/

/-- What a commit checks of a snapshot: its manifest can be written, and its nodes lead from
its root to its leaves. -/
structure Checked [Keccak] (snapshot : TrieSnapshot) : Prop where
  nodes : (manifestOf snapshot).nodeHashes.length < 2 ^ 32
  leaves : (manifestOf snapshot).leafKeys.length < 2 ^ 32
  walks : Trie.collectLeaves snapshot.root snapshot.nodes = .ok snapshot.leaves

/-- The metadata records exactly the kept snapshots and the heads. -/
structure Recorded [Keccak] (tables : Tables Column)
    (kept : DomainId → U64 → Option TrieSnapshot) (head : DomainId → Option U64) : Prop where
  manifests : ∀ domainId height, look tables .metadata (manifestKey domainId height)
    = (kept domainId height).map fun snapshot => manifestBytes (manifestOf snapshot)
  roots : ∀ domainId height, look tables .metadata (rootKey domainId height)
    = (kept domainId height).map fun snapshot => toBytes snapshot.root
  heads : ∀ domainId, look tables .metadata (headKey domainId)
    = (head domainId).bind fun height => (kept domainId height).map fun snapshot =>
      encodeHead height snapshot.root
  headKept : ∀ domainId height, head domainId = some height →
    ∃ snapshot, kept domainId height = some snapshot
  checked : ∀ domainId height snapshot, kept domainId height = some snapshot → Checked snapshot
  /-- No other key is taken for a manifest or a root. -/
  manifestKeys : ∀ key, (look tables .metadata key).isSome → PREFIX_MANIFEST <+: key →
    ∃ domainId height, key = manifestKey domainId height
  rootKeys : ∀ key domainId, (look tables .metadata key).isSome → rootPrefix domainId <+: key →
    ∃ height, key = rootKey domainId height

def headOf (kept : DomainId → U64 → Option TrieSnapshot) (head : DomainId → Option U64)
    (domainId : DomainId) : Option (U64 × B256) :=
  (head domainId).bind fun height =>
    (kept domainId height).map fun snapshot => (height, snapshot.root)

/-- The head is a kept root. -/
theorem headOf_eq_some {kept : DomainId → U64 → Option TrieSnapshot} {head : DomainId → Option U64}
    {domainId : DomainId} {height : U64} {root : B256} :
    headOf kept head domainId = some (height, root) ↔ head domainId = some height
      ∧ ∃ snapshot, kept domainId height = some snapshot ∧ snapshot.root = root := by
  simp only [headOf, Option.bind_eq_some_iff, Option.map_eq_some_iff, Prod.mk.injEq]
  constructor
  · rintro ⟨stamp, hhead, snapshot, hkept, rfl, hroot⟩
    exact ⟨hhead, snapshot, hkept, hroot⟩
  · rintro ⟨hhead, snapshot, hkept, hroot⟩
    exact ⟨height, hhead, snapshot, hkept, rfl, hroot⟩

section Records

variable [Keccak] {tables : Tables Column} {kept : DomainId → U64 → Option TrieSnapshot}
  {head : DomainId → Option U64}

theorem Checked.decode {snapshot : TrieSnapshot} (h : Checked snapshot) :
    ReachabilityManifest.decode (manifestBytes (manifestOf snapshot))
      = .ok (manifestOf snapshot) :=
  decode_manifestOf (encode_eq_ok.mpr ⟨⟨h.nodes, h.leaves⟩, rfl⟩)

section

variable (h : Recorded tables kept head)
include h

theorem Recorded.loadManifest (domainId : DomainId) (height : U64) :
    value (loadManifest domainId height) tables = .ok ((kept domainId height).map manifestOf) := by
  rw [value_loadManifest, h.manifests]
  rcases hkept : kept domainId height with _ | snapshot
  · rfl
  · rw [Option.map_some, decoded, (h.checked _ _ _ hkept).decode]
    rfl

/-- Recorded heads are read back. -/
theorem Recorded.latestHead (domainId : DomainId) :
    value (latestHead domainId) tables = .ok (headOf kept head domainId) := by
  rw [value_latestHead, h.heads, headOf]
  rcases head domainId with _ | height
  · rfl
  · rcases hkept : kept domainId height with _ | snapshot
    · simp [hkept, decoded]
    · simp [hkept, decoded, decodeHead_encodeHead]

/-- Whether a height is that of the head. -/
theorem Recorded.any_headOf (domainId : DomainId) (height : U64) :
    ((headOf kept head domainId).any fun recorded => recorded.1 = height) = true
      ↔ head domainId = some height := by
  rw [headOf]
  rcases hhead : head domainId with _ | stamp
  · simp
  · obtain ⟨snapshot, hkept⟩ := h.headKept domainId stamp hhead
    simp [hkept]

/-- Kept roots are read back; others are missing. -/
theorem Recorded.stateRoot (domainId : DomainId) (height : U64) :
    value (stateRoot domainId height) tables
      = match kept domainId height with
        | none => .error (.missingRoot domainId height)
        | some snapshot => .ok snapshot.root := by
  rw [Database.stateRoot, value_bind (readOnly_get _ _), value_get, ok_bind, h.roots]
  rcases kept domainId height with _ | snapshot
  · rfl
  · exact (value_give _ tables).trans (decodeHash_toBytes _ _)

end

end Records

/-! ## Live nodes -/

theorem mem_keys {t : BTreeMap B256 Bytes} {hash : B256} :
    hash ∈ t.keys ↔ ∃ bytes, t[hash]? = some bytes := by
  rw [Std.ExtTreeMap.mem_keys, OrdMap.mem_iff_exists]

def nodeOf (snapshot : TrieSnapshot) (hash : B256) : Option Bytes := snapshot.nodes[hash]?

/-- Some kept snapshot other than one lists the hash. -/
def Live (kept : DomainId → U64 → Option TrieSnapshot) (domainId : DomainId) (height : U64)
    (hash : B256) : Prop :=
  ∃ owner stamp snapshot, ¬(owner = domainId ∧ stamp = height)
    ∧ kept owner stamp = some snapshot ∧ ∃ bytes, nodeOf snapshot hash = some bytes

/-- The hashes of all manifests that are not excluded. -/
theorem foldlM_live (excluded : Bytes → Bool) (manifests : List (Bytes × Bytes))
    (hdecode : ∀ entry ∈ manifests, ∃ manifest, ReachabilityManifest.decode entry.2 = .ok manifest)
    (live : BTreeSet B256) : ∃ live', manifests.foldlM (fun live entry =>
        if excluded entry.1 = true then Except.ok live
        else do
          let manifest ← ReachabilityManifest.decode entry.2
          return live.insertMany manifest.nodeHashes) live = .ok live'
      ∧ ∀ hash, hash ∈ live' ↔ hash ∈ live ∨ ∃ entry ∈ manifests, excluded entry.1 = false
        ∧ ∃ manifest, ReachabilityManifest.decode entry.2 = .ok manifest
          ∧ hash ∈ manifest.nodeHashes := by
  induction manifests generalizing live with
  | nil => exact ⟨live, rfl, by simp⟩
  | cons entry manifests ih =>
    have htail := fun other hother => hdecode other (mem_cons_of_mem entry hother)
    by_cases hexcluded : excluded entry.1 = true
    · obtain ⟨live', hfold, hmem⟩ := ih htail live
      refine ⟨live', ?_, fun hash => ?_⟩
      · rw [foldlM_cons, if_pos hexcluded]
        exact hfold
      · simp [hmem, hexcluded]
    · obtain ⟨manifest, hmanifest⟩ := hdecode entry mem_cons_self
      obtain ⟨live', hfold, hmem⟩ := ih htail (live.insertMany manifest.nodeHashes)
      refine ⟨live', ?_, fun hash => ?_⟩
      · rw [foldlM_cons, if_neg hexcluded, hmanifest]
        exact hfold
      · simp only [hmem, Std.ExtTreeSet.mem_insertMany_list, contains_iff_mem,
          exists_mem_cons_iff, hmanifest, Bool.eq_false_iff.mpr hexcluded, true_and,
          Except.ok.injEq, exists_eq_left', or_assoc]

section Live

variable [Keccak] {tables : Tables Column} {kept : DomainId → U64 → Option TrieSnapshot}
  {head : DomainId → Option U64}

/-- Live are the nodes of the other kept roots. -/
theorem Recorded.liveNodeHashes (h : Recorded tables kept head) (domainId : DomainId)
    (height : U64) : ∃ live, value (liveNodeHashes (some (domainId, height))) tables = .ok live
      ∧ ∀ hash, hash ∈ live ↔ Live kept domainId height hash := by
  have hentry : ∀ entry ∈ scan (tables .metadata) PREFIX_MANIFEST, ∃ owner stamp snapshot,
      entry.1 = manifestKey owner stamp ∧ kept owner stamp = some snapshot
        ∧ ReachabilityManifest.decode entry.2 = .ok (manifestOf snapshot) := by
    rintro ⟨key, bytes⟩ hmem
    obtain ⟨hlook, hstarts⟩ := mem_scan.mp hmem
    have hlook' : look tables .metadata key = some bytes := hlook
    obtain ⟨owner, stamp, rfl⟩ := h.manifestKeys key (by rw [hlook']; rfl) hstarts
    rw [h.manifests, Option.map_eq_some_iff] at hlook'
    obtain ⟨snapshot, hkept, rfl⟩ := hlook'
    exact ⟨owner, stamp, snapshot, rfl, hkept, (h.checked _ _ _ hkept).decode⟩
  obtain ⟨live, hfold, hmem⟩ := foldlM_live
    (fun key => (some (domainId, height)).any fun pair => key = manifestKey pair.1 pair.2)
    (scan (tables .metadata) PREFIX_MANIFEST)
    (fun entry hmem => by
      obtain ⟨_, _, snapshot, _, _, hdecode⟩ := hentry entry hmem
      exact ⟨_, hdecode⟩) ∅
  refine ⟨live, ?_, fun hash => ?_⟩
  · rw [Database.liveNodeHashes, value_bind (readOnly_entries _ _), value_entries, ok_bind,
      value_give]
    exact hfold
  · rw [hmem]
    constructor
    · rintro (hempty | ⟨entry, hentryMem, hexcluded, manifest, hdecode, hhash⟩)
      · simp at hempty
      · obtain ⟨owner, stamp, snapshot, hkey, hkept, hdecode'⟩ := hentry entry hentryMem
        rw [hdecode] at hdecode'
        cases hdecode'
        refine ⟨owner, stamp, snapshot, ?_, hkept, mem_keys.mp hhash⟩
        rintro ⟨rfl, rfl⟩
        simp [hkey] at hexcluded
    · rintro ⟨owner, stamp, snapshot, hother, hkept, hlisted⟩
      refine .inr ⟨(manifestKey owner stamp, manifestBytes (manifestOf snapshot)), ?_, ?_,
        manifestOf snapshot, (h.checked _ _ _ hkept).decode, mem_keys.mpr hlisted⟩
      · refine mem_scan.mpr ⟨?_, prefix_manifestKey owner stamp⟩
        have hlook := h.manifests owner stamp
        rw [hkept] at hlook
        exact hlook
      · simp only [Option.any_some, decide_eq_false_iff_not]
        exact fun heq => hother (manifestKey_inj heq)

end Live

/-! ## Pruning -/

/-- Pruning takes away the root and its manifest. -/
theorem look_prune_metadata {tables : Tables Column} (domainId : DomainId) (height : U64)
    (dead : List B256) (key : Bytes) :
    look (apply tables (pruneChanges domainId height dead)) .metadata key
      = if key = rootKey domainId height ∨ key = manifestKey domainId height then none
        else look tables .metadata key := by
  split
  · rename_i hkey
    refine apply_settled ?_ ?_
    · rcases hkey with rfl | rfl
      · exact ⟨⟨.metadata, rootKey domainId height, none⟩, by simp [pruneChanges], rfl, rfl⟩
      · exact ⟨⟨.metadata, manifestKey domainId height, none⟩, by simp [pruneChanges], rfl, rfl⟩
    · intro change hchange _ _
      simp only [pruneChanges, mem_cons, mem_map] at hchange
      rcases hchange with rfl | rfl | ⟨hash, _, rfl⟩ <;> rfl
  · rename_i hkey
    refine apply_untouched fun change hchange => ?_
    simp only [pruneChanges, mem_cons, mem_map] at hchange
    rcases hchange with rfl | rfl | ⟨hash, _, rfl⟩
    · exact fun h => hkey (.inl h.2.symm)
    · exact fun h => hkey (.inr h.2.symm)
    · exact fun h => by cases h.1

/-- Pruning takes away the dead nodes. -/
theorem look_prune_nodes {tables : Tables Column} (domainId : DomainId) (height : U64)
    (dead : List B256) (hash : B256) :
    look (apply tables (pruneChanges domainId height dead)) .trieNodes (toBytes hash)
      = if hash ∈ dead then none else look tables .trieNodes (toBytes hash) := by
  split
  · rename_i hdead
    refine apply_settled ⟨⟨.trieNodes, toBytes hash, none⟩, ?_, rfl, rfl⟩ ?_
    · exact mem_cons_of_mem _ (mem_cons_of_mem _ (mem_map_of_mem hdead))
    · intro change hchange _ _
      simp only [pruneChanges, mem_cons, mem_map] at hchange
      rcases hchange with rfl | rfl | ⟨other, _, rfl⟩ <;> rfl
  · rename_i halive
    refine apply_untouched fun change hchange => ?_
    simp only [pruneChanges, mem_cons, mem_map] at hchange
    rcases hchange with rfl | rfl | ⟨other, hother, rfl⟩
    · exact fun h => by cases h.1
    · exact fun h => by cases h.1
    · rintro ⟨_, heq⟩
      rw [toBytes_injective (by decide) heq] at hother
      exact halive hother

section Pruning

variable [Keccak] {tables : Tables Column} {kept : DomainId → U64 → Option TrieSnapshot}
  {head : DomainId → Option U64}

/-- The records after a root has been pruned. -/
theorem Recorded.prune (h : Recorded tables kept head) {domainId : DomainId} {height : U64}
    (hhead : head domainId ≠ some height) (dead : List B256) :
    Recorded (apply tables (pruneChanges domainId height dead))
      (without kept domainId height) head where
  manifests owner stamp := by
    have hroot : manifestKey owner stamp ≠ rootKey domainId height :=
      ne_of_head? (head?_manifestKey _ _) (head?_rootKey _ _) (by decide)
    rw [look_prune_metadata, h.manifests]
    by_cases hsame : owner = domainId ∧ stamp = height
    · obtain ⟨rfl, rfl⟩ := hsame
      simp [without]
    · rw [if_neg (not_or.mpr ⟨hroot, fun heq => hsame (manifestKey_inj heq)⟩)]
      simp [without, hsame]
  roots owner stamp := by
    have hmanifest : rootKey owner stamp ≠ manifestKey domainId height :=
      ne_of_head? (head?_rootKey _ _) (head?_manifestKey _ _) (by decide)
    rw [look_prune_metadata, h.roots]
    by_cases hsame : owner = domainId ∧ stamp = height
    · obtain ⟨rfl, rfl⟩ := hsame
      simp [without]
    · rw [if_neg (not_or.mpr ⟨fun heq => hsame (rootKey_inj heq), hmanifest⟩)]
      simp [without, hsame]
  heads owner := by
    have hroot : headKey owner ≠ rootKey domainId height :=
      ne_of_head? (head?_headKey _) (head?_rootKey _ _) (by decide)
    have hmanifest : headKey owner ≠ manifestKey domainId height :=
      ne_of_head? (head?_headKey _) (head?_manifestKey _ _) (by decide)
    rw [look_prune_metadata, if_neg (not_or.mpr ⟨hroot, hmanifest⟩), h.heads]
    rcases hstamp : head owner with _ | stamp
    · rfl
    · have hother : ¬(owner = domainId ∧ stamp = height) := by
        rintro ⟨rfl, rfl⟩
        exact hhead hstamp
      simp [without, hother]
  headKept owner stamp hstamp := by
    obtain ⟨snapshot, hkept⟩ := h.headKept owner stamp hstamp
    refine ⟨snapshot, without_eq_some.mpr ⟨?_, hkept⟩⟩
    rintro ⟨rfl, rfl⟩
    exact hhead hstamp
  checked owner stamp snapshot hkept :=
    h.checked owner stamp snapshot (without_eq_some.mp hkept).2
  manifestKeys key hsome hstarts := by
    rw [look_prune_metadata] at hsome
    split at hsome
    · cases hsome
    · exact h.manifestKeys key hsome hstarts
  rootKeys key owner hsome hstarts := by
    rw [look_prune_metadata] at hsome
    split at hsome
    · cases hsome
    · exact h.rootKeys key owner hsome hstarts

end Pruning

/-! ## Archives -/

/-- Snapshots of domains at consensus heights. -/
abbrev Archive := MarkSweep.Archive DomainId U64 TrieSnapshot B256 Bytes nodeOf

/-- The tables hold an archive: its records and its nodes. -/
structure Represents [Keccak] (tables : Tables Column) (A : Archive) : Prop where
  records : Recorded tables A.kept A.head
  nodes : ∀ hash, look tables .trieNodes (toBytes hash) = A.nodes hash

section Archives

variable [Keccak] {tables : Tables Column} {A : Archive}

/-- Pruning a root that is not a head thins the archive. -/
theorem Represents.prune (h : Represents tables A) {domainId : DomainId} {height : U64}
    {dead : List B256} (hhead : A.head domainId ≠ some height)
    (hdead : ∀ hash ∈ dead, ¬Live A.kept domainId height hash) :
    ∃ B, Represents (apply tables (pruneChanges domainId height dead)) B ∧ A.Thinned B := by
  have hunlisted : ∀ hash, hash ∈ dead → ∀ owner stamp snapshot,
      ¬(owner = domainId ∧ stamp = height) → A.kept owner stamp = some snapshot →
        nodeOf snapshot hash = none := by
    intro hash hmem owner stamp snapshot hother hkept
    rcases hnode : nodeOf snapshot hash with _ | bytes
    · rfl
    · exact absurd ⟨owner, stamp, snapshot, hother, hkept, bytes, hnode⟩ (hdead hash hmem)
  refine ⟨A.sweep domainId height (· ∈ dead) hhead hunlisted, ⟨h.records.prune hhead dead, ?_⟩,
    rfl, fun owner stamp snapshot hkept => (without_eq_some.mp hkept).2⟩
  intro hash
  rw [look_prune_nodes, h.nodes]
  rfl

/-- The tables of an archive become those of a thinner one. -/
def Thins (tables tables' : Tables Column) : Prop :=
  ∀ A, Represents tables A → ∃ B, Represents tables' B ∧ A.Thinned B

theorem thins_refl (tables : Tables Column) : Thins tables tables :=
  fun A h => ⟨A, h, .refl A⟩

theorem thins_trans (a b c : Tables Column) (hab : Thins a b) (hbc : Thins b c) : Thins a c := by
  intro A hA
  obtain ⟨B, hB, hAB⟩ := hab A hA
  obtain ⟨C, hC, hBC⟩ := hbc B hB
  exact ⟨C, hC, hAB.trans hBC⟩

/-- Pruning one root only thins, wherever it stops. -/
theorem moves_pruneRoot (domainId : DomainId) (height : U64) :
    Moves Thins (pruneRoot domainId height) := by
  intro tables faults A hA
  have hstay : ∃ B, Represents tables B ∧ A.Thinned B := ⟨A, hA, .refl A⟩
  suffices hmoves : MovesFrom (fun _ tables' => ∃ B, Represents tables' B ∧ A.Thinned B) tables
      (pruneRoot domainId height) from hmoves faults
  refine (readOnly_latestHead domainId).movesFrom hstay fun recorded hrecorded => ?_
  refine (readOnly_check _).movesFrom hstay fun _ hcheck => ?_
  refine (readOnly_loadManifest domainId height).movesFrom hstay fun manifest _ => ?_
  cases manifest with
  | none => exact fun _ => hstay
  | some removed =>
    obtain ⟨live, hvalue, hlive⟩ := hA.records.liveNodeHashes domainId height
    refine (readOnly_liveNodeHashes _).movesFrom hstay fun live' hlive' => ?_
    rw [hvalue] at hlive'
    cases hlive'
    rw [hA.records.latestHead] at hrecorded
    rw [← Except.ok.inj hrecorded, value_give, rejectIf_eq_ok, hA.records.any_headOf] at hcheck
    refine (movesFrom_commit hstay (hA.prune hcheck fun hash hdead => ?_)).map _
    rw [← hlive]
    exact of_decide_eq_true (mem_filter.mp hdead).2

end Archives

/-! ## Retention passes -/

section Passes

variable {R : Tables Column → Tables Column → Prop} (hrefl : ∀ a, R a a)
  (htrans : ∀ a b c, R a b → R b c → R a c)
  (hprune : ∀ domainId height, Moves R (pruneRoot domainId height))

include hrefl htrans hprune

theorem moves_pruneBelow (cutoff pruned : Nat) (state : DomainStateCommit) :
    Moves R (pruneBelow cutoff pruned state) := by
  intro tables
  refine (readOnly_rootHeights _).movesFrom (hrefl tables) fun heights _ => ?_
  refine Moves.foldlM hrefl htrans (fun pruned height => ?_) heights pruned tables
  rw [pruneOld]
  split
  · exact (hprune _ _).bind htrans fun _ => moves_pure hrefl _
  · exact moves_pure hrefl _

/-- A pass does what its prunings do, however far it gets. -/
theorem moves_applyRetention (retention : RetentionPolicy) (height : U64)
    (states : List DomainStateCommit) : Moves R (applyRetention retention height states) := by
  cases retention with
  | archive => exact moves_pure hrefl _
  | full history =>
    exact Moves.foldlM hrefl htrans
      (fun pruned state => moves_pruneBelow hrefl htrans hprune _ pruned state) states 0

theorem moves_reportRetention (retention : RetentionPolicy) (batch : CommitBatch)
    (stats : CommitStats) : Moves R (reportRetention retention batch stats) := by
  refine (moves_applyRetention hrefl htrans hprune _ _ _).attempt.bind htrans fun result => ?_
  cases result with
  | ok pruned => exact moves_pure hrefl _
  | error error => exact moves_pure hrefl _

end Passes

/-- A retention pass thins the archive. -/
theorem thins_applyRetention [Keccak] (retention : RetentionPolicy) (height : U64)
    (states : List DomainStateCommit) : Moves Thins (applyRetention retention height states) :=
  moves_applyRetention thins_refl thins_trans moves_pruneRoot retention height states

theorem thins_reportRetention [Keccak] (retention : RetentionPolicy) (batch : CommitBatch)
    (stats : CommitStats) : Moves Thins (reportRetention retention batch stats) :=
  moves_reportRetention thins_refl thins_trans moves_pruneRoot retention batch stats

/-- The reported pass itself never fails. -/
theorem reportRetention_ok (retention : RetentionPolicy) (batch : CommitBatch) (stats : CommitStats)
    (disk : Disk Column) :
    ∃ stats' disk', reportRetention retention batch stats disk = .ok stats' disk' := by
  rw [reportRetention, run_bind, attempt]
  cases applyRetention retention batch.marker.height batch.states disk with
  | ok pruned disk' => exact ⟨_, disk', rfl⟩
  | error error disk' => exact ⟨_, disk', rfl⟩

/-! ## What pruning never touches -/

/-- Heads, the marker and the records outside the tries stand. -/
structure Standing (tables tables' : Tables Column) : Prop where
  heads : ∀ domainId, look tables' .metadata (headKey domainId)
    = look tables .metadata (headKey domainId)
  marker : look tables' .metadata KEY_MARKER = look tables .metadata KEY_MARKER
  others : ∀ column key, column ≠ .metadata → column ≠ .trieNodes →
    look tables' column key = look tables column key

theorem standing_refl (tables : Tables Column) : Standing tables tables :=
  ⟨fun _ => rfl, rfl, fun _ _ _ _ => rfl⟩

theorem standing_trans (a b c : Tables Column) (hab : Standing a b) (hbc : Standing b c) :
    Standing a c where
  heads domainId := (hbc.heads domainId).trans (hab.heads domainId)
  marker := hbc.marker.trans hab.marker
  others column key hmeta hnodes := (hbc.others column key hmeta hnodes).trans
    (hab.others column key hmeta hnodes)

/-- Pruning one root leaves these. -/
theorem standing_prune (tables : Tables Column) (domainId : DomainId) (height : U64)
    (dead : List B256) : Standing tables (apply tables (pruneChanges domainId height dead)) where
  heads owner := by
    rw [look_prune_metadata, if_neg]
    rintro (hroot | hmanifest)
    · exact ne_of_head? (head?_headKey _) (head?_rootKey _ _) (by decide) hroot
    · exact ne_of_head? (head?_headKey _) (head?_manifestKey _ _) (by decide) hmanifest
  marker := by
    rw [look_prune_metadata, if_neg]
    rintro (hroot | hmanifest)
    · exact ne_of_head? head?_KEY_MARKER (head?_rootKey _ _) (by decide) hroot
    · exact ne_of_head? head?_KEY_MARKER (head?_manifestKey _ _) (by decide) hmanifest
  others column key hmeta hnodes := by
    refine apply_untouched ?_
    rintro change hchange ⟨rfl, _⟩
    simp only [pruneChanges, mem_cons, mem_map] at hchange
    rcases hchange with rfl | rfl | ⟨_, _, rfl⟩
    · exact hmeta rfl
    · exact hmeta rfl
    · exact hnodes rfl

theorem standing_pruneRoot (domainId : DomainId) (height : U64) :
    Moves Standing (pruneRoot domainId height) := by
  intro tables
  have hstay := standing_refl tables
  refine (readOnly_latestHead domainId).movesFrom hstay fun _ _ => ?_
  refine (readOnly_check _).movesFrom hstay fun _ _ => ?_
  refine (readOnly_loadManifest domainId height).movesFrom hstay fun manifest _ => ?_
  cases manifest with
  | none => exact fun _ => hstay
  | some removed =>
    refine (readOnly_liveNodeHashes _).movesFrom hstay fun live _ => ?_
    exact (movesFrom_commit hstay (standing_prune tables domainId height _)).map _

theorem standing_reportRetention (retention : RetentionPolicy) (batch : CommitBatch)
    (stats : CommitStats) : Moves Standing (reportRetention retention batch stats) :=
  moves_reportRetention standing_refl standing_trans standing_pruneRoot retention batch stats

end Arbor.Database
