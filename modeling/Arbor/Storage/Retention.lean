import Mathlib.Data.List.DropRight
import Arbor.Storage.Pruning

/-!
# The retention window

The full policy is documented to keep the newest roots of each domain, so many of them.  The
pass after a commit prunes by height instead: it removes the roots of the committed domains
below a cutoff counted back from the marker.  The two agree exactly as long as the roots
that should stay are within the window (`retention_window`); a domain that was idle for a
while loses more, and one committed below the cutoff makes the pass fail.
-/

namespace Arbor.Database

open Result Device MarkSweep

variable {α : Type}

/-! ## One pass -/

section Pass

variable [Keccak] {tables : Tables Column} {kept : DomainId → U64 → Option TrieSnapshot}
  {head : DomainId → Option U64}

variable {domainId : DomainId} {cutoff : Nat} {top : U64}

section

variable (h : Recorded tables kept head)
include h

theorem Recorded.rootHeights (domainId : DomainId) :
    ∃ heights, value (rootHeights domainId) tables = .ok heights ∧ heights.Nodup
      ∧ ∀ height, height ∈ heights ↔ ∃ snapshot, kept domainId height = some snapshot := by
  set roots := scan (tables .metadata) (rootPrefix domainId) with hroots
  set stamp : Bytes × Bytes → U64 := fun entry =>
    ofBytes 64 (entry.1.drop (rootPrefix domainId).length)
  have hsuffix : ∀ height : U64,
      (rootKey domainId height).drop (rootPrefix domainId).length = toBytes height := fun height =>
    List.drop_left
  have hentry : ∀ entry ∈ roots, entry.1 = rootKey domainId (stamp entry)
      ∧ ∃ snapshot, kept domainId (stamp entry) = some snapshot := by
    rintro ⟨key, bytes⟩ hmem
    obtain ⟨hlook, hstarts⟩ := mem_scan.mp hmem
    have hlook' : look tables .metadata key = some bytes := hlook
    obtain ⟨height, rfl⟩ := h.rootKeys key domainId (by rw [hlook']; rfl) hstarts
    have hstamp : stamp (rootKey domainId height, bytes) = height := by
      simp only [stamp, hsuffix, ofBytes_toBytes (show 8 ∣ 64 by decide)]
    rw [h.roots, Option.map_eq_some_iff] at hlook'
    obtain ⟨snapshot, hkept, _⟩ := hlook'
    rw [hstamp]
    exact ⟨rfl, snapshot, hkept⟩
  refine ⟨roots.map stamp, ?_, ?_, fun height => ?_⟩
  · rw [Database.rootHeights, value_bind (readOnly_entries _ _), value_entries, ok_bind, value_give]
    have hall := mapAll_map (f := fun entry : Bytes × Bytes => do
      let suffix := entry.1.drop (rootPrefix domainId).length
      rejectIf (suffix.length ≠ 8) (StorageError.corruptMetadata "root height key")
      return ofBytes 64 suffix) (g := id) (h := stamp) (l := roots) fun entry hmem => by
        have hlength : (entry.1.drop (rootPrefix domainId).length).length = 8 := by
          rw [(hentry entry hmem).1, hsuffix, length_toBytes]
        dsimp only [id]
        rw [rejectIf_neg (by rw [hlength]; exact fun h => h rfl)]
        rfl
    rwa [List.map_id] at hall
  · have hkeys : roots.map Prod.fst = (roots.map stamp).map (rootKey domainId) := by
      rw [List.map_map]
      exact List.map_congr_left fun entry hmem => (hentry entry hmem).1
    have hnodup : (roots.map Prod.fst).Nodup :=
      (OrdMap.nodup_keys (tables .metadata)).sublist (((List.takeWhile_sublist _).trans
        (List.dropWhile_sublist _)).map Prod.fst)
    rw [hkeys] at hnodup
    exact hnodup.of_map
  · constructor
    · intro hmem
      obtain ⟨entry, hentryMem, rfl⟩ := List.mem_map.mp hmem
      exact (hentry entry hentryMem).2
    · rintro ⟨snapshot, hkept⟩
      have hlook := h.roots domainId height
      rw [hkept] at hlook
      refine List.mem_map.mpr ⟨(rootKey domainId height, toBytes snapshot.root),
        mem_scan.mpr ⟨hlook, prefix_rootKey_iff.mpr rfl⟩, ?_⟩
      simp only [stamp, hsuffix, ofBytes_toBytes (show 8 ∣ 64 by decide)]

/-- A kept root that is not the head is pruned. -/
theorem Recorded.runs_pruneRoot {height : U64}
    {snapshot : TrieSnapshot} (hkept : kept domainId height = some snapshot)
    (hhead : head domainId ≠ some height) :
    ∃ count tables', Runs (pruneRoot domainId height) tables count tables'
      ∧ Recorded tables' (without kept domainId height) head := by
  obtain ⟨live, hlive, _⟩ := h.liveNodeHashes domainId height
  have hmanifest := h.loadManifest domainId height
  rw [hkept] at hmanifest
  have hcheck : value (give (rejectIf (((headOf kept head domainId).any fun recorded =>
      recorded.1 = height) = true) StorageError.pruneCurrentHead) : Storage Unit) tables
      = .ok () := by
    rw [value_give, rejectIf_eq_ok, h.any_headOf]
    exact hhead
  refine ⟨_, _, ((readOnly_latestHead domainId).runs (h.latestHead domainId)).bind
    (((readOnly_check _).runs hcheck).bind
      (((readOnly_loadManifest domainId height).runs hmanifest).bind
        (((readOnly_liveNodeHashes _).runs hlive).bind
          ((runs_commit _ tables).bind (runs_pure _ _))))), h.prune hhead _⟩

/-- The head is not pruned. -/
theorem Recorded.pruneRoot_head {height : U64} (hhead : head domainId = some height) :
    Fails (pruneRoot domainId height) tables .pruneCurrentHead := by
  have hcheck : value (give (rejectIf (((headOf kept head domainId).any fun recorded =>
      recorded.1 = height) = true) StorageError.pruneCurrentHead) : Storage Unit) tables
        = .error .pruneCurrentHead := by
    rw [value_give, rejectIf_eq_error, h.any_headOf]
    exact ⟨hhead, rfl⟩
  exact ((readOnly_latestHead domainId).runs (h.latestHead domainId)).bind_fails
    (((readOnly_check _).fails hcheck).bind _)

/-- One round of the loop over the roots of a domain. -/
theorem Recorded.runs_round {height : U64}
    (hkept : ∃ snapshot, kept domainId height = some snapshot)
    (hhead : height.toNat < cutoff → head domainId ≠ some height) (pruned : Nat) :
    ∃ count tables' kept', Runs (pruneOld domainId cutoff pruned height) tables count tables'
      ∧ Recorded tables' kept' head
      ∧ ∀ owner stamp, kept' owner stamp
        = if owner = domainId ∧ stamp = height ∧ stamp.toNat < cutoff then none
          else kept owner stamp := by
  rw [pruneOld]
  by_cases hold : height.toNat < cutoff
  · obtain ⟨snapshot, hsnapshot⟩ := hkept
    obtain ⟨_, tables', hprune, hrecorded⟩ := h.runs_pruneRoot hsnapshot (hhead hold)
    rw [if_pos hold]
    refine ⟨_, tables', _, hprune.bind (runs_pure _ _), hrecorded, fun owner stamp => ?_⟩
    rw [without]
    by_cases hstamp : stamp = height
    · simp [hstamp, hold]
    · simp [hstamp]
  · rw [if_neg hold]
    refine ⟨_, tables, kept, runs_pure _ _, h, fun owner stamp => ?_⟩
    rw [if_neg]
    rintro ⟨_, rfl, hlow⟩
    exact hold hlow

theorem Recorded.runs_pruneOld
    (hhead : ∀ height, head domainId = some height → cutoff ≤ height.toNat) {heights : List U64}
    (hnodup : heights.Nodup)
    (hkept : ∀ height ∈ heights, ∃ snapshot, kept domainId height = some snapshot) (pruned : Nat) :
    ∃ count tables' kept', Runs (heights.foldlM (pruneOld domainId cutoff) pruned) tables count
      tables'
      ∧ Recorded tables' kept' head
      ∧ ∀ owner stamp, kept' owner stamp
        = if owner = domainId ∧ stamp ∈ heights ∧ stamp.toNat < cutoff then none
          else kept owner stamp := by
  induction heights generalizing tables kept pruned with
  | nil => exact ⟨pruned, tables, kept, runs_pure _ _, h, by simp⟩
  | cons height heights ih =>
    obtain ⟨hfresh, hrest⟩ := List.nodup_cons.mp hnodup
    obtain ⟨count, middle, between, hround, hmiddle, hbetween⟩ := h.runs_round
      (hkept height List.mem_cons_self) (fun hold heq => (hhead height heq).not_gt hold) pruned
    obtain ⟨total, tables', kept', hruns, hrecorded, heq⟩ := ih hmiddle hrest
      (fun other hother => by
        rw [hbetween, if_neg (by rintro ⟨_, rfl, _⟩; exact hfresh hother)]
        exact hkept other (List.mem_cons_of_mem _ hother)) count
    refine ⟨total, tables', kept', hround.bind hruns, hrecorded, fun owner stamp => ?_⟩
    rw [heq, hbetween]
    by_cases hstamp : stamp = height
    · simp [hstamp, hfresh]
    · simp [hstamp]

/-- A head below the cutoff ends the loop with an error. -/
theorem Recorded.pruneOld_fails (hhead : head domainId = some top)
    (hlow : top.toNat < cutoff) {heights : List U64} (htop : top ∈ heights) (hnodup : heights.Nodup)
    (hkept : ∀ height ∈ heights, ∃ snapshot, kept domainId height = some snapshot) (pruned : Nat) :
    Fails (heights.foldlM (pruneOld domainId cutoff) pruned) tables .pruneCurrentHead := by
  induction heights generalizing tables kept pruned with
  | nil => cases htop
  | cons height heights ih =>
    obtain ⟨hfresh, hrest⟩ := List.nodup_cons.mp hnodup
    by_cases hsame : height = top
    · refine Fails.bind ?_ _
      rw [hsame, pruneOld, if_pos hlow]
      exact (h.pruneRoot_head hhead).bind _
    · have htail : top ∈ heights := (List.mem_cons.mp htop).resolve_left (Ne.symm hsame)
      have hnot : head domainId ≠ some height := by
        rw [hhead]
        exact fun heq => hsame (Option.some.inj heq).symm
      obtain ⟨count, middle, between, hround, hmiddle, hbetween⟩ :=
        h.runs_round (hkept height List.mem_cons_self) (fun _ => hnot) pruned
      refine hround.bind_fails (ih hmiddle htail hrest (fun other hother => ?_) count)
      rw [hbetween, if_neg (by rintro ⟨_, rfl, _⟩; exact hfresh hother)]
      exact hkept other (List.mem_cons_of_mem _ hother)

variable {state : DomainStateCommit}

theorem Recorded.runs_pruneBelow
    (hhead : ∀ height, head state.domainId = some height → cutoff ≤ height.toNat) (pruned : Nat) :
    ∃ count tables' kept', Runs (pruneBelow cutoff pruned state) tables count tables'
      ∧ Recorded tables' kept' head
      ∧ ∀ owner stamp, kept' owner stamp
        = if owner = state.domainId ∧ stamp.toNat < cutoff then none else kept owner stamp := by
  obtain ⟨heights, hheights, hnodup, hmem⟩ := h.rootHeights state.domainId
  obtain ⟨count, tables', kept', hruns, hrecorded, heq⟩ := h.runs_pruneOld hhead hnodup
    (fun height hheight => (hmem height).mp hheight) pruned
  refine ⟨count, tables', kept', ((readOnly_rootHeights _).runs hheights).bind hruns, hrecorded,
    fun owner stamp => ?_⟩
  rw [heq]
  by_cases howner : owner = state.domainId
  · subst howner
    rcases hkept : kept state.domainId stamp with _ | snapshot
    · simp
    · have hstamp : stamp ∈ heights := (hmem stamp).mpr ⟨snapshot, hkept⟩
      simp [hstamp]
  · simp [howner]

theorem Recorded.pruneBelow_fails
    (hhead : head state.domainId = some top) (hlow : top.toNat < cutoff) (pruned : Nat) :
    Fails (pruneBelow cutoff pruned state) tables .pruneCurrentHead := by
  obtain ⟨heights, hheights, hnodup, hmem⟩ := h.rootHeights state.domainId
  exact ((readOnly_rootHeights _).runs hheights).bind_fails
    (h.pruneOld_fails hhead hlow ((hmem top).mpr (h.headKept _ _ hhead)) hnodup
      (fun height hheight => (hmem height).mp hheight) pruned)

/-- What is kept after a pass over some states. -/
def keptFrom (kept : DomainId → U64 → Option TrieSnapshot) (cutoff : Nat)
    (states : List DomainStateCommit) (domainId : DomainId) (height : U64) : Option TrieSnapshot :=
  if domainId ∈ states.map (·.domainId) ∧ height.toNat < cutoff then none
  else kept domainId height

variable {states : List DomainStateCommit}

/-- A pass in which no head is below the cutoff. -/
theorem Recorded.runs_pass
    (hheads : ∀ state ∈ states, ∀ height, head state.domainId = some height → cutoff ≤ height.toNat)
    (pruned : Nat) :
    ∃ count tables', Runs (states.foldlM (pruneBelow cutoff) pruned) tables count tables'
      ∧ Recorded tables' (keptFrom kept cutoff states) head := by
  induction states generalizing tables kept pruned with
  | nil =>
    refine ⟨pruned, tables, runs_pure _ _, ?_⟩
    have hsame : keptFrom kept cutoff [] = kept := by
      funext owner stamp
      simp [keptFrom]
    rwa [hsame]
  | cons state states ih =>
    obtain ⟨count, middle, kept', hstep, hmiddle, heq⟩ :=
      h.runs_pruneBelow (hheads state List.mem_cons_self) pruned
    obtain ⟨total, tables', hruns, hrecorded⟩ := ih hmiddle
      (fun other hother => hheads other (List.mem_cons_of_mem _ hother)) count
    refine ⟨total, tables', ?_, ?_⟩
    · exact hstep.bind hruns
    · have hsame : keptFrom kept' cutoff states = keptFrom kept cutoff (state :: states) := by
        funext owner stamp
        simp only [keptFrom, heq, List.map_cons, List.mem_cons]
        by_cases hlow : stamp.toNat < cutoff
        · by_cases howner : owner = state.domainId
          · simp [hlow, howner]
          · simp [hlow, howner]
        · simp [hlow]
      rwa [← hsame]

/-- A head below the cutoff makes the pass fail. -/
theorem Recorded.pass_fails
    {low : DomainStateCommit} (hmem : low ∈ states) (hhead : head low.domainId = some top)
    (hlow : top.toNat < cutoff) (pruned : Nat) :
    Fails (states.foldlM (pruneBelow cutoff) pruned) tables .pruneCurrentHead := by
  induction states generalizing tables kept pruned with
  | nil => cases hmem
  | cons state states ih =>
    by_cases hbad : ∃ height, head state.domainId = some height ∧ height.toNat < cutoff
    · obtain ⟨height, hheight, hlow'⟩ := hbad
      exact (h.pruneBelow_fails hheight hlow' pruned).bind _
    · have hgood : ∀ height, head state.domainId = some height → cutoff ≤ height.toNat :=
        fun height hheight => Nat.le_of_not_lt fun hlt => hbad ⟨height, hheight, hlt⟩
      have htail : low ∈ states := by
        refine (List.mem_cons.mp hmem).resolve_left ?_
        rintro rfl
        exact hbad ⟨top, hhead, hlow⟩
      obtain ⟨count, middle, kept', hstep, hmiddle, _⟩ := h.runs_pruneBelow hgood pruned
      exact hstep.bind_fails (ih hmiddle htail count)

/-- The lowest height that a retention window of `history` heights below a marker keeps. -/
def cutoffOf (history height : U64) : Nat := height.toNat - (history.toNat - 1)

/-- **A commit under the full policy.**  It reports no pruning error exactly if no state it
commits is below the cutoff, and then keeps nothing below the cutoff for the domains it
commits. -/
theorem Recorded.commit_full {history : U64} {batch : CommitBatch}
    {stats : CommitStats} {tables' : Tables Column}
    (hcommit : Returns (commit (.full history) batch) tables stats tables') :
    (batch.states.map (·.domainId)).Nodup
    ∧ (∀ state ∈ batch.states, state.consensusHeight ≤ batch.marker.height)
    ∧ (stats.pruningError = none ↔ ∀ state ∈ batch.states,
        cutoffOf history batch.marker.height ≤ state.consensusHeight.toNat)
    ∧ (stats.pruningError = none → Recorded tables'
        (keptFrom (keptWith kept (snapshotOf batch)) (cutoffOf history batch.marker.height)
          batch.states) (headWith head (snapshotOf batch))) := by
  obtain ⟨prepared, hprepared, hrest⟩ := (readOnly_prepare batch).returns_bind.mp hcommit
  obtain ⟨hwritten, hquiet⟩ := written_of_prepare hprepared
  have hpass := returns_commit_bind.mp hrest
  have hrecorded := hwritten.recorded h
  have hheads : ∀ state ∈ batch.states, headWith head (snapshotOf batch) state.domainId
      = some state.consensusHeight := by
    intro state hstate
    simp [headWith, snapshotOf, (stateOf_eq_some hwritten.domains).mpr ⟨hstate, rfl⟩]
  refine ⟨hwritten.domains, hwritten.below, ?_⟩
  by_cases hhigh : ∀ state ∈ batch.states,
      cutoffOf history batch.marker.height ≤ state.consensusHeight.toNat
  · have hgood : ∀ state ∈ batch.states, ∀ height,
        headWith head (snapshotOf batch) state.domainId = some height →
          cutoffOf history batch.marker.height ≤ height.toNat := by
      intro state hstate height hheight
      rw [hheads state hstate] at hheight
      rw [← Option.some.inj hheight]
      exact hhigh state hstate
    obtain ⟨count, final, hruns, hfinal⟩ := hrecorded.runs_pass hgood 0
    have hreport : Runs (reportRetention (.full history) batch prepared.2)
        (apply tables prepared.1) { prepared.2 with prunedRoots := count } final :=
      Runs.bind (Runs.attempt hruns) (runs_pure _ _)
    obtain ⟨rfl, rfl⟩ := hreport.returns_unique hpass
    exact ⟨⟨fun _ => hhigh, fun _ => hquiet⟩, fun _ => hfinal⟩
  · obtain ⟨low, hlow, hbelow⟩ : ∃ state ∈ batch.states,
        state.consensusHeight.toNat < cutoffOf history batch.marker.height := by
      simpa using hhigh
    obtain ⟨disk, hattempt⟩ : ∃ disk, (attempt (applyRetention (.full history) batch.marker.height
        batch.states) : Storage (Except StorageError Nat)) ⟨apply tables prepared.1, never⟩
          = .ok (.error .pruneCurrentHead) disk :=
      (hrecorded.pass_fails hlow (hheads low hlow) hbelow 0).attempt
    obtain ⟨faults, hpass⟩ := hpass
    rw [reportRetention, run_bind, hattempt] at hpass
    cases hpass
    exact ⟨⟨fun herror => (by cases herror), fun h => absurd h hhigh⟩, fun herror =>
      (by cases herror)⟩

end

end Pass

/-! ## Windows -/

theorem add_length_le_of_ascending {height : α → Nat} {l : List α} {first last : α}
    (h : (first :: (l ++ [last])).Pairwise fun a b => height a < height b) :
    height first + l.length + 1 ≤ height last := by
  induction l generalizing first with
  | nil =>
    have hlt := (List.pairwise_cons.mp h).1 last (by simp)
    rw [List.length_nil]
    omega
  | cons a l ih =>
    obtain ⟨hfirst, hrest⟩ := List.pairwise_cons.mp h
    have hlt := hfirst a (by simp)
    have hle := ih hrest
    rw [List.length_cons]
    omega

/-- One more of the newest is at most one more element. -/
theorem rtake_succ_cases (l : List α) (n : Nat) :
    l.rtake (n + 1) = l.rtake n ∨ ∃ a, l.rtake (n + 1) = a :: l.rtake n ∧
    (l.rtake n).length = n := by
  rw [List.rtake, List.rtake]
  rcases Nat.lt_or_ge n l.length with hlt | hge
  · right
    have hindex : l.length - (n + 1) + 1 = l.length - n := by omega
    refine ⟨l[l.length - (n + 1)], ?_, by rw [List.length_drop]; omega⟩
    rw [List.drop_eq_getElem_cons (by omega), hindex]
  · left
    rw [show l.length - (n + 1) = l.length - n by omega]

/-- **Counting heights and counting roots.**  If the newest `n` of ascending heights up to a
marker are fewer than `n` below it, then they are what is left, with the last one added, of
the newest `n` before it. -/
theorem mem_rtake_iff {height : α → Nat} {l : List α} {last : α} {n marker : Nat} (hn : 0 < n)
    (hascending : (l ++ [last]).Pairwise fun a b => height a < height b)
    (hlast : height last ≤ marker) (hwindow : ∀ a ∈ (l ++ [last]).rtake n, marker < height a + n)
    (a : α) : a ∈ (l ++ [last]).rtake n ↔ (a ∈ l.rtake n ∨ a = last) ∧ marker < height a + n := by
  obtain ⟨m, rfl⟩ : ∃ m, n = m + 1 := ⟨n - 1, by omega⟩
  rw [List.rtake_concat_succ, List.mem_append, List.mem_singleton] at *
  constructor
  · intro hmem
    refine ⟨hmem.imp_left fun hold => ?_, hwindow a (by simpa using hmem)⟩
    rcases rtake_succ_cases l m with heq | ⟨first, heq, _⟩
    · rwa [heq]
    · rw [heq]
      exact List.mem_cons_of_mem _ hold
  · rintro ⟨hold | hsame, hwide⟩
    · rcases rtake_succ_cases l m with heq | ⟨first, heq, hlength⟩
      · exact .inl (heq ▸ hold)
      · rw [heq] at hold
        rcases List.mem_cons.mp hold with rfl | hmem
        · -- The element that leaves the newest is `n` below the last one.
          have hsub : (a :: (l.rtake m ++ [last])).Sublist (l ++ [last]) := by
            rw [← List.cons_append, ← heq]
            exact (List.drop_sublist _ _).append_right [last]
          have hroom := add_length_le_of_ascending (hascending.sublist hsub)
          omega
        · exact .inl hmem
    · exact .inr hsame

/-! ## Runs of commits -/

/-- One successful commit: what was committed, what it reported and what it left. -/
structure CommitStep where
  batch : CommitBatch
  stats : CommitStats
  tables : Tables Column

/-- The snapshots committed for a domain, with their heights, in order. -/
def commitsOf (steps : List CommitStep) (domainId : DomainId) : List (U64 × TrieSnapshot) :=
  steps.filterMap fun step => snapshotOf step.batch domainId

/-- The newest of them, as many as the policy retains. -/
def newest (history : U64) (steps : List CommitStep) (domainId : DomainId) :
    List (U64 × TrieSnapshot) :=
  (commitsOf steps domainId).rtake history.toNat

/-- A property of each step, given the steps before it. -/
def Throughout (P : List CommitStep → CommitStep → Prop) (steps : List CommitStep) : Prop :=
  ∀ before step, before ++ [step] <+: steps → P before step

theorem throughout_nil (P : List CommitStep → CommitStep → Prop) : Throughout P [] := by
  intro before step h
  simp at h

theorem throughout_concat {P : List CommitStep → CommitStep → Prop} {steps : List CommitStep}
    {last : CommitStep} : Throughout P (steps ++ [last]) ↔ Throughout P steps ∧ P steps last := by
  constructor
  · intro h
    exact ⟨fun before step hstep => h before step (hstep.trans (List.prefix_append _ _)),
      h steps last (List.prefix_rfl)⟩
  · rintro ⟨hsteps, hlast⟩ before step hstep
    rcases List.prefix_concat_iff.mp hstep with heq | hstep
    · obtain ⟨rfl, hsame⟩ := List.append_inj' heq rfl
      cases hsame
      exact hlast
    · exact hsteps before step hstep

section Run

theorem commitsOf_concat (steps : List CommitStep) (step : CommitStep) (domainId : DomainId) :
    commitsOf (steps ++ [step]) domainId
      = commitsOf steps domainId ++ (snapshotOf step.batch domainId).toList := by
  rcases h : snapshotOf step.batch domainId with _ | commit
  · simp [commitsOf, h]
  · simp [commitsOf, h]

variable [Keccak]

/-- Successful commits to a database that was opened with a full retention policy and never
fails. -/
inductive RetainedRun (history : U64) : List CommitStep → Tables Column → Prop where
  | opened {identity : DatabaseIdentity} {tables : Tables Column} :
      Returns (openDatabase identity (.full history)) (fun _ => ∅) () tables →
        RetainedRun history [] tables
  | commit {steps : List CommitStep} {tables tables' : Tables Column} {batch : CommitBatch}
      {stats : CommitStats} : RetainedRun history steps tables →
        Returns (Database.commit (.full history) batch) tables stats tables' →
          RetainedRun history (steps ++ [⟨batch, stats, tables'⟩]) tables'

/-- After a step, each domain it commits has exactly its newest roots recorded, and no
pruning error was reported. -/
def Windowed (history : U64) (before : List CommitStep) (step : CommitStep) : Prop :=
  step.stats.pruningError = none
  ∧ ∀ state ∈ step.batch.states, ∀ height root,
    value (stateRoot state.domainId height) step.tables = .ok root ↔
      ∃ snapshot, (height, snapshot) ∈ newest history (before ++ [step]) state.domainId
        ∧ snapshot.root = root

/-- The newest commits of each domain a step commits are within as many heights below the
marker as the policy retains. -/
def InWindow (history : U64) (before : List CommitStep) (step : CommitStep) : Prop :=
  ∀ state ∈ step.batch.states, ∀ commit ∈ newest history (before ++ [step]) state.domainId,
    step.batch.marker.height.toNat < commit.1.toNat + history.toNat

/-- Every domain is committed at ascending heights. -/
def Ascending (steps : List CommitStep) : Prop :=
  ∀ domainId, (commitsOf steps domainId).Pairwise fun a b => a.1.toNat < b.1.toNat

omit [Keccak] in
theorem Ascending.before {steps : List CommitStep} {step : CommitStep}
    (h : Ascending (steps ++ [step])) : Ascending steps := by
  intro domainId
  have hall := h domainId
  rw [commitsOf_concat] at hall
  exact (List.pairwise_append.mp hall).1

theorem recorded_opened {identity : DatabaseIdentity} {history : U64} {tables : Tables Column}
    (h : Returns (openDatabase identity (.full history)) (fun _ => ∅) () tables) :
    0 < history.toNat ∧ Recorded tables (fun _ _ => none) (fun _ => none) := by
  constructor
  · obtain ⟨_, hvalidate, _⟩ := (readOnly_check _).returns_bind.mp h
    rw [value_give, RetentionPolicy.validate, rejectIf_eq_ok] at hvalidate
    refine Nat.pos_of_ne_zero fun hzero => hvalidate ?_
    rw [BitVec.eq_of_toNat_eq (y := 0#64) hzero]
    rfl
  · have hmove := openDatabase_represents identity (.full history) (represents_empty never) never
    obtain ⟨faults, h⟩ := h
    rw [after, h] at hmove
    exact hmove.records

theorem RetainedRun.history_pos {history : U64} {steps : List CommitStep} {tables : Tables Column}
    (h : RetainedRun history steps tables) : 0 < history.toNat := by
  induction h with
  | opened hopen => exact (recorded_opened hopen).1
  | commit _ _ ih => exact ih

variable {tables tables' : Tables Column} {kept : DomainId → U64 → Option TrieSnapshot}
  {head : DomainId → Option U64} {history : U64} {steps : List CommitStep} {batch : CommitBatch}
  {stats : CommitStats}

theorem Recorded.stateRoot_eq_ok (h : Recorded tables kept head) {domainId : DomainId}
    {height : U64} {root : B256} : value (Database.stateRoot domainId height) tables = .ok root ↔
      ∃ snapshot, kept domainId height = some snapshot ∧ snapshot.root = root := by
  rw [h.stateRoot]
  rcases kept domainId height with _ | snapshot
  · simp
  · simp

section

variable (hhistory : 0 < history.toNat)
include hhistory

omit [Keccak] in
theorem cutoffOf_le_iff {marker height : U64} :
    cutoffOf history marker ≤ height.toNat ↔ marker.toNat < height.toNat + history.toNat := by
  rw [cutoffOf]
  omega

/-- The records are those of the newest commits. -/
def KeepsNewest (history : U64) (steps : List CommitStep) (tables : Tables Column) : Prop :=
  ∃ kept head, Recorded tables kept head
    ∧ ∀ domainId height snapshot, kept domainId height = some snapshot ↔
      (height, snapshot) ∈ newest history steps domainId

omit [Keccak] in
/-- What stays for a domain that commits within the window. -/
theorem keptFrom_eq_some_iff {domainId : DomainId}
    {last : U64 × TrieSnapshot} (hlast : snapshotOf batch domainId = some last)
    (hstate : domainId ∈ batch.states.map (·.domainId))
    (hbelow : last.1.toNat ≤ batch.marker.height.toNat) {commits : List (U64 × TrieSnapshot)}
    (hascending : (commits ++ [last]).Pairwise fun a b => a.1.toNat < b.1.toNat)
    (hkept : ∀ height snapshot, kept domainId height = some snapshot ↔
      (height, snapshot) ∈ commits.rtake history.toNat)
    (hwindow : ∀ commit ∈ (commits ++ [last]).rtake history.toNat,
      batch.marker.height.toNat < commit.1.toNat + history.toNat)
    (height : U64) (snapshot : TrieSnapshot) :
    keptFrom (keptWith kept (snapshotOf batch)) (cutoffOf history batch.marker.height)
      batch.states domainId height = some snapshot ↔
        (height, snapshot) ∈ (commits ++ [last]).rtake history.toNat := by
  have hnewer : (height, snapshot) ∈ commits.rtake history.toNat → last.1 ≠ height := by
    intro hmem heq
    have hlt := (List.pairwise_append.mp hascending).2.2 (height, snapshot)
      (List.mem_of_mem_drop hmem) last (by simp)
    rw [heq] at hlt
    exact Nat.lt_irrefl _ hlt
  rw [mem_rtake_iff hhistory hascending hbelow hwindow, keptFrom, Option.ite_none_left_eq_some,
    keptWith_eq_some, hkept, ← cutoffOf_le_iff hhistory, hlast]
  simp only [hstate, true_and, Nat.not_lt, Option.some.injEq]
  constructor
  · rintro ⟨hcutoff, hsame | ⟨_, hold⟩⟩
    · exact ⟨.inr hsame.symm, hcutoff⟩
    · exact ⟨.inl hold, hcutoff⟩
  · rintro ⟨hold | hsame, hcutoff⟩
    · refine ⟨hcutoff, .inr ⟨fun stamp other heq => ?_, hold⟩⟩
      have hne := hnewer hold
      rw [heq] at hne
      exact hne
    · exact ⟨hcutoff, .inl hsame.symm⟩

/-- A commit within the window. -/
theorem KeepsNewest.commit (h : KeepsNewest history steps tables)
    (hcommit : Returns (commit (.full history) batch) tables stats tables')
    (hascending : Ascending (steps ++ [⟨batch, stats, tables'⟩]))
    (hwindow : InWindow history steps ⟨batch, stats, tables'⟩) :
    KeepsNewest history (steps ++ [⟨batch, stats, tables'⟩]) tables'
      ∧ Windowed history steps ⟨batch, stats, tables'⟩ := by
  obtain ⟨kept, head, hrecorded, hkept⟩ := h
  obtain ⟨hdomains, hbelow, hquiet, hpass⟩ := hrecorded.commit_full hcommit
  have hstate : ∀ state ∈ batch.states, snapshotOf batch state.domainId
      = some (state.consensusHeight, state.snapshot) := by
    intro state hstate
    rw [snapshotOf, (stateOf_eq_some hdomains).mpr ⟨hstate, rfl⟩]
    rfl
  have hlast : ∀ state ∈ batch.states, commitsOf (steps ++ [⟨batch, stats, tables'⟩]) state.domainId
      = commitsOf steps state.domainId ++ [(state.consensusHeight, state.snapshot)] := by
    intro state hmem
    rw [commitsOf_concat]
    rw [hstate state hmem]
    rfl
  have herror : stats.pruningError = none := by
    refine hquiet.mpr fun state hmem => (cutoffOf_le_iff hhistory).mpr ?_
    refine hwindow state hmem (state.consensusHeight, state.snapshot) ?_
    obtain ⟨n, hn⟩ : ∃ n, history.toNat = n + 1 := ⟨history.toNat - 1, by omega⟩
    rw [newest, hlast state hmem, hn]
    simp
  have hkept' : ∀ domainId height snapshot,
      keptFrom (keptWith kept (snapshotOf batch)) (cutoffOf history batch.marker.height)
        batch.states domainId height = some snapshot ↔
          (height, snapshot) ∈ newest history (steps ++ [⟨batch, stats, tables'⟩]) domainId := by
    intro domainId height snapshot
    by_cases hmem : domainId ∈ batch.states.map (·.domainId)
    · obtain ⟨state, hmem', rfl⟩ := List.mem_map.mp hmem
      have hascending' := hascending state.domainId
      have hwindow' := hwindow state hmem'
      rw [newest] at hwindow' ⊢
      rw [hlast state hmem'] at hascending' hwindow' ⊢
      exact keptFrom_eq_some_iff hhistory (hstate state hmem') hmem (hbelow state hmem') hascending'
        (hkept state.domainId) hwindow' height snapshot
    · have hidle : snapshotOf batch domainId = none := by
        rw [snapshotOf, stateOf_eq_none.mpr fun state hstate heq =>
          hmem (List.mem_map.mpr ⟨state, hstate, heq⟩)]
        rfl
      rw [newest, commitsOf_concat]
      rw [hidle, Option.toList_none, List.append_nil, ← newest, ← hkept, keptFrom,
        if_neg (fun h => hmem h.1), keptWith, hidle]
  refine ⟨⟨_, _, hpass herror, hkept'⟩, herror, fun state _ height root => ?_⟩
  rw [(hpass herror).stateRoot_eq_ok]
  exact exists_congr fun snapshot => and_congr_left' (hkept' state.domainId height snapshot)

theorem inWindow_of_windowed (h : Recorded tables kept head)
    (hcommit : Returns (commit (.full history) batch) tables stats tables')
    (hwindowed : Windowed history steps ⟨batch, stats, tables'⟩) :
    InWindow history steps ⟨batch, stats, tables'⟩
      ∧ ∃ kept' head', Recorded tables' kept' head' := by
  obtain ⟨_, _, _, hpass⟩ := h.commit_full hcommit
  obtain ⟨herror, hroots⟩ := hwindowed
  have hrecorded := hpass herror
  refine ⟨fun state hstate commit hmem => ?_, _, _, hrecorded⟩
  have hroot := (hroots state hstate commit.1 commit.2.root).mpr ⟨commit.2, hmem, rfl⟩
  obtain ⟨snapshot, hkept, _⟩ := hrecorded.stateRoot_eq_ok.mp hroot
  rw [keptFrom, Option.ite_none_left_eq_some] at hkept
  refine (cutoffOf_le_iff hhistory).mp (Nat.le_of_not_lt fun hlow => hkept.1 ⟨?_, hlow⟩)
  exact List.mem_map.mpr ⟨state, hstate, rfl⟩

end

/-- **The retention window.**  In a run of commits at ascending heights, every commit leaves
exactly the newest roots of the domains it commits, without a pruning error, if and only if
at every commit those roots are within the window below the marker. -/
theorem retention_window (history : U64) (steps : List CommitStep) (tables : Tables Column)
    (hrun : RetainedRun history steps tables) (hascending : Ascending steps) :
    Throughout (Windowed history) steps ↔ Throughout (InWindow history) steps := by
  have hhistory := hrun.history_pos
  constructor
  · intro hall
    suffices h : Throughout (InWindow history) steps ∧ ∃ kept head,
      Recorded tables kept head from h.1
    induction hrun with
    | opened hopen => exact ⟨throughout_nil _, _, _, (recorded_opened hopen).2⟩
    | commit _ hcommit ih =>
      obtain ⟨hbefore, hlast⟩ := throughout_concat.mp hall
      obtain ⟨hwindow, kept, head, hrecorded⟩ := ih hascending.before hbefore
      obtain ⟨hstep, hrecorded'⟩ := inWindow_of_windowed hhistory hrecorded hcommit hlast
      exact ⟨throughout_concat.mpr ⟨hwindow, hstep⟩, hrecorded'⟩
  · intro hall
    suffices h : Throughout (Windowed history) steps ∧ KeepsNewest history steps tables from h.1
    induction hrun with
    | opened hopen =>
      exact ⟨throughout_nil _, _, _, (recorded_opened hopen).2, by simp [newest, commitsOf]⟩
    | commit _ hcommit ih =>
      obtain ⟨hbefore, hlast⟩ := throughout_concat.mp hall
      obtain ⟨hwindowed, hnewest⟩ := ih hascending.before hbefore
      obtain ⟨hnewest', hstep⟩ := hnewest.commit hhistory hcommit hascending hlast
      exact ⟨throughout_concat.mpr ⟨hwindowed, hstep⟩, hnewest'⟩

end Run

/-! ## Runs on one domain -/

section Sample

variable {first second : Nat}

attribute [local instance] rollingKeccak

def returned {α : Type} (x : Storage α) (tables : Tables Column) : Option (α × Tables Column) :=
  match x ⟨tables, never⟩ with
  | .ok a disk => some (a, disk.tables)
  | .error _ _ => none

theorem returns_of_returned {α : Type} {x : Storage α} {tables tables' : Tables Column} {a : α}
    (h : returned x tables = some (a, tables')) : Returns x tables a tables' := by
  rw [returned] at h
  rcases hrun : x ⟨tables, never⟩ with ⟨b, disk⟩ | ⟨e, disk⟩
  · rw [hrun] at h
    cases h
    exact ⟨disk.faults, hrun⟩
  · rw [hrun] at h
    cases h

def leafSteps (first second : Nat) : Option (CommitStep × CommitStep) := do
  let (_, tables) ← returned (openDatabase ⟨1, 2⟩ (.full 2)) (fun _ => ∅)
  let (stats, tables) ← returned (commit (.full 2) (leafBatch first)) tables
  let (stats', tables') ← returned (commit (.full 2) (leafBatch second)) tables
  return (⟨leafBatch first, stats, tables⟩, ⟨leafBatch second, stats', tables'⟩)

variable {steps : CommitStep × CommitStep}

theorem retainedRun_of_leafSteps (h : leafSteps first second = some steps) :
    RetainedRun 2 [steps.1, steps.2] steps.2.tables
      ∧ steps.1.batch = leafBatch first ∧ steps.2.batch = leafBatch second := by
  simp only [leafSteps, bind, Option.bind_eq_some_iff, Prod.exists] at h
  obtain ⟨_, tables, hopen, stats, tables₁, hfirst, stats', tables₂, hsecond, heq⟩ := h
  cases heq
  exact ⟨.commit (.commit (.opened (returns_of_returned hopen)) (returns_of_returned hfirst))
    (returns_of_returned hsecond), rfl, rfl⟩

theorem snapshotOf_leafBatch (height : Nat) (domainId : DomainId) :
    snapshotOf (leafBatch height) domainId = if domainId = 7 then
      some (BitVec.ofNat 64 height, leafSnapshot (BitVec.ofNat 8 height)) else none := by
  by_cases h : domainId = 7
  · simp [snapshotOf, stateOf, leafBatch, h]
  · have hnone : stateOf (leafBatch height) domainId = none := by
      refine stateOf_eq_none.mpr fun state hstate heq => h ?_
      rw [← heq, List.mem_singleton.mp hstate]
    rw [if_neg h, snapshotOf, hnone]
    rfl

theorem commitsOf_leafSteps (h : leafSteps first second = some steps) (domainId : DomainId) :
    commitsOf [steps.1, steps.2] domainId = if domainId = 7 then
      [(BitVec.ofNat 64 first, leafSnapshot (BitVec.ofNat 8 first)),
        (BitVec.ofNat 64 second, leafSnapshot (BitVec.ofNat 8 second))] else [] := by
  obtain ⟨_, hfirst, hsecond⟩ := retainedRun_of_leafSteps h
  simp only [commitsOf, List.filterMap_cons, List.filterMap_nil, hfirst, hsecond,
    snapshotOf_leafBatch]
  by_cases hdomain : domainId = 7
  · simp only [if_pos hdomain]
  · simp only [if_neg hdomain]

theorem ascending_leafSteps (h : leafSteps first second = some steps) (hlt : first < second)
    (hword : second < 2 ^ 64) : Ascending [steps.1, steps.2] := by
  intro domainId
  rw [commitsOf_leafSteps h]
  split
  · simp only [List.pairwise_cons, List.mem_singleton, forall_eq, List.not_mem_nil, false_implies,
      implies_true, List.Pairwise.nil, and_true, BitVec.toNat_ofNat]
    omega
  · exact List.Pairwise.nil

def keepsFirst (first second : Nat) : Bool :=
  match leafSteps first second with
  | some steps => (look steps.2.tables .metadata (rootKey 7 (BitVec.ofNat 64 first))).isSome
  | none => false

/-- Two roots were committed and two are to be retained, but the second commit is two
heights after the first one and prunes it. -/
theorem retention_window_gap : ∃ steps tables, RetainedRun 2 steps tables ∧ Ascending steps
    ∧ ¬Throughout (Windowed 2) steps := by
  have hrun : (leafSteps 1 3).isSome = true := by decide +kernel
  obtain ⟨steps, hsteps⟩ := Option.isSome_iff_exists.mp hrun
  obtain ⟨hretained, hfirst, hsecond⟩ := retainedRun_of_leafSteps hsteps
  refine ⟨_, _, hretained, ascending_leafSteps hsteps (by decide) (by decide), fun hall => ?_⟩
  obtain ⟨_, hroots⟩ := hall [steps.1] steps.2 List.prefix_rfl
  have hmem : (⟨7, 3, leafSnapshot 3⟩ : DomainStateCommit) ∈ steps.2.batch.states := by
    rw [hsecond]
    exact List.mem_singleton.mpr rfl
  have hroot := (hroots _ hmem 1 (leafSnapshot 1).root).mpr ⟨leafSnapshot 1, ?_, rfl⟩
  · have hgone : keepsFirst 1 3 = false := by decide +kernel
    rw [keepsFirst, hsteps] at hgone
    have hnone : look steps.2.tables .metadata (rootKey 7 1) = none := by simpa using hgone
    rw [stateRoot, value_bind (readOnly_get _ _), value_get] at hroot
    rw [hnone] at hroot
    cases hroot
  · show (1, leafSnapshot 1) ∈ (commitsOf [steps.1, steps.2] 7).rtake 2
    rw [commitsOf_leafSteps hsteps]
    exact List.mem_cons_self

/-- Two commits at consecutive heights keep both roots. -/
theorem retention_window_consecutive : ∃ steps tables, RetainedRun 2 steps tables
    ∧ steps.length = 2 ∧ Throughout (Windowed 2) steps := by
  have hrun : (leafSteps 1 2).isSome = true := by decide +kernel
  obtain ⟨steps, hsteps⟩ := Option.isSome_iff_exists.mp hrun
  obtain ⟨hretained, hfirst, hsecond⟩ := retainedRun_of_leafSteps hsteps
  have hheight : ∀ domainId, ∀ commit ∈ commitsOf [steps.1, steps.2] domainId,
      1 ≤ commit.1.toNat := by
    intro domainId
    rw [commitsOf_leafSteps hsteps]
    split
    · simp
    · simp
  have hone : InWindow 2 [] steps.1 := by
    intro state _ commit hmem
    have hmarker : steps.1.batch.marker.height.toNat = 1 := by rw [hfirst]; rfl
    have hhistory : (2 : U64).toNat = 2 := rfl
    omega
  have htwo : InWindow 2 [steps.1] steps.2 := by
    intro state _ commit hmem
    have hle := hheight state.domainId commit (List.mem_of_mem_drop hmem)
    have hmarker : steps.2.batch.marker.height.toNat = 2 := by rw [hsecond]; rfl
    have hhistory : (2 : U64).toNat = 2 := rfl
    omega
  have hbefore : Throughout (InWindow 2) ([] ++ [steps.1]) :=
    throughout_concat.mpr ⟨throughout_nil _, hone⟩
  have hwindow : Throughout (InWindow 2) ([steps.1] ++ [steps.2]) :=
    throughout_concat.mpr ⟨hbefore, htwo⟩
  exact ⟨_, _, hretained, rfl, (retention_window 2 _ _ hretained
    (ascending_leafSteps hsteps (by decide) (by decide))).mpr hwindow⟩

end Sample

end Arbor.Database
