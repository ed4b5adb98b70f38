import Arbor.Network.Snapshot

/-!
# Staging in any order

Chunks may be offered in any order and any number of times.  A call that fails leaves the
staging area as it was, and which chunks were accepted determines the area.
-/

namespace Arbor

open Result List

namespace SnapshotStaging

section Staging

variable [Keccak] {staging after : SnapshotStaging} {key : DomainId × U32} {bytes : Bytes}
  {manifest : CheckpointManifest}

/-- `stageChunk` in place: the chunk is put in, and then the total is set. -/
def stageInPlace (key : DomainId × U32) (bytes : Bytes) :
    EStateM SnapshotError SnapshotStaging Unit := do
  let staging ← get
  match staging.expected[key]? with
  | none => throw .unexpectedChunk
  | some descriptor =>
    if SnapshotManifest.verifyChunk descriptor bytes = false then throw .chunkHash
    else
      match staging.chunks[key]? with
      | some existing => if existing = bytes then return () else throw .conflictingChunk
      | none =>
        let total := staging.stagedBytes + bytes.length
        if MAX_SNAPSHOT_TOTAL_BYTES < total then throw (.limit "snapshot staged bytes")
        modify fun staging => { staging with chunks := staging.chunks.insert key bytes }
        modify fun staging => { staging with stagedBytes := total }

theorem stageInPlace_eq (staging : SnapshotStaging) (key : DomainId × U32) (bytes : Bytes) :
    stageInPlace key bytes staging = match staging.stageChunk key.1 key.2 bytes with
      | .ok after => .ok () after
      | .error error => .error error staging := by
  change (match staging.expected[key]? with
    | none => _
    | some descriptor => _ : EStateM SnapshotError SnapshotStaging Unit) staging = _
  unfold stageChunk
  cases staging.expected[key]? with
  | none => rfl
  | some descriptor =>
    cases staging.chunks[key]? with
    | some existing =>
      dsimp only
      split
      · rfl
      · split <;> rfl
    | none =>
      dsimp only [rejectIf]
      split
      · rfl
      · split <;> rfl

/-- What an accepted call does. -/
theorem stageChunk_eq_ok (h : staging.stageChunk key.1 key.2 bytes = .ok after) :
    (∃ descriptor, staging.expected[key]? = some descriptor ∧
      SnapshotManifest.verifyChunk descriptor bytes = true) ∧
    (staging.chunks[key]? = some bytes ∧ after = staging ∨ staging.chunks[key]? = none ∧
      staging.stagedBytes + bytes.length ≤ MAX_SNAPSHOT_TOTAL_BYTES ∧
      after = { staging with
        chunks := staging.chunks.insert key bytes
        stagedBytes := staging.stagedBytes + bytes.length }) := by
  unfold stageChunk at h
  cases hexpected : staging.expected[key]? with
  | none =>
    rw [hexpected] at h
    cases h
  | some descriptor =>
    simp only [hexpected] at h
    split at h
    · cases h
    rename_i hverified
    refine ⟨⟨descriptor, rfl, by simpa using hverified⟩, ?_⟩
    cases hchunk : staging.chunks[key]? with
    | some existing =>
      simp only [hchunk] at h
      split at h
      · rename_i hsame
        cases h
        exact .inl ⟨by rw [hsame], rfl⟩
      · cases h
    | none =>
      simp only [hchunk] at h
      obtain ⟨hlimit, h⟩ := check_bind_eq_ok.mp h
      cases h
      exact .inr ⟨rfl, Nat.not_lt.mp (rejectIf_eq_ok.mp hlimit), rfl⟩

def ofManifest (manifest : CheckpointManifest) : SnapshotStaging :=
  ⟨manifest, ∅, (∅ : BTreeMap (DomainId × U32) SnapshotChunk).insertMany manifest.declared, 0⟩

/-- The area after some calls, with the chunks accepted by them. -/
structure Offered where
  area : SnapshotStaging
  accepted : List ((DomainId × U32) × Bytes)

def offer (reached : Offered) (chunk : (DomainId × U32) × Bytes) : Offered :=
  match stageInPlace chunk.1 chunk.2 reached.area with
  | .ok _ after => ⟨after, chunk :: reached.accepted⟩
  | .error _ after => ⟨after, reached.accepted⟩

def offerAll (manifest : CheckpointManifest) (calls : List ((DomainId × U32) × Bytes)) : Offered :=
  calls.foldl offer ⟨ofManifest manifest, []⟩

/-- The total is the sum of what is staged, and is within the limit. -/
structure Counted (staging : SnapshotStaging) : Prop where
  total : staging.stagedBytes = (staging.chunks.toList.map fun chunk => chunk.2.length).sum
  limit : staging.stagedBytes ≤ MAX_SNAPSHOT_TOTAL_BYTES

/-- What is staged was declared, with this length and this hash. -/
structure Sound (staging : SnapshotStaging) : Prop extends Counted staging where
  chunk : ∀ (key : DomainId × U32) (bytes : Bytes), staging.chunks[key]? = some bytes →
    ∃ descriptor, (key, descriptor) ∈ staging.manifest.declared ∧
      descriptor.bytes.toNat = bytes.length ∧ keccak256 bytes = descriptor.hash

/-- What every call keeps: the area holds the accepted chunks, and these were expected. -/
structure Held (manifest : CheckpointManifest) (reached : Offered) : Prop
    extends Counted reached.area where
  manifest_eq : reached.area.manifest = manifest
  expected_eq : reached.area.expected = (ofManifest manifest).expected
  verified : ∀ chunk ∈ reached.accepted, ∃ descriptor,
    reached.area.expected[chunk.1]? = some descriptor ∧
      SnapshotManifest.verifyChunk descriptor chunk.2 = true
  found : ∀ (key : DomainId × U32) (bytes : Bytes),
    reached.area.chunks[key]? = some bytes ↔ (key, bytes) ∈ reached.accepted

variable {reached reached' : Offered}

theorem held_ofManifest : Held manifest ⟨ofManifest manifest, []⟩ where
  total := rfl
  limit := Nat.zero_le _
  manifest_eq := rfl
  expected_eq := rfl
  verified _ h := by cases h
  found key bytes := by simp [ofManifest]

theorem Held.accepted (h : Held manifest reached)
    (hstaged : reached.area.stageChunk key.1 key.2 bytes = .ok after) :
    Held manifest ⟨after, (key, bytes) :: reached.accepted⟩ := by
  obtain ⟨hexpected, hafter⟩ := stageChunk_eq_ok hstaged
  rcases hafter with ⟨hthere, rfl⟩ | ⟨hnew, hlimit, rfl⟩
  · refine { h with
      verified := forall_mem_cons.mpr ⟨hexpected, h.verified⟩
      found := fun other found => ?_ }
    rw [h.found, mem_cons]
    refine ⟨.inr, Or.rec (fun heq => ?_) id⟩
    rw [heq, ← h.found]
    exact hthere
  · refine ⟨⟨?_, hlimit⟩, h.manifest_eq, h.expected_eq,
      forall_mem_cons.mpr ⟨hexpected, h.verified⟩, fun other found => ?_⟩
    · change reached.area.stagedBytes + bytes.length = _
      rw [h.total, ((OrdMap.toList_insert_perm _ hnew bytes).map _).sum_eq, map_cons, sum_cons,
        Nat.add_comm]
    · rw [← Std.ExtTreeMap.mem_toList_iff_getElem?_eq_some,
        (OrdMap.toList_insert_perm _ hnew bytes).mem_iff, mem_cons, mem_cons,
        Std.ExtTreeMap.mem_toList_iff_getElem?_eq_some, h.found]

theorem Held.offer (h : Held manifest reached) (chunk : (DomainId × U32) × Bytes) :
    Held manifest (offer reached chunk) := by
  unfold SnapshotStaging.offer
  rw [stageInPlace_eq]
  cases hstaged : reached.area.stageChunk chunk.1.1 chunk.1.2 chunk.2 with
  | ok after => exact h.accepted hstaged
  | error error => exact h

theorem held_offerAll (manifest : CheckpointManifest) (calls : List ((DomainId × U32) × Bytes)) :
    Held manifest (offerAll manifest calls) :=
  foldlRecOn calls offer held_ofManifest fun _ h chunk _ => h.offer chunk

theorem Held.sound (h : Held manifest reached) : Sound reached.area where
  toCounted := h.toCounted
  chunk key bytes hfound := by
    obtain ⟨descriptor, hexpected, hmatches⟩ := h.verified _ ((h.found key bytes).mp hfound)
    rw [h.expected_eq] at hexpected
    rcases OrdMap.mem_of_getElem?_insertMany _ hexpected with hmem | hnone
    · rw [h.manifest_eq]
      exact ⟨descriptor, hmem, of_decide_eq_true hmatches⟩
    · rw [Std.ExtTreeMap.getElem?_empty] at hnone
      cases hnone

theorem Held.mem_of_key (h : Held manifest reached) (h' : Held manifest reached')
    (hinj : Set.InjOn keccak256
      {bytes | ∃ key, (key, bytes) ∈ reached.accepted ++ reached'.accepted})
    (hkey : key ∈ reached'.accepted.map Prod.fst) (hmem : (key, bytes) ∈ reached.accepted) :
    (key, bytes) ∈ reached'.accepted := by
  obtain ⟨⟨_, other⟩, hother, rfl⟩ := mem_map.mp hkey
  obtain ⟨descriptor, hexpected, hverified⟩ := h.verified _ hmem
  obtain ⟨descriptor', hexpected', hverified'⟩ := h'.verified _ hother
  rw [h.expected_eq] at hexpected
  rw [h'.expected_eq] at hexpected'
  obtain rfl := Option.some.inj (hexpected.symm.trans hexpected')
  rw [hinj ⟨_, mem_append_left _ hmem⟩ ⟨_, mem_append_right _ hother⟩
    ((of_decide_eq_true hverified).2.trans (of_decide_eq_true hverified').2.symm)]
  exact hother

/-- The accepted keys determine the area. -/
theorem Held.ext (h : Held manifest reached) (h' : Held manifest reached')
    (hinj : Set.InjOn keccak256
      {bytes | ∃ key, (key, bytes) ∈ reached.accepted ++ reached'.accepted})
    (hkeys : ∀ key, key ∈ reached.accepted.map Prod.fst ↔ key ∈ reached'.accepted.map Prod.fst) :
    reached.area = reached'.area := by
  have hchunks : reached.area.chunks = reached'.area.chunks := by
    refine Std.ExtTreeMap.ext_getElem? fun key => Option.ext fun bytes => ?_
    rw [h.found, h'.found]
    constructor
    · intro hmem
      exact h.mem_of_key h' hinj ((hkeys key).mp (mem_map_of_mem hmem)) hmem
    · intro hmem
      refine h'.mem_of_key h ?_ ((hkeys key).mpr (mem_map_of_mem hmem)) hmem
      simpa only [mem_append, or_comm] using hinj
  have htotal : reached.area.stagedBytes = reached'.area.stagedBytes := by
    rw [h.total, h'.total, hchunks]
  exact (mk.injEq ..).mpr ⟨h.manifest_eq.trans h'.manifest_eq.symm, hchunks,
    h.expected_eq.trans h'.expected_eq.symm, htotal⟩

/-- **Staging.**  Failures change nothing, every area is sound, and areas with the same chunks
accepted are equal. -/
theorem staging_order_insensitive [Secp256k1] :
    (∀ manifestBytes network genesisHash verifier staging,
      new manifestBytes network genesisHash verifier = .ok staging →
        staging = ofManifest staging.manifest) ∧
    (∀ key bytes staging error after,
      stageInPlace key bytes staging = .error error after → after = staging) ∧
    ∀ manifest calls, (offerAll manifest calls).area.manifest = manifest ∧
      Sound (offerAll manifest calls).area ∧
      ∀ calls', Set.InjOn keccak256 {bytes | ∃ key,
          (key, bytes) ∈
            (offerAll manifest calls).accepted ++ (offerAll manifest calls').accepted} →
        (∀ key, key ∈ (offerAll manifest calls).accepted.map Prod.fst ↔
          key ∈ (offerAll manifest calls').accepted.map Prod.fst) →
        (offerAll manifest calls).area = (offerAll manifest calls').area ∧
          (offerAll manifest calls).area.finish = (offerAll manifest calls').area.finish := by
  refine ⟨?_, ?_, fun manifest calls => ?_⟩
  · intro manifestBytes network genesisHash verifier staging h
    obtain ⟨manifest, _, h⟩ := bind_eq_ok.mp h
    obtain ⟨_, h⟩ := check_bind_eq_ok.mp h
    obtain ⟨_, h⟩ := check_bind_eq_ok.mp h
    cases h
    rfl
  · intro key bytes staging error after h
    rw [stageInPlace_eq] at h
    split at h
    · cases h
    · cases h
      rfl
  · have hheld := held_offerAll manifest calls
    refine ⟨hheld.manifest_eq, hheld.sound, fun calls' hinj hkeys => ?_⟩
    have harea := hheld.ext (held_offerAll manifest calls') hinj hkeys
    exact ⟨harea, congrArg finish harea⟩

end Staging

section Sample

attribute [local instance] rollingKeccak namingCurve

/-- The manifest of a domain with two chunks. -/
def twoChunks : CheckpointManifest where
  networkId := 5
  genesisHash := 6
  height := 1
  consensusHash := 7
  timestamp := 1700000000
  validatorSetHash := 9
  nextValidatorSetHash := 9
  validatorSet := ⟨0, []⟩
  domainHeadsRoot := 0
  rootDomainId := 1
  governanceAddress := 0xfef
  finalityProof := []
  domains := [⟨1, ⟨2048, 1, 30000000, 7⟩, ⟨1, 1, 0, 0, 0, 0, 0, 0, 0, 30000000, 0, 7⟩, 0, none,
    ⟨1, 1, 0, [⟨0, 2, keccak256 [1, 2]⟩, ⟨1, 1, keccak256 [3]⟩]⟩, ⟨0, 1, none, []⟩⟩]

def inOrder : List ((DomainId × U32) × Bytes) := [((1, 0), [1, 2]), ((1, 1), [3])]

/-- The last chunk first and once more at the end, and a wrong one in between. -/
def outOfOrder : List ((DomainId × U32) × Bytes) :=
  [((1, 1), [3]), ((1, 0), [9, 9]), ((1, 0), [1, 2]), ((1, 1), [3])]

theorem staging_order_insensitive_two_chunks :
    (offerAll twoChunks inOrder).area = (offerAll twoChunks outOfOrder).area ∧
      (offerAll twoChunks outOfOrder).area.stagedBytes = 3 := by
  have haccepted : (offerAll twoChunks inOrder).accepted.map Prod.fst = [(1, 1), (1, 0)] ∧
      (offerAll twoChunks outOfOrder).accepted.map Prod.fst = [(1, 1), (1, 0), (1, 1)] := by
    decide +kernel
  have hapart : let strings := ((offerAll twoChunks inOrder).accepted ++
        (offerAll twoChunks outOfOrder).accepted).map Prod.snd
      ∀ x ∈ strings, ∀ y ∈ strings, keccak256 x = keccak256 y → x = y := by
    decide +kernel
  obtain ⟨_, _, hall⟩ := staging_order_insensitive.2.2 twoChunks inOrder
  refine ⟨(hall outOfOrder ?_ ?_).1, by decide +kernel⟩
  · rintro x ⟨key, hx⟩ y ⟨key', hy⟩
    exact hapart x (mem_map_of_mem hx) y (mem_map_of_mem hy)
  · rw [haccepted.1, haccepted.2]
    simp only [mem_cons, not_mem_nil, or_false]
    refine fun key => ⟨.imp_right .inl, ?_⟩
    rintro (h | h | h)
    exacts [.inl h, .inr h, .inl h]

end Sample

end SnapshotStaging

end Arbor
