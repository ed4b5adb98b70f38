import Arbor.Lib.Panic
import Arbor.Storage.Database

/-!
# What the database records

Metadata values are read back as they were written, manifests are canonical, and the keys of
the schema tell their owners, heights and kinds apart: each kind starts with a letter of its own.
-/

namespace Arbor.Database

open Result Reader Device Canonical List Panic

variable {domainId domainId' : DomainId} {height : U64}

/-! ## Values -/

theorem decodeHash_toBytes (hash : B256) (name : String) :
    decodeHash (toBytes hash) name = .ok hash := by
  rw [decodeHash, ofBytes_toBytes (by decide)]
  rfl

variable (marker : FinalizedMarker)

theorem reads_marker : Reads readMarker (encodeMarker marker) marker :=
  (reads_word (by decide) _ marker.height).bind
    ((reads_word (by decide) _ marker.consensusHash).bind
      ((reads_word (by decide) _ marker.domainHeadsRoot).finally (reads_pure marker)))

theorem decodeMarker_encodeMarker : decodeMarker (encodeMarker marker) = .ok marker := by
  have hread := reads_marker marker []
  rw [append_nil] at hread
  rw [decodeMarker, hread]
  rfl

theorem reads_head (height : U64) (root : B256) :
    Reads readHead (encodeHead height root) (height, root) :=
  (reads_word (by decide) _ height).bind
    ((reads_word (by decide) _ root).finally (reads_pure (height, root)))

theorem decodeHead_encodeHead (height : U64) (root : B256) :
    decodeHead (encodeHead height root) = .ok (height, root) := by
  have hread := reads_head height root []
  rw [append_nil] at hread
  rw [decodeHead, hread]
  rfl

def manifestBytes (manifest : ReachabilityManifest) : Bytes :=
  encodeCount manifest.nodeHashes.length ++ manifest.nodeHashes.flatMap toBytes
    ++ (encodeCount manifest.leafKeys.length ++ manifest.leafKeys.flatMap toBytes)

variable {manifest : ReachabilityManifest}

theorem encode_eq_ok {bytes : Bytes} : manifest.encode = .ok bytes ↔
      (manifest.nodeHashes.length < 2 ^ 32 ∧ manifest.leafKeys.length < 2 ^ 32)
        ∧ bytes = manifestBytes manifest := by
  simp only [ReachabilityManifest.encode, check_bind_eq_ok, rejectIf_eq_ok, not_le]
  rw [← and_assoc]
  exact and_congr_right fun _ => ⟨fun h => (Except.ok.inj h).symm, fun h => by rw [h]; rfl⟩

theorem run_takeU32 {count : Nat} (hcount : count < 2 ^ 32) (rest : Bytes) :
    ∃ word : U32, takeU32.run (encodeCount count ++ rest) = .ok (word, rest)
      ∧ word.toNat = count := by
  refine ⟨BitVec.ofNat 32 count, reads_word (by decide) _ _ rest, ?_⟩
  rw [BitVec.toNat_ofNat, Nat.mod_eq_of_lt hcount]

theorem reads_takeHashes (hashes : List B256) :
    Reads (takeHash.times hashes.length) (hashes.flatMap toBytes) hashes :=
  Reads.times hashes fun hash _ => reads_word (by decide) _ hash

theorem length_flatMap_toBytes (hashes : List B256) :
    (hashes.flatMap toBytes).length = hashes.length * 32 := by
  simp [length_flatMap]

theorem decode_manifestBytes
    (hnodes : manifest.nodeHashes.length < 2 ^ 32) (hleaves : manifest.leafKeys.length < 2 ^ 32)
    (hsorted : manifest.nodeHashes.Pairwise (· < ·))
    (hsorted' : manifest.leafKeys.Pairwise (· < ·)) :
    ReachabilityManifest.decode (manifestBytes manifest) = .ok manifest := by
  obtain ⟨nodeCount, hnodeCount, hnodeNat⟩ := run_takeU32 hnodes
    (manifest.nodeHashes.flatMap toBytes
      ++ (encodeCount manifest.leafKeys.length ++ manifest.leafKeys.flatMap toBytes))
  obtain ⟨leafCount, hleafCount, hleafNat⟩ := run_takeU32 hleaves
    (manifest.leafKeys.flatMap toBytes)
  have hlong : ¬(manifest.nodeHashes.flatMap toBytes ++ (encodeCount manifest.leafKeys.length
      ++ manifest.leafKeys.flatMap toBytes)).length < manifest.nodeHashes.length * 32 + 4 := by
    rw [length_append, length_append, length_flatMap_toBytes, encodeCount, length_toBytes]
    omega
  have hleafRead := reads_takeHashes manifest.leafKeys []
  rw [append_nil] at hleafRead
  have horder : ¬(strictlySorted manifest.nodeHashes = false ∨
      strictlySorted manifest.leafKeys = false) := by
    rw [strictlySorted_iff.mpr hsorted, strictlySorted_iff.mpr hsorted']
    simp
  rw [ReachabilityManifest.decode, manifestBytes, append_assoc, hnodeCount, ok_bind]
  dsimp only
  rw [hnodeNat, rejectIf_neg hlong, ok_bind, reads_takeHashes, ok_bind]
  rw [hleafCount, ok_bind]
  rw [hleafNat, rejectIf_neg (by rw [length_flatMap_toBytes]; exact fun h => h rfl), ok_bind,
    hleafRead, ok_bind, rejectIf_neg horder]
  rfl

theorem pairwise_lt_keys (t : BTreeMap B256 Bytes) : t.keys.Pairwise (· < ·) :=
  Std.ExtTreeMap.ordered_keys.imp fun h => compare_lt_iff.mp h

theorem decode_manifestOf {snapshot : TrieSnapshot} {bytes : Bytes}
    (h : (manifestOf snapshot).encode = .ok bytes) :
    ReachabilityManifest.decode bytes = .ok (manifestOf snapshot) := by
  obtain ⟨⟨hnodes, hleaves⟩, rfl⟩ := encode_eq_ok.mp h
  exact decode_manifestBytes hnodes hleaves (pairwise_lt_keys _) (pairwise_lt_keys _)

/-! ## Manifests are canonical -/

/-- A read of `n` bytes at the cursor, which has passed what is not left of the whole. -/
def takeGuarded {α : Type} (total n : Nat) (reader : Reader StorageError α) (rest : Bytes) :
    ExceptT StorageError Option (α × Bytes) := do
  panicUnless (total - rest.length + n < 2 ^ 64)
  step (reader.run rest)

def takeHashesGuarded (total : Nat) : Nat → Bytes → ExceptT StorageError Option (List B256 × Bytes)
  | 0, rest => pure ([], rest)
  | n + 1, rest => do
    let (hash, rest) ← takeGuarded total 32 takeHash rest
    let (hashes, rest) ← takeHashesGuarded total n rest
    return (hash :: hashes, rest)

/-- The decoder with the arithmetic of its cursor and lengths, on 64-bit integers. -/
def ReachabilityManifest.decodeGuarded (input : Bytes) :
    ExceptT StorageError Option ReachabilityManifest := do
  let (nodeCount, rest) ← takeGuarded input.length 4 takeU32 input
  step (rejectIf (2 ^ 64 ≤ nodeCount.toNat * 32) (.limitExceeded "manifest nodes"))
  panicUnless (nodeCount.toNat * 32 + 4 < 2 ^ 64)
  step (rejectIf (rest.length < nodeCount.toNat * 32 + 4)
    (.corruptMetadata "truncated node manifest"))
  -- A vector that asks for more than `isize::MAX` bytes panics.
  panicUnless (nodeCount.toNat * 32 < 2 ^ 63)
  let (nodeHashes, rest) ← takeHashesGuarded input.length nodeCount.toNat rest
  let (leafCount, rest) ← takeGuarded input.length 4 takeU32 rest
  panicUnless (leafCount.toNat * 32 < 2 ^ 64)
  let expected := input.length - rest.length + leafCount.toNat * 32
  step (rejectIf (2 ^ 64 ≤ expected) (.limitExceeded "manifest leaves"))
  step (rejectIf (expected ≠ input.length) (.corruptMetadata "manifest length"))
  panicUnless (leafCount.toNat * 32 < 2 ^ 63)
  let (leafKeys, _) ← takeHashesGuarded input.length leafCount.toNat rest
  step (rejectIf (strictlySorted nodeHashes = false ∨ strictlySorted leafKeys = false)
    (.corruptMetadata "non-canonical manifest order"))
  return ⟨nodeHashes, leafKeys⟩

theorem agrees_takeHashes {total : Nat} (htotal : total < 2 ^ 63) : ∀ (n : Nat) (rest : Bytes),
    Agrees (takeHashesGuarded total n rest) ((takeHash.times n).run rest)
  | 0, _ => rfl
  | n + 1, _ => Agrees.bind (Agrees.guard (by omega) rfl) fun _ _ =>
      Agrees.bind (agrees_takeHashes htotal n _) fun _ _ => rfl

theorem consumes_takeHashes (n : Nat) : Consumes (takeHash.times n) fun bytes hashes =>
    bytes = hashes.flatMap toBytes ∧ hashes.length = n := by
  have hhash : Consumes takeHash fun bytes hash => bytes = toBytes hash ∧ True :=
    (consumes_word (by decide) _).mono fun _ _ h => ⟨h, trivial⟩
  exact (hhash.times n).mono fun _ _ h => ⟨h.1, h.2.1⟩

theorem agrees_decode {input : Bytes} (hinput : input.length < 2 ^ 63) :
    Agrees (ReachabilityManifest.decodeGuarded input) (ReachabilityManifest.decode input) := by
  refine Agrees.bind (Agrees.guard (by omega) rfl) ?_
  rintro ⟨nodeCount, rest⟩ hcount
  refine Agrees.passed (by omega) (Agrees.guard (by omega) (Agrees.step fun _ _ => ?_))
  refine Agrees.guard (by omega) (Agrees.bind (agrees_takeHashes hinput _ _) ?_)
  rintro ⟨nodeHashes, rest'⟩ hnodes
  refine Agrees.bind (Agrees.guard (by omega) rfl) ?_
  rintro ⟨leafCount, rest''⟩ hcount'
  have hle : rest''.length ≤ input.length := by
    obtain ⟨_, rfl, _⟩ := consumes_word (by decide) _ hcount
    obtain ⟨_, rfl, _⟩ := consumes_takeHashes _ hnodes
    obtain ⟨_, rfl, _⟩ := consumes_word (by decide) _ hcount'
    simp only [length_append]
    omega
  have hsame : input.length - rest''.length + leafCount.toNat * 32 ≠ input.length
      ↔ leafCount.toNat * 32 ≠ rest''.length := by omega
  refine Agrees.guard (by omega) (Agrees.passed (by omega) ?_)
  simp only [hsame]
  refine Agrees.step fun _ _ => Agrees.guard (by omega) ?_
  exact Agrees.bind (agrees_takeHashes hinput _ _) fun _ _ => Agrees.step fun _ _ => rfl

/-- What is accepted is the encoding of a sorted manifest. -/
theorem decode_eq_ok {input : Bytes}
    (h : ReachabilityManifest.decode input = .ok manifest) : manifest.encode = .ok input ∧
      manifest.nodeHashes.Pairwise (· < ·) ∧ manifest.leafKeys.Pairwise (· < ·) := by
  obtain ⟨⟨nodeCount, rest⟩, hcount, h⟩ := bind_eq_ok.mp h
  obtain ⟨_, h⟩ := check_bind_eq_ok.mp h
  obtain ⟨⟨nodeHashes, rest'⟩, hnodes, h⟩ := bind_eq_ok.mp h
  obtain ⟨⟨leafCount, rest''⟩, hcount', h⟩ := bind_eq_ok.mp h
  obtain ⟨hlength, h⟩ := check_bind_eq_ok.mp h
  obtain ⟨⟨leafKeys, tail⟩, hleaves, h⟩ := bind_eq_ok.mp h
  obtain ⟨hsorted, h⟩ := check_bind_eq_ok.mp h
  cases h
  obtain ⟨_, rfl, rfl⟩ := consumes_word (by decide) _ hcount
  obtain ⟨_, rfl, rfl, hnodeCount⟩ := consumes_takeHashes _ hnodes
  obtain ⟨_, rfl, rfl⟩ := consumes_word (by decide) _ hcount'
  obtain ⟨_, rfl, rfl, hleafCount⟩ := consumes_takeHashes _ hleaves
  rw [rejectIf_eq_ok, not_not, length_append, length_flatMap_toBytes, hleafCount,
    Nat.left_eq_add, length_eq_zero_iff] at hlength
  rw [rejectIf_eq_ok, not_or, Bool.not_eq_false, Bool.not_eq_false, strictlySorted_iff,
    strictlySorted_iff] at hsorted
  refine ⟨encode_eq_ok.mpr ⟨⟨hnodeCount ▸ nodeCount.isLt, hleafCount ▸ leafCount.isLt⟩, ?_⟩,
    hsorted⟩
  rw [manifestBytes, encodeCount, encodeCount, hnodeCount, hleafCount, BitVec.ofNat_toNat,
    BitVec.ofNat_toNat, BitVec.setWidth_eq, BitVec.setWidth_eq, hlength, append_nil, append_assoc]

/-- **Manifests are canonical**, and read without a panic. -/
theorem manifest_canonical :
    (∀ manifest : ReachabilityManifest, manifest.nodeHashes.Pairwise (· < ·) →
      manifest.leafKeys.Pairwise (· < ·) → manifest.nodeHashes.length < 2 ^ 32 →
      manifest.leafKeys.length < 2 ^ 32 →
      (manifest.encode >>= ReachabilityManifest.decode) = .ok manifest) ∧
    (∀ (input : Bytes) (manifest : ReachabilityManifest),
      ReachabilityManifest.decode input = .ok manifest → manifest.encode = .ok input ∧
        manifest.nodeHashes.Pairwise (· < ·) ∧ manifest.leafKeys.Pairwise (· < ·)) ∧
    ∀ input : Bytes, input.length < 2 ^ 63 →
      Agrees (ReachabilityManifest.decodeGuarded input) (ReachabilityManifest.decode input) := by
  refine ⟨fun manifest hnodes hleaves hnodeCount hleafCount => ?_, fun _ _ => decode_eq_ok,
    fun _ => agrees_decode⟩
  rw [encode_eq_ok.mpr ⟨⟨hnodeCount, hleafCount⟩, rfl⟩, ok_bind]
  exact decode_manifestBytes hnodeCount hleafCount hnodes hleaves

/-! ## Keys -/

theorem manifestKey_inj {height' : U64}
    (h : manifestKey domainId height = manifestKey domainId' height') :
    domainId = domainId' ∧ height = height' := by
  rw [manifestKey, manifestKey, append_assoc, append_assoc, append_cancel_left_eq] at h
  obtain ⟨hdomain, hheight⟩ := toBytes_append_inj (by decide) h
  exact ⟨hdomain, toBytes_injective (by decide) hheight⟩

theorem rootKey_inj {height' : U64} (h : rootKey domainId height = rootKey domainId' height') :
    domainId = domainId' ∧ height = height' := by
  rw [rootKey, rootPrefix, rootKey, rootPrefix, append_assoc, append_assoc,
    append_cancel_left_eq] at h
  obtain ⟨hdomain, hheight⟩ := toBytes_append_inj (by decide) h
  exact ⟨hdomain, toBytes_injective (by decide) hheight⟩

theorem headKey_inj (h : headKey domainId = headKey domainId') : domainId = domainId' := by
  rw [headKey, headKey, append_cancel_left_eq] at h
  exact toBytes_injective (by decide) h

/-- The kinds of metadata keys, by their first letters. -/
@[simp] theorem head?_rootKey (domainId : DomainId) (height : U64) :
    (rootKey domainId height).head? = some 0x72 := rfl

@[simp] theorem head?_manifestKey (domainId : DomainId) (height : U64) :
    (manifestKey domainId height).head? = some 0x6d := rfl

@[simp] theorem head?_headKey (domainId : DomainId) : (headKey domainId).head? = some 0x68 := rfl

@[simp] theorem head?_KEY_MARKER : KEY_MARKER.head? = some 0x66 := rfl

/-- Keys with different first letters differ. -/
theorem ne_of_head? {a b : Bytes} {x y : Byte} (ha : a.head? = some x) (hb : b.head? = some y)
    (h : x ≠ y) : a ≠ b := by
  rintro rfl
  rw [ha] at hb
  exact h (Option.some.inj hb)

theorem head?_of_prefix_manifest {key : Bytes} (h : PREFIX_MANIFEST <+: key) :
    key.head? = some 0x6d := by
  obtain ⟨rest, rfl⟩ := h
  rfl

theorem head?_of_prefix_root {key : Bytes} (h : rootPrefix domainId <+: key) :
    key.head? = some 0x72 := by
  obtain ⟨rest, rfl⟩ := h
  rfl

theorem prefix_manifestKey (domainId : DomainId) (height : U64) :
    PREFIX_MANIFEST <+: manifestKey domainId height := by
  exact prefix_append _ _

theorem prefix_rootKey_iff :
    rootPrefix domainId <+: rootKey domainId' height ↔ domainId = domainId' := by
  constructor
  · rintro ⟨rest, h⟩
    rw [rootKey, rootPrefix, rootPrefix, append_assoc, append_assoc, append_cancel_left_eq] at h
    exact (toBytes_append_inj (by decide) h).1
  · rintro rfl
    exact prefix_append _ _

end Arbor.Database
