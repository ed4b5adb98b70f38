import Arbor.State.TrieBuild

/-!
# Roots and leaves

The root of a trie stands for its leaves.  Leaves over any distinct keys are built, and two
maps with one root are equal (`state_root_binds`): the encoding of a tree determines it, also
where a leaf has no nibbles left.  Walking back is stricter than building, since the reader
refuses empty paths and repeated hashes; over keys that differ in their first and in their
last 32 nibbles it returns the leaves built from (`build_and_traversal`).

Both hold up to `2 ^ 32 - 1` leaves, the number `build` accepts.
-/

namespace Arbor

open Result BigEndian Std List

namespace Trie

variable {leaves : Leaves} {i n : Nat}

/-- The values are vectors of bytes: none is longer than a vector can be. -/
def Vectors (leaves : Leaves) : Prop :=
  ∀ (key : B256) (value : Bytes), leaves[key]? = some value → value.length < Tree.VALUE_LIMIT

/-- Any leaves form a group: keys differ somewhere. -/
theorem Vectors.group (h : Vectors leaves) (hne : leaves.isEmpty = false) :
    Group 0 (entriesOf leaves) [] := by
  refine group_of_starts (by decide) hne (fun a _ b _ hsame => ?_) h
  exact toBytes_injective (by decide) (Nibbles.unpack_injective hsame)

/-- Leaves over the spread keys of a map. -/
theorem Vectors.fits (h : Vectors leaves) : Fits {key | key ∈ leaves} leaves :=
  ⟨fun _ _ hvalue => OrdMap.mem_iff_exists.mpr ⟨_, hvalue⟩, h⟩

theorem tree_of_isEmpty (h : leaves.isEmpty = true) : tree leaves = .empty := by
  have hentries : entriesOf leaves = [] := by
    rw [ExtTreeMap.isEmpty_iff.mp h]
    rfl
  rw [tree, hentries, treeNode_nil]

/-! ## Keys with equal halves -/

def twinKey (i : Nat) : B256 := BitVec.ofNat 256 (i * (2 ^ 128 + 1))

def twinLeaves (n : Nat) : Leaves :=
  (∅ : Leaves).insertMany ((List.range n).map fun i => (twinKey i, []))

/-- The halves of a key, as numbers of 16 bytes. -/
theorem unpackNibbles_halves (key : B256) :
    (unpackNibbles key).take 32 = Nibbles.unpack (beBytes 16 (key.toNat / 2 ^ 128)) ∧
    (unpackNibbles key).drop 32 = Nibbles.unpack (beBytes 16 key.toNat) := by
  have hsplit : unpackNibbles key = Nibbles.unpack (beBytes 16 (key.toNat / 2 ^ 128)) ++
      Nibbles.unpack (beBytes 16 key.toNat) := by
    exact congrArg Nibbles.unpack (beBytes_add 16 16 key.toNat)
  have hlength : (Nibbles.unpack (beBytes 16 (key.toNat / 2 ^ 128))).length = 32 := by simp
  rw [hsplit]
  exact ⟨take_left' hlength, drop_left' hlength⟩

theorem toNat_twinKey (hi : i < 2 ^ 128) : (twinKey i).toNat = i * (2 ^ 128 + 1) := by
  rw [twinKey, BitVec.toNat_ofNat]
  omega

theorem unpack_beBytes_inj {x y : Nat}
    (h : Nibbles.unpack (beBytes 16 x) = Nibbles.unpack (beBytes 16 y)) :
    x % 2 ^ 128 = y % 2 ^ 128 := by
  have hnat := congrArg beNat (Nibbles.unpack_injective h)
  rwa [beNat_beBytes, beNat_beBytes] at hnat

/-- Different twin keys differ in both halves. -/
theorem twinKey_halves {j : Nat} (hi : i < 2 ^ 128) (hj : j < 2 ^ 128) :
    ((unpackNibbles (twinKey i)).take 32 = (unpackNibbles (twinKey j)).take 32 → i = j) ∧
    ((unpackNibbles (twinKey i)).drop 32 = (unpackNibbles (twinKey j)).drop 32 → i = j) := by
  rw [(unpackNibbles_halves _).1, (unpackNibbles_halves _).1, (unpackNibbles_halves _).2,
    (unpackNibbles_halves _).2, toNat_twinKey hi, toNat_twinKey hj]
  have hhigh : ∀ k < 2 ^ 128, k * (2 ^ 128 + 1) / 2 ^ 128 % 2 ^ 128 = k := by
    intro k hk
    have hdiv : k * (2 ^ 128 + 1) / 2 ^ 128 = k := by omega
    rw [hdiv, Nat.mod_eq_of_lt hk]
  have hlow : ∀ k < 2 ^ 128, k * (2 ^ 128 + 1) % 2 ^ 128 = k := by
    intro k hk
    omega
  constructor
  · intro h
    rw [← hhigh i hi, ← hhigh j hj, unpack_beBytes_inj h]
  · intro h
    rw [← hlow i hi, ← hlow j hj, unpack_beBytes_inj h]

theorem twinKey_inj {j : Nat} (hi : i < 2 ^ 128) (hj : j < 2 ^ 128) (h : twinKey i = twinKey j) :
    i = j :=
  (twinKey_halves hi hj).1 (by rw [h])

theorem mem_twinLeaves {key : B256} (h : key ∈ twinLeaves n) : ∃ i < n, key = twinKey i := by
  rcases ExtTreeMap.mem_insertMany_list.mp h with hold | hnew
  · exact absurd hold ExtTreeMap.not_mem_empty
  · rw [contains_iff_mem, map_map, mem_map] at hnew
    obtain ⟨i, hi, rfl⟩ := hnew
    exact ⟨i, mem_range.mp hi, rfl⟩

theorem spread_of_twins {keys : Set B256} (hn : n ≤ 2 ^ 128)
    (h : ∀ key ∈ keys, ∃ i < n, key = twinKey i) : Spread keys := by
  intro a ha b hb
  obtain ⟨i, hi, rfl⟩ := h a ha
  obtain ⟨j, hj, rfl⟩ := h b hb
  obtain ⟨hfirst, hlast⟩ := twinKey_halves (i := i) (j := j) (by omega) (by omega)
  exact ⟨fun h => by rw [hfirst h], fun h => by rw [hlast h]⟩

theorem spread_twinLeaves (hn : n ≤ 2 ^ 128) : Spread {key | key ∈ twinLeaves n} :=
  spread_of_twins hn fun _ => mem_twinLeaves

theorem nodup_twinKeys (hn : n ≤ 2 ^ 128) :
    (((range n).map fun i => (twinKey i, ([] : Bytes))).map Prod.fst).Nodup := by
  rw [map_map]
  refine nodup_range.map_on fun i hi j hj h => ?_
  rw [mem_range] at hi hj
  exact twinKey_inj (by omega) (by omega) h

theorem size_twinLeaves (hn : n ≤ 2 ^ 128) : (twinLeaves n).size = n := by
  have hdistinct : ((range n).map fun i => (twinKey i, ([] : Bytes))).Pairwise
      fun a b => ¬compare a.1 b.1 = .eq :=
    (pairwise_map.mp (nodup_twinKeys hn)).imp fun hne heq =>
      hne (LawfulEqCmp.eq_of_compare heq)
  rw [twinLeaves, ExtTreeMap.size_insertMany_list hdistinct
    fun a ha => absurd ha ExtTreeMap.not_mem_empty]
  simp

theorem vectors_twinLeaves (hn : n ≤ 2 ^ 128) : Vectors (twinLeaves n) := by
  intro key value h
  obtain ⟨i, hi, rfl⟩ := mem_twinLeaves (OrdMap.mem_iff_exists.mpr ⟨_, h⟩)
  have hvalue : (twinLeaves n)[twinKey i]? = some [] :=
    OrdMap.getElem?_insertMany_of_mem _ (nodup_twinKeys hn)
      (mem_map.mpr ⟨i, mem_range.mpr hi, rfl⟩)
  rw [hvalue] at h
  cases h
  decide

/-! ## Roots -/

section Roots

variable [Keccak]

variable {leaves : Leaves}

/-- Everything hashed for the root of some leaves: the nodes and the empty string. -/
def rootPreimages (leaves : Leaves) : List Bytes := Rlp.encodeString [] :: encodings leaves

/-- What the tree of any leaves satisfies. -/
theorem Vectors.tree_spec (h : Vectors leaves) :
    (tree leaves).Valid 0 64 ∧ (tree leaves).entries [] = entriesOf leaves := by
  cases hne : leaves.isEmpty with
  | true =>
    rw [ExtTreeMap.isEmpty_iff.mp hne]
    exact ⟨trivial, rfl⟩
  | false =>
    have hbuilds := buildNode_spec (h.group hne) (show 64 - 0 < SECURE_KEY_NIBBLES + 2 by decide)
    exact ⟨hbuilds.valid, hbuilds.entries_eq⟩

theorem encode_mem_rootPreimages (leaves : Leaves) :
    (tree leaves).encode ∈ rootPreimages leaves := by
  by_cases hempty : tree leaves = .empty
  · rw [hempty]
    exact mem_cons_self
  · exact mem_cons_of_mem _ (Tree.encode_mem_nodes hempty)

theorem followed_mem_rootPreimages {e : Bytes} (h : e ∈ (tree leaves).followed) :
    e ∈ rootPreimages leaves :=
  mem_cons_of_mem _ (Tree.mem_nodes_of_mem_reached (Tree.mem_reached_of_mem_followed h))

/-- A snapshot has the nodes of its tree. -/
theorem nodes_snapshot (hinj : Set.InjOn keccak256 {e | e ∈ rootPreimages leaves}) :
    ∀ e ∈ encodings leaves, (snapshot leaves).nodes[keccak256 e]? = some e := by
  have hencodings : ∀ e ∈ encodings leaves, e ∈ {e | e ∈ rootPreimages leaves} :=
    fun e he => mem_cons_of_mem _ he
  intro e he
  rw [snapshot, getElem?_storeAll hinj hencodings (hencodings e he), if_pos he]

/-- Snapshots with one root have the same leaves. -/
theorem eq_of_snapshot_root {a b : Leaves} (ha : Vectors a) (hb : Vectors b)
    (hinj : Set.InjOn keccak256 {e | e ∈ rootPreimages a ∨ e ∈ rootPreimages b})
    (hroot : (snapshot a).root = (snapshot b).root) : a = b := by
  have hencode : (tree a).encode = (tree b).encode :=
    hinj (.inl (encode_mem_rootPreimages a)) (.inr (encode_mem_rootPreimages b)) hroot
  have htree : tree a = tree b :=
    Tree.encode_inj hinj ha.tree_spec.1 hb.tree_spec.1
      (fun e he => .inl (followed_mem_rootPreimages he))
      (fun e he => .inr (followed_mem_rootPreimages he)) hencode
  apply Tree.entriesOf_injective
  rw [← ha.tree_spec.2, ← hb.tree_spec.2, htree]

/-- `build` does not accept that many leaves. -/
theorem build_limit (hsize : 2 ^ 32 ≤ leaves.size) :
    build leaves = .error (.limitExceeded "secure trie leaves") := by
  have hne : ¬leaves.isEmpty = true := by
    intro hempty
    rw [ExtTreeMap.isEmpty_iff.mp hempty, ExtTreeMap.size_empty] at hsize
    omega
  have hlimit : rejectIf (2 ^ 32 ≤ leaves.size)
      (StateError.limitExceeded "secure trie leaves")
        = .error (.limitExceeded "secure trie leaves") :=
    rejectIf_eq_error.mpr ⟨hsize, rfl⟩
  rw [build, if_neg hne, hlimit, error_bind]

/-- **The root binds the leaves.**  Up to the number of leaves `build` accepts, every two maps
are built, and if their roots are equal so are they. -/
theorem state_root_binds (a b : Leaves) (ha : Vectors a) (hb : Vectors b)
    (hsizeA : a.size ≤ 2 ^ 32 - 1) (hsizeB : b.size ≤ 2 ^ 32 - 1) :
    ∃ builtA builtB, build a = .ok builtA ∧ build b = .ok builtB ∧
      (Set.InjOn keccak256 {e | e ∈ rootPreimages a ∨ e ∈ rootPreimages b} →
        builtA.root = builtB.root → a = b) :=
  ⟨snapshot a, snapshot b, build_of_group ha.group (by omega), build_of_group hb.group (by omega),
    eq_of_snapshot_root ha hb⟩

/-- **Build and traversal are inverse.**  Leaves whose keys differ in their first and in their
last 32 nibbles are built, and every store that has the nodes gives them back. -/
theorem build_and_traversal (leaves : Leaves) (hspread : Spread {key | key ∈ leaves})
    (hvectors : Vectors leaves) (hsize : leaves.size ≤ 2 ^ 32 - 1)
    (hinj : Set.InjOn keccak256 {e | e ∈ rootPreimages leaves}) :
    ∃ built, build leaves = .ok built ∧ collectLeaves built.root built.nodes = .ok leaves ∧
      ∀ store : NodeStore,
        (∀ (hash : B256) (bytes : Bytes), built.nodes[hash]? = some bytes →
          store[hash]? = some bytes) →
        collectLeaves built.root store = .ok leaves := by
  have hlarger : ∀ store : NodeStore,
      (∀ (hash : B256) (bytes : Bytes), (snapshot leaves).nodes[hash]? = some bytes →
        store[hash]? = some bytes) →
      collectLeaves (snapshot leaves).root store = .ok leaves := by
    intro store hstore
    exact collectLeaves_snapshot hinj mem_cons_self hspread hvectors.fits fun e he =>
      ⟨mem_cons_of_mem _ he, hstore _ _ (nodes_snapshot hinj e he)⟩
  exact ⟨snapshot leaves, build_succeeds hspread hvectors.fits (by omega),
    hlarger _ fun _ _ h => h, hlarger⟩

end Roots

/-! ## Samples -/

section Sample

attribute [local instance] rollingKeccak

/-- Not every map is built. -/
theorem state_root_limit : ∃ leaves : Leaves, Vectors leaves ∧ ∀ built, build leaves ≠ .ok built :=
  ⟨twinLeaves (2 ^ 32), vectors_twinLeaves (by omega), fun built h => by
    rw [build_limit (size_twinLeaves (by omega)).ge] at h
    cases h⟩

/-- Two leaves and no leaf have different roots. -/
theorem state_root_binds_two : ∃ builtA builtB,
    build (twinLeaves 2) = .ok builtA ∧ build (∅ : Leaves) = .ok builtB ∧
      builtA.root ≠ builtB.root := by
  have hempty : Vectors (∅ : Leaves) := fun key value h => by simp at h
  have hinj : ∀ p ∈ rootPreimages (twinLeaves 2) ++ rootPreimages (∅ : Leaves),
      ∀ q ∈ rootPreimages (twinLeaves 2) ++ rootPreimages (∅ : Leaves),
      keccak256 p = keccak256 q → p = q := by decide +kernel
  obtain ⟨builtA, builtB, hbuiltA, hbuiltB, hbinds⟩ :=
    state_root_binds (twinLeaves 2) ∅ (vectors_twinLeaves (by omega)) hempty
      (by rw [size_twinLeaves (by omega)]; omega) (by rw [ExtTreeMap.size_empty]; omega)
  refine ⟨builtA, builtB, hbuiltA, hbuiltB, fun hroot => ?_⟩
  have hsame := hbinds (fun p hp q hq => hinj p (mem_append.mpr hp) q
    (mem_append.mpr hq)) hroot
  have hsize : (twinLeaves 2).size = 2 := size_twinLeaves (by omega)
  rw [hsame] at hsize
  cases hsize

/-- Not every map over spread keys is built. -/
theorem build_and_traversal_limit : ∃ leaves : Leaves, Spread {key | key ∈ leaves} ∧
    Vectors leaves ∧ ∀ built, build leaves ≠ .ok built :=
  ⟨twinLeaves (2 ^ 32), spread_twinLeaves (by omega), vectors_twinLeaves (by omega),
    fun built h => by
      rw [build_limit (size_twinLeaves (by omega)).ge] at h
      cases h⟩

/-- Two leaves that share 31 nibbles. -/
theorem build_and_traversal_two : ∃ built, build (twinLeaves 2) = .ok built ∧
    collectLeaves built.root built.nodes = .ok (twinLeaves 2) := by
  have hinj : ∀ p ∈ rootPreimages (twinLeaves 2), ∀ q ∈ rootPreimages (twinLeaves 2),
      keccak256 p = keccak256 q → p = q := by decide +kernel
  obtain ⟨built, hbuilt, hwalk, -⟩ := build_and_traversal (twinLeaves 2)
    (spread_twinLeaves (by omega)) (vectors_twinLeaves (by omega))
    (by rw [size_twinLeaves (by omega)]; omega) (fun p hp q hq => hinj p hp q hq)
  exact ⟨built, hbuilt, hwalk⟩

end Sample

end Trie

end Arbor
