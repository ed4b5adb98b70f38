import Arbor.Lib.OrdMap
import Arbor.State.TrieTree

/-!
# Walking a tree

Where every followed node is in the store and no key or encoding occurs twice, the walk
of an encoded tree finds exactly its entries (`walkNode_encode`).  Encodings do not occur
twice when the keys differ in their last 32 nibbles and the hash has no collisions on
them (`nodup_reached`): equal subtrees at two places would give two keys the same end.
-/

namespace Arbor

open Result BigEndian List

namespace Trie

namespace Tree

/-! ## Entries -/

theorem entries_append (t : Tree) (above path : List Nibble) :
    t.entries (above ++ path) = (t.entries path).map fun entry => (above ++ entry.1, entry.2) := by
  induction t generalizing path with
  | empty => rfl
  | leaf rest value => simp [entries]
  | extension rest child ih =>
    rw [entries, append_assoc]
    exact ih (path ++ rest)
  | branch children ih =>
    rw [entries, entries, map_flatMap]
    refine flatMap_congr fun i _ => ?_
    rw [append_assoc]
    exact ih i (path ++ [nibble i])

theorem key_of_mem_entries {t : Tree} {n : Nat} (hvalid : t.Valid 32 n) {above : List Nibble}
    {entry : Entry} (h : entry ∈ t.entries above) :
    ∃ rest, entry.1 = above ++ rest ∧ rest.length = n := by
  induction t generalizing n above with
  | empty => cases h
  | leaf path value =>
    rw [entries, mem_singleton] at h
    exact ⟨path, by rw [h], hvalid.2.1⟩
  | extension path child ih =>
    obtain ⟨rest, hkey, hlength⟩ := ih hvalid.2.2.2.2 h
    have hle := hvalid.2.1
    refine ⟨path ++ rest, by rw [hkey, append_assoc], ?_⟩
    rw [length_append]
    omega
  | branch children ih =>
    rw [entries, mem_flatMap] at h
    obtain ⟨i, _, hi⟩ := h
    obtain ⟨rest, hkey, hlength⟩ := ih i (hvalid.2.2.2 i) hi
    have hpos := hvalid.1
    refine ⟨nibble i :: rest, by rw [hkey, append_assoc]; rfl, ?_⟩
    rw [length_cons]
    omega

theorem exists_mem_entries {t : Tree} {n : Nat} (hvalid : t.Valid 32 n) (hne : t ≠ empty) :
    32 ≤ n ∧ ∃ entry, entry ∈ t.entries [] := by
  have hsome : ∀ (above : List Nibble), 32 ≤ n ∧ ∃ entry, entry ∈ t.entries above := by
    induction t generalizing n with
    | empty => exact absurd rfl hne
    | leaf path value =>
      intro above
      have hlong := hvalid.1
      have hlength := hvalid.2.1
      exact ⟨by omega, _, mem_singleton_self _⟩
    | extension path child ih =>
      intro above
      obtain ⟨hlong, entry, hentry⟩ := ih hvalid.2.2.2.2 hvalid.2.2.2.1 (above ++ path)
      exact ⟨by omega, entry, hentry⟩
    | branch children ih =>
      intro above
      obtain ⟨_, _, ⟨i, hi⟩, hchildren⟩ := hvalid
      obtain ⟨hlong, entry, hentry⟩ := ih i (hchildren i) hi (above ++ [nibble i])
      exact ⟨by omega, entry, mem_flatMap.mpr ⟨i, mem_finRange i, hentry⟩⟩
  exact hsome []

theorem nibble_injective : Function.Injective nibble := by decide

def packedKey (path : List Nibble) : B256 := ofBytes 256 (Nibbles.pack path)

theorem packNibbles_eq_ok {path : List Nibble} (h : path.length = 64) :
    packNibbles path = .ok (packedKey path) := by
  rw [packNibbles, rejectIf_neg (fun hne => hne h)]
  rfl

theorem packedKey_unpackNibbles (key : B256) : packedKey (unpackNibbles key) = key := by
  rw [packedKey, unpackNibbles, Nibbles.pack_unpack, ofBytes_toBytes (by decide)]

theorem map_packedKey_entriesOf (leaves : Leaves) :
    (entriesOf leaves).map (fun entry => (packedKey entry.1, entry.2)) = leaves.toList := by
  rw [entriesOf, map_map]
  refine (map_congr_left fun leaf _ => ?_).trans (map_id _)
  exact congrArg (·, leaf.2) (packedKey_unpackNibbles leaf.1)

theorem entriesOf_injective : Function.Injective entriesOf := by
  intro a b h
  rw [← OrdMap.insertMany_toList a, ← OrdMap.insertMany_toList b, ← map_packedKey_entriesOf a,
    ← map_packedKey_entriesOf b, h]

section Nodup

variable [Keccak]

variable {t u : Tree} {n : Nat} {e : Bytes} {path above : List Nibble} {P : Set Bytes}
  {found : Walked} {store : NodeStore}

/-- A reached encoding is that of a subtree at some path. -/
structure Found (t : Tree) (n : Nat) (encoded : Bytes) (u : Tree) (path : List Nibble) : Prop where
  encode_eq : u.encode = encoded
  nonempty : u ≠ empty
  length_le : path.length ≤ n
  valid : u.Valid 32 (n - path.length)
  followed : ∀ e ∈ u.followed, e ∈ t.reached
  entries : ∀ above, ∀ entry ∈ u.entries (above ++ path), entry ∈ t.entries above

/-- The root of a tree is found at the empty path. -/
theorem found_root (hvalid : t.Valid 32 n) (hne : t ≠ empty) (h : e ∈ t.reached)
    (hroot : e ∉ t.followed) : Found t n e t [] := by
  have hself : e = t.encode := by
    rcases mem_append.mp h with hself | hbelow
    · split at hself
      · cases hself
      · exact mem_singleton.mp hself
    · exact absurd hbelow hroot
  refine ⟨hself.symm, hne, Nat.zero_le _, hvalid, fun e' => mem_reached_of_mem_followed, ?_⟩
  intro above entry hentry
  rwa [append_nil] at hentry

theorem Found.extension {rest : List Nibble} {child : Tree} (hle : path.length ≤ n)
    (h : Found child (n - path.length) e u rest) :
    Found (.extension path child) n e u (path ++ rest) := by
  have hrest := h.length_le
  refine ⟨h.encode_eq, h.nonempty, ?_, ?_, ?_, ?_⟩
  · rw [length_append]
    omega
  · rw [length_append, ← Nat.sub_sub]
    exact h.valid
  · intro e' he'
    exact mem_reached_of_mem_followed (h.followed e' he')
  · intro above entry hentry
    rw [← append_assoc] at hentry
    exact h.entries (above ++ path) entry hentry

variable {children : Fin 16 → Tree}

theorem Found.branch {i : Fin 16} {rest : List Nibble} (hpos : 0 < n)
    (h : Found (children i) (n - 1) e u rest) :
    Found (.branch children) n e u (nibble i :: rest) := by
  have hrest := h.length_le
  refine ⟨h.encode_eq, h.nonempty, ?_, ?_, ?_, ?_⟩
  · rw [length_cons]
    omega
  · rw [length_cons, Nat.add_comm, ← Nat.sub_sub]
    exact h.valid
  · intro e' he'
    exact mem_reached_of_mem_followed (mem_followed_branch (h.followed e' he'))
  · intro above entry hentry
    rw [append_cons] at hentry
    exact mem_flatMap.mpr
      ⟨i, mem_finRange i, h.entries (above ++ [nibble i]) entry hentry⟩

theorem exists_found (hvalid : t.Valid 32 n) (h : e ∈ t.reached) :
    ∃ u path, Found t n e u path ∧ (e ∈ t.followed → path ≠ []) := by
  induction t generalizing n with
  | empty =>
    exact absurd h (by simp [reached, followed, encode_empty])
  | leaf path value =>
    exact ⟨leaf path value, [], found_root hvalid (by simp) h not_mem_nil,
      fun hmem => absurd hmem not_mem_nil⟩
  | extension path child ih =>
    by_cases hfollowed : e ∈ (extension path child).followed
    · obtain ⟨hpath, hle, _, _, hchild⟩ := hvalid
      obtain ⟨u, rest, hfound, _⟩ := ih hchild hfollowed
      exact ⟨u, path ++ rest, hfound.extension hle, fun _ => by simp [hpath]⟩
    · exact ⟨extension path child, [], found_root hvalid (by simp) h hfollowed,
        fun hmem => absurd hmem hfollowed⟩
  | branch children ih =>
    by_cases hfollowed : e ∈ (branch children).followed
    · obtain ⟨hpos, _, _, hchildren⟩ := hvalid
      rw [followed_branch, mem_flatMap] at hfollowed
      obtain ⟨i, _, hi⟩ := hfollowed
      obtain ⟨u, rest, hfound, _⟩ := ih i (hchildren i) hi
      exact ⟨u, nibble i :: rest, hfound.branch hpos, fun _ => cons_ne_nil _ _⟩
    · exact ⟨branch children, [], found_root hvalid (by simp) h hfollowed,
        fun hmem => absurd hmem hfollowed⟩

/-- Keys of 64 nibbles that are told apart by their last 32. -/
def EndsDiffer (entries : List Entry) : Prop :=
  ∀ a ∈ entries, ∀ b ∈ entries, a.1.drop 32 = b.1.drop 32 → a.1 = b.1

/-- Equal subtrees stand at equal paths. -/
theorem path_eq_of_found (hP : Set.InjOn keccak256 P) (hlength : above.length + n = 64)
    (hends : EndsDiffer (t.entries above)) (htP : ∀ e ∈ t.reached, e ∈ P) {v : Tree}
    {path' : List Nibble} (hu : Found t n e u path) (hv : Found t n e v path') : path = path' := by
  obtain rfl : u = v := encode_inj hP hu.valid hv.valid (fun e he => htP e (hu.followed e he))
    (fun e he => htP e (hv.followed e he)) (hu.encode_eq.trans hv.encode_eq.symm)
  obtain ⟨hlong, ⟨key, value⟩, hentry⟩ := exists_mem_entries hu.valid hu.nonempty
  obtain ⟨rest, hkey, hrest⟩ := key_of_mem_entries hu.valid hentry
  obtain ⟨rest', hkey', hrest'⟩ := key_of_mem_entries hv.valid hentry
  -- the entry below the subtree makes an entry of the tree at either path
  have hmem : ∀ {q : List Nibble}, (∀ entry ∈ u.entries (above ++ q), entry ∈ t.entries above) →
      (above ++ q ++ key, value) ∈ t.entries above := by
    intro q hq
    apply hq
    have happend := entries_append u (above ++ q) []
    rw [append_nil] at happend
    rw [happend]
    exact mem_map.mpr ⟨(key, value), hentry, rfl⟩
  have hlen : rest.length = rest'.length :=
    congrArg length (append_cancel_left (hkey.symm.trans hkey'))
  have hpaths : path.length = path'.length := by omega
  have hdrop : ∀ q : List Nibble, q.length ≤ 32 → (q ++ key).drop 32 = key.drop
      (32 - q.length) := by
    intro q hq
    rw [drop_append, drop_eq_nil_of_le hq, nil_append]
  have hend : (above ++ path ++ key).drop 32 = (above ++ path' ++ key).drop 32 := by
    have hsame : (above ++ path).length = (above ++ path').length := by
      rw [length_append, length_append, hpaths]
    have hshort : (above ++ path).length ≤ 32 := by
      rw [length_append]
      omega
    rw [hdrop _ hshort, hdrop _ (hsame ▸ hshort), hsame]
  have hkeys := hends _ (hmem (hu.entries above)) _ (hmem (hv.entries above)) hend
  have hjoined := append_cancel_right hkeys
  exact append_cancel_left hjoined

/-- The root is not found below itself. -/
theorem encode_not_mem_followed (hP : Set.InjOn keccak256 P) (hvalid : t.Valid 32 n)
    (hlength : above.length + n = 64) (hends : EndsDiffer (t.entries above))
    (htP : ∀ e ∈ t.reached, e ∈ P) : t.encode ∉ t.followed := by
  intro hmem
  have hne : t ≠ empty := by
    intro h
    rw [h] at hmem
    cases hmem
  have hself : Found t n t.encode t [] :=
    ⟨rfl, hne, Nat.zero_le _, hvalid, fun e he => mem_reached_of_mem_followed he,
      fun above entry hentry => by rwa [append_nil] at hentry⟩
  obtain ⟨u, path, hfound, hpath⟩ := exists_found hvalid (mem_reached_of_mem_followed hmem)
  exact hpath hmem (path_eq_of_found hP hlength hends htP hfound hself)

/-- **No encoding is reached twice.** -/
theorem nodup_reached (hP : Set.InjOn keccak256 P) (hvalid : t.Valid 32 n)
    (hlength : above.length + n = 64) (hends : EndsDiffer (t.entries above))
    (htP : ∀ e ∈ t.reached, e ∈ P) : t.reached.Nodup := by
  -- with the root not found below itself, only the nodes below it are left
  have hroot : ∀ {t : Tree} {n : Nat} {above : List Nibble}, t.Valid 32 n → above.length + n = 64 →
      EndsDiffer (t.entries above) → (∀ e ∈ t.reached, e ∈ P) → t.followed.Nodup →
      t.reached.Nodup := by
    intro t n above hvalid hlength hends htP hfollowed
    unfold reached
    split
    · exact hfollowed
    · exact nodup_cons.mpr
        ⟨encode_not_mem_followed hP hvalid hlength hends htP, hfollowed⟩
  induction t generalizing n above with
  | empty => exact hroot hvalid hlength hends htP nodup_nil
  | leaf path value => exact hroot hvalid hlength hends htP nodup_nil
  | extension path child ih =>
    refine hroot hvalid hlength hends htP ?_
    have hle := hvalid.2.1
    have hbelow : (above ++ path).length + (n - path.length) = 64 := by
      rw [length_append]
      omega
    exact ih hvalid.2.2.2.2 hbelow hends fun e he => htP e (mem_reached_of_mem_followed he)
  | branch children ih =>
    refine hroot hvalid hlength hends htP ?_
    rw [followed_branch, nodup_flatMap]
    obtain ⟨hpos, _, _, hchildren⟩ := hvalid
    refine ⟨fun i _ => ?_, (nodup_finRange 16).imp fun {i j} hij e hi hj => hij ?_⟩
    · have hbelow : (above ++ [nibble i]).length + (n - 1) = 64 := by
        rw [length_append, length_singleton]
        omega
      have hsub : ∀ entry ∈ (children i).entries (above ++ [nibble i]),
          entry ∈ (Tree.branch children).entries above := fun entry hentry =>
        mem_flatMap.mpr ⟨i, mem_finRange i, hentry⟩
      exact ih i (hchildren i) hbelow (fun a ha b hb => hends a (hsub a ha) b (hsub b hb))
        fun e he => htP e (mem_reached_of_mem_followed (mem_followed_branch he))
    · obtain ⟨u, rest, hu, _⟩ := exists_found (hchildren i) hi
      obtain ⟨v, rest', hv, _⟩ := exists_found (hchildren j) hj
      have hpath := path_eq_of_found hP hlength hends htP (hu.branch hpos) (hv.branch hpos)
      exact nibble_injective (cons.inj hpath).1

/-! ## The walk -/

def add (found : Walked) (entries : List Entry) (encodings : List Bytes) : Walked :=
  ⟨found.leaves.insertMany (entries.map fun entry => (packedKey entry.1, entry.2)),
    found.visited.insertMany (encodings.map keccak256)⟩

/-- Entries and encodings that a walk has not found yet. -/
structure Fresh (found : Walked) (entries : List Entry) (encodings : List Bytes) : Prop where
  keys : (entries.map fun entry => packedKey entry.1).Nodup
  leaves : ∀ entry ∈ entries, packedKey entry.1 ∉ found.leaves
  hashes : (encodings.map keccak256).Nodup
  visited : ∀ e ∈ encodings, keccak256 e ∉ found.visited

theorem add_append (found : Walked) (entries entries' : List Entry)
    (encodings encodings' : List Bytes) : add found (entries ++ entries') (encodings ++ encodings')
      = add (add found entries encodings) entries' encodings' := by
  simp only [add, map_append, Std.ExtTreeMap.insertMany_append, Std.ExtTreeSet.insertMany_append]

theorem Fresh.left {entries entries' : List Entry} {encodings encodings' : List Bytes}
    (h : Fresh found (entries ++ entries') (encodings ++ encodings')) :
    Fresh found entries encodings where
  keys := by
    have hkeys := h.keys
    rw [map_append] at hkeys
    exact hkeys.of_append_left
  leaves entry hentry := h.leaves entry (mem_append_left _ hentry)
  hashes := by
    have hhashes := h.hashes
    rw [map_append] at hhashes
    exact hhashes.of_append_left
  visited e he := h.visited e (mem_append_left _ he)

theorem Fresh.right {entries entries' : List Entry} {encodings encodings' : List Bytes}
    (h : Fresh found (entries ++ entries') (encodings ++ encodings')) :
    Fresh (add found entries encodings) entries' encodings' where
  keys := by
    have hkeys := h.keys
    rw [map_append] at hkeys
    exact hkeys.of_append_right
  leaves entry hentry hmem := by
    have hkeys := h.keys
    rw [map_append, nodup_append] at hkeys
    rcases Std.ExtTreeMap.mem_insertMany_list.mp hmem with hold | hnew
    · exact h.leaves entry (mem_append_right _ hentry) hold
    · rw [contains_iff_mem, map_map] at hnew
      exact hkeys.2.2 _ hnew _ (mem_map.mpr ⟨entry, hentry, rfl⟩) rfl
  hashes := by
    have hhashes := h.hashes
    rw [map_append] at hhashes
    exact hhashes.of_append_right
  visited e he hmem := by
    have hhashes := h.hashes
    rw [map_append, nodup_append] at hhashes
    rcases Std.ExtTreeSet.mem_insertMany_list.mp hmem with hold | hnew
    · exact h.visited e (mem_append_right _ he) hold
    · rw [contains_iff_mem] at hnew
      exact hhashes.2.2 _ hnew _ (mem_map.mpr ⟨e, he, rfl⟩) rfl

theorem add_nil (found : Walked) : add found [] [] = found := by
  simp [add]

theorem loadHashed_eq_ok (h : store[keccak256 e]? = some e) :
    loadHashed store (keccak256 e) = .ok e := by
  simp [loadHashed, h]

/-- A child is walked through its reference. -/
theorem walkChild_childReference {walk : Bytes → List Nibble → Walked → Except StateError Walked}
    (hwalk : ∀ found, Fresh found (t.entries path) t.followed → walk t.encode path found = .ok (add
      found (t.entries path) t.followed)) (hstore : ∀ e ∈ t.reached, store[keccak256 e]? = some e)
    (hfresh : Fresh found (t.entries path) t.reached) :
    walkChild walk store t.childReference path found
      = .ok (add found (t.entries path) t.reached) := by
  unfold childReference
  by_cases hshort : t.encode.length < 32
  · have hreached : t.reached = t.followed := by rw [reached, if_pos hshort, nil_append]
    rw [if_pos hshort, hreached]
    rw [hreached] at hfresh
    exact hwalk found hfresh
  · have hreached : t.reached = [t.encode] ++ t.followed := by rw [reached, if_neg hshort]
    have hself : t.encode ∈ t.reached := by rw [hreached]; exact mem_cons_self
    rw [hreached, ← nil_append (t.entries path)] at hfresh
    have hnot : keccak256 t.encode ∉ found.visited := hfresh.visited _ (mem_append_left _ (by simp))
    have hmarked : add found [] [t.encode]
        = { found with visited := found.visited.insert (keccak256 t.encode) } := by
      simp [add]
    have hrest := hwalk _ hfresh.right
    have htotal := add_append found [] (t.entries path) [t.encode] t.followed
    rw [hmarked] at hrest htotal
    rw [nil_append] at htotal
    rw [if_neg hshort, walkChild, if_neg hnot, loadHashed_eq_ok (hstore _ hself), ok_bind, hrest,
      hreached, htotal]

/-- The children of a branch are walked in order. -/
theorem walkChildren_branch {fuel : Nat}
    (hwalk : ∀ i, children i ≠ empty → ∀ found, Fresh found ((children i).entries (path ++ [nibble
      i])) (children i).reached → walkChild (walkNode store fuel) store (children i).childReference
      (path ++ [nibble i]) found = .ok (add found ((children i).entries (path ++ [nibble i]))
      (children i).reached)) : ∀ (rest : List (Fin 16)) (start : Nat) (found : Walked),
      (∀ k (hk : k < rest.length), ((rest.get ⟨k, hk⟩ : Fin 16) : Nat) = start + k) →
      Fresh found (rest.flatMap fun i => (children i).entries (path ++ [nibble i]))
        (rest.flatMap fun i => (children i).reached) →
      walkChildren (walkChild (walkNode store fuel) store) path start
          (rest.map fun i => (children i).child) found
        = .ok (add found (rest.flatMap fun i => (children i).entries (path ++ [nibble i]))
            (rest.flatMap fun i => (children i).reached)) := by
  intro rest
  induction rest with
  | nil =>
    intro start found _ _
    rfl
  | cons i rest ih =>
    intro start found hindex hfresh
    have hstart : (i : Nat) = start := hindex 0 (by simp)
    have hnext : ∀ k (hk : k < rest.length),
        ((rest.get ⟨k, hk⟩ : Fin 16) : Nat) = start + 1 + k := by
      intro k hk
      have hshift := hindex (k + 1) (by simpa using hk)
      rw [Nat.add_assoc, Nat.add_comm 1 k]
      exact hshift
    rw [flatMap_cons, flatMap_cons] at hfresh ⊢
    rw [add_append, map_cons]
    by_cases hempty : children i = empty
    · have hchild : (children i).child = none := by rw [hempty]; rfl
      have hreached : (children i).reached = [] := by
        rw [hempty]
        simp [reached, followed, encode_empty]
      have hentries : (children i).entries (path ++ [nibble i]) = [] := by rw [hempty]; rfl
      rw [hreached, hentries, nil_append] at hfresh
      rw [hchild, hreached, hentries, add_nil]
      exact ih (start + 1) found hnext hfresh
    · have hnibble : BitVec.ofNat 4 start = nibble i := by rw [← hstart]; rfl
      rw [child_eq_some hempty, walkChildren, hnibble, hwalk i hempty found hfresh.left]
      exact ih (start + 1) _ hnext hfresh.right

/-- **The walk finds the entries.** -/
theorem walkNode_encode {fuel : Nat} (hvalid : t.Valid 32 n) (hne : t ≠ empty)
    (hlength : path.length + n = 64) (hfuel : n < fuel + 32)
    (hstore : ∀ e ∈ t.followed, store[keccak256 e]? = some e)
    (hfresh : Fresh found (t.entries path) t.followed) :
    walkNode store fuel t.encode path found = .ok (add found (t.entries path) t.followed) := by
  have hlong := (exists_mem_entries hvalid hne).1
  induction t generalizing n fuel path found with
  | empty => exact absurd rfl hne
  | leaf rest value =>
    cases fuel with
    | zero => omega
    | succ fuel =>
      have hfull : (path ++ rest).length = 64 := by
        rw [length_append, hvalid.2.1, hlength]
      have hnew : packedKey (path ++ rest) ∉ found.leaves :=
        hfresh.leaves _ (mem_singleton_self _)
      rw [walkNode, decodeNode_leaf (by decide) hvalid]
      simp only [packNibbles_eq_ok hfull, ok_bind, if_neg hnew]
      simp [add, entries, followed]
  | extension rest child ih =>
    cases fuel with
    | zero => omega
    | succ fuel =>
      obtain ⟨hrest, hle, _, hchildne, hchild⟩ := id hvalid
      have hpos : 0 < rest.length := length_pos_iff.mpr hrest
      have hbelow : (path ++ rest).length + (n - rest.length) = 64 := by
        rw [length_append]
        omega
      rw [walkNode, decodeNode_extension hvalid]
      refine walkChild_childReference (fun found hfresh => ?_) hstore hfresh
      exact ih hchild hchildne hbelow (by omega)
        (fun e he => hstore e (mem_reached_of_mem_followed he)) hfresh
        (exists_mem_entries hchild hchildne).1
  | branch children ih =>
    cases fuel with
    | zero => omega
    | succ fuel =>
      obtain ⟨hpos, _, _, hchildren⟩ := id hvalid
      rw [walkNode, decodeNode_branch hvalid]
      have hdepth : ¬SECURE_KEY_NIBBLES ≤ path.length := by
        unfold SECURE_KEY_NIBBLES
        omega
      simp only [if_neg hdepth]
      refine walkChildren_branch (fun i hi found hfresh => ?_) (finRange 16) 0 found
        (fun k hk => by simp) hfresh
      have hbelow : (path ++ [nibble i]).length + (n - 1) = 64 := by
        rw [length_append, length_singleton]
        omega
      have hstorei : ∀ e ∈ (children i).reached, store[keccak256 e]? = some e :=
        fun e he => hstore e (mem_followed_branch he)
      refine walkChild_childReference (fun found hfresh => ?_) hstorei hfresh
      exact ih i (hchildren i) hi hbelow (by omega)
        (fun e he => hstorei e (mem_reached_of_mem_followed he)) hfresh
        (exists_mem_entries (hchildren i) hi).1

/-! ## Collecting leaves -/

theorem encode_mem_nodes (hne : t ≠ empty) : t.encode ∈ t.nodes := by
  cases t with
  | empty => exact absurd rfl hne
  | leaf path value => exact mem_singleton_self _
  | extension path child => exact mem_append_right _ (mem_singleton_self _)
  | branch children => exact mem_append_right _ (mem_singleton_self _)

/-- Every reached encoding is that of a node. -/
theorem mem_nodes_of_mem_reached (h : e ∈ t.reached) : e ∈ t.nodes := by
  induction t with
  | empty => exact absurd h (by simp [reached, followed, encode_empty])
  | leaf path value =>
    rw [reached, followed] at h
    split at h
    · cases h
    · exact h
  | extension path child ih =>
    rcases mem_append.mp h with hself | hbelow
    · split at hself
      · cases hself
      · exact mem_append_right _ hself
    · exact mem_append_left _ (ih hbelow)
  | branch children ih =>
    rcases mem_append.mp h with hself | hbelow
    · split at hself
      · cases hself
      · exact mem_append_right _ hself
    · rw [followed_branch, mem_flatMap] at hbelow
      obtain ⟨i, hi, hmem⟩ := hbelow
      exact mem_append_left _ (mem_flatMap.mpr ⟨i, hi, ih i hmem⟩)

/-- **Leaves are collected.**  From a store that has the nodes of a tree, the root's hash
gives back the leaves the tree was built from. -/
theorem collectLeaves_encode (hP : Set.InjOn keccak256 P) {leaves : Leaves} (hvalid : t.Valid 32 64)
    (hne : t ≠ empty) (hentries : t.entries [] = entriesOf leaves)
    (hends : EndsDiffer (entriesOf leaves)) (hempty : Rlp.encodeString [] ∈ P)
    (hnodes : ∀ e ∈ t.nodes, e ∈ P ∧ store[keccak256 e]? = some e) :
    collectLeaves (keccak256 t.encode) store = .ok leaves := by
  have hrootP : t.encode ∈ P := (hnodes _ (encode_mem_nodes hne)).1
  have hreachedP : ∀ e ∈ t.reached, e ∈ P := fun e he => (hnodes e (mem_nodes_of_mem_reached he)).1
  have hfollowedP : ∀ e ∈ t.followed, e ∈ P :=
    fun e he => hreachedP e (mem_reached_of_mem_followed he)
  have hroot : ¬keccak256 t.encode = EMPTY_ROOT_HASH := by
    intro h
    have hbytes : t.encode = Rlp.encodeString [] := hP hrootP hempty h
    have hread := decodeNode_encode (by decide) hvalid hne
    rw [hbytes] at hread
    cases (decodeNode_empty.symm.trans hread)
  rw [← hentries] at hends
  have hnodup := nodup_reached hP hvalid (show ([] : List Nibble).length + 64 = 64 from rfl) hends
    hreachedP
  have hnot := encode_not_mem_followed hP hvalid (show ([] : List Nibble).length + 64 = 64 from rfl)
    hends hreachedP
  have hfresh : Fresh ⟨∅, (∅ : BTreeSet B256).insert (keccak256 t.encode)⟩ (t.entries [])
      t.followed := by
    refine ⟨?_, ?_, ?_, ?_⟩
    · rw [hentries, entriesOf, map_map]
      have hkeys : (leaves.toList.map ((fun entry : Entry => packedKey entry.1) ∘
          fun leaf => (unpackNibbles leaf.1, leaf.2))) = leaves.toList.map Prod.fst :=
        map_congr_left fun leaf _ => packedKey_unpackNibbles leaf.1
      rw [hkeys]
      exact OrdMap.nodup_keys leaves
    · intro entry _ hmem
      exact absurd hmem Std.ExtTreeMap.not_mem_empty
    · refine (Nodup.of_append_right hnodup).map_on ?_
      intro a ha b hb hab
      exact hP (hfollowedP a ha) (hfollowedP b hb) hab
    · intro e he hmem
      rw [Std.ExtTreeSet.mem_insert] at hmem
      rcases hmem with hsame | hold
      · have hhash : keccak256 t.encode = keccak256 e := Std.LawfulEqCmp.eq_of_compare hsame
        exact hnot (hP hrootP (hfollowedP e he) hhash ▸ he)
      · exact absurd hold Std.ExtTreeSet.not_mem_empty
  have hwalk := walkNode_encode hvalid hne (show ([] : List Nibble).length + 64 = 64 from rfl)
    (show 64 < 32 * (store.size + 2) + 32 by omega)
    (fun e he => (hnodes e (mem_nodes_of_mem_reached (mem_reached_of_mem_followed he))).2) hfresh
  rw [collectLeaves, if_neg hroot, loadHashed_eq_ok (hnodes _ (encode_mem_nodes hne)).2, ok_bind,
    hwalk]
  rw [add, hentries, map_packedKey_entriesOf, OrdMap.insertMany_toList]
  rfl

end Nodup

end Tree

end Trie

end Arbor
