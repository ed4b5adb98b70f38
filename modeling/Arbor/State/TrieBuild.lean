import Arbor.State.TrieWalk

/-!
# Building gives a tree

On sorted keys that differ in their first 32 nibbles, `buildNode` builds a valid tree over
exactly its entries and stores all its nodes (`buildNode_spec`).  With the results on
walks this gives the two directions of a snapshot: `build` succeeds, and its root is
walked back to the same leaves wherever its nodes are stored (`build_spec`,
`collectLeaves_snapshot`).
-/

namespace Arbor

open Result BigEndian List

namespace Trie

variable {tail : Nat} {p : List Nibble} {entries : List Entry} {entry : Entry} {leaves : Leaves}

/-! ## Order of keys -/

theorem lt_of_beNat_lt {a b : Bytes} (hlength : a.length = b.length) (h : beNat a < beNat b) :
    a < b := by
  induction a generalizing b with
  | nil =>
    cases b with
    | nil => exact absurd h (Nat.lt_irrefl _)
    | cons y b => cases hlength
  | cons x a ih =>
    cases b with
    | nil => cases hlength
    | cons y b =>
      have hlen : a.length = b.length := by simpa using hlength
      have ha := Rlp.beNat_append [x] a
      have hb := Rlp.beNat_append [y] b
      have hltb := beNat_lt b
      rw [singleton_append] at ha hb
      rw [ha, hb, hlen] at h
      have hx : beNat [x] = x.toNat := by simp [beNat]
      have hy : beNat [y] = y.toNat := by simp [beNat]
      rw [hx, hy] at h
      rw [cons_lt_cons_iff]
      rcases Nat.lt_trichotomy x.toNat y.toNat with hlt | heq | hgt
      · exact Or.inl (BitVec.lt_def.mpr hlt)
      · refine Or.inr ⟨BitVec.eq_of_toNat_eq heq, ih hlen ?_⟩
        rw [heq] at h
        omega
      · exfalso
        have hmul : (y.toNat + 1) * 256 ^ b.length ≤ x.toNat * 256 ^ b.length :=
          Nat.mul_le_mul_right _ hgt
        rw [Nat.add_mul] at hmul
        omega

theorem unpack_lt_unpack {a b : Bytes} (h : a < b) : Nibbles.unpack a < Nibbles.unpack b := by
  induction a generalizing b with
  | nil =>
    cases b with
    | nil => exact absurd h (List.lt_irrefl _)
    | cons y b => exact List.nil_lt_cons _ _
  | cons x a ih =>
    cases b with
    | nil => exact absurd h (List.not_lt_nil _)
    | cons y b =>
      rw [Nibbles.unpack, Nibbles.unpack, List.cons_lt_cons_iff, List.cons_lt_cons_iff]
      rcases List.cons_lt_cons_iff.mp h with hlt | ⟨rfl, hlt⟩
      · have hhigh := Nibbles.toNat_high x
        have hhigh' := Nibbles.toNat_high y
        have hlow := Nibbles.toNat_low x
        have hlow' := Nibbles.toNat_low y
        rw [BitVec.lt_def] at hlt
        by_cases hsame : x.toNat / 16 = y.toNat / 16
        · have heq : Nibbles.high x = Nibbles.high y :=
            BitVec.eq_of_toNat_eq (by omega)
          exact Or.inr ⟨heq, Or.inl (BitVec.lt_def.mpr (by omega))⟩
        · exact Or.inl (BitVec.lt_def.mpr (by omega))
      · exact Or.inr ⟨rfl, Or.inr ⟨rfl, ih hlt⟩⟩

theorem unpackNibbles_lt {a b : B256} (h : a < b) : unpackNibbles a < unpackNibbles b := by
  refine unpack_lt_unpack (lt_of_beNat_lt (by simp) ?_)
  rw [beNat_toBytes (by decide), beNat_toBytes (by decide)]
  exact BitVec.lt_def.mp h

theorem cons_le_cons {i j : Nibble} {a b : List Nibble} (h : i :: a = j :: b ∨ i :: a < j :: b) :
    i < j ∨ i = j ∧ (a = b ∨ a < b) := by
  rcases h with h | h
  · rw [cons.injEq] at h
    exact Or.inr ⟨h.1, Or.inl h.2⟩
  · rw [cons_lt_cons_iff] at h
    exact h.imp_right fun h => ⟨h.1, Or.inr h.2⟩

theorem exists_append_of_between {r x b z : List Nibble} (hab : r ++ x = b ∨ r ++ x < b)
    (hbc : b = r ++ z ∨ b < r ++ z) : ∃ y, b = r ++ y := by
  induction r generalizing b with
  | nil => exact ⟨b, rfl⟩
  | cons i r ih =>
    cases b with
    | nil =>
      rcases hab with h | h
      · cases h
      · exact absurd h (not_lt_nil _)
    | cons j b =>
      rcases cons_le_cons hab with hlt | ⟨rfl, hle⟩
      · rcases cons_le_cons hbc with hgt | ⟨rfl, _⟩
        · rw [BitVec.lt_def] at hlt hgt
          omega
        · exact absurd hlt (BitVec.lt_irrefl j)
      · rcases cons_le_cons hbc with hgt | ⟨_, hge⟩
        · exact absurd hgt (BitVec.lt_irrefl i)
        · obtain ⟨y, hy⟩ := ih hle hge
          exact ⟨y, by rw [hy, cons_append]⟩

theorem append_lt_append_left {r x y : List Nibble} (h : r ++ x < r ++ y) : x < y := by
  induction r with
  | nil => exact h
  | cons i r ih =>
    rw [cons_append, cons_append, cons_lt_cons_iff] at h
    rcases h with hlt | ⟨_, hlt⟩
    · exact absurd hlt (BitVec.lt_irrefl i)
    · exact ih hlt

/-- The counted nibbles are the same in both lists. -/
theorem take_takeWhile_zip (u v : List Nibble) :
    u.take ((u.zip v).takeWhile fun pair => pair.1 = pair.2).length
      = v.take ((u.zip v).takeWhile fun pair => pair.1 = pair.2).length ∧
    ((u.zip v).takeWhile fun pair => pair.1 = pair.2).length ≤ u.length := by
  induction u generalizing v with
  | nil => simp
  | cons x u ih =>
    cases v with
    | nil => simp
    | cons y v =>
      by_cases h : x = y
      · have hrest := ih v
        simp [h, hrest.1, hrest.2]
      · simp [h]

/-! ## Groups of entries -/

/-- Entries that a node at the path `p` is built over; two of them differ before their last
`tail` nibbles. -/
structure Group (tail : Nat) (entries : List Entry) (p : List Nibble) : Prop where
  nonempty : entries ≠ []
  shallow : p.length + tail ≤ 64
  keys : ∀ entry ∈ entries, ∃ rest, entry.1 = p ++ rest ∧ rest.length = 64 - p.length
  sorted : entries.Pairwise fun a b => a.1 < b.1
  starts : ∀ a ∈ entries, ∀ b ∈ entries, a.1.take (64 - tail) = b.1.take (64 - tail) → a.1 = b.1
  values : ∀ entry ∈ entries, entry.2.length < Tree.VALUE_LIMIT

variable {q : List Nibble}

theorem Group.length_lt {first second : Entry} {rest : List Entry}
    (h : Group tail (first :: second :: rest) p)
    (hq : ∀ entry ∈ first :: second :: rest, ∃ rest, entry.1 = q ++ rest) :
    q.length + tail < 64 := by
  by_contra hdeep
  have hlong : 64 - tail ≤ q.length := by omega
  obtain ⟨left, hfirst⟩ := hq first (by simp)
  obtain ⟨left', hsecond⟩ := hq second (by simp)
  have hsame : first.1 = second.1 := by
    refine h.starts first (by simp) second (by simp) ?_
    rw [hfirst, hsecond, List.take_append_of_le_length hlong, List.take_append_of_le_length hlong]
  have hlt : first.1 < second.1 := (List.pairwise_cons.mp h.sorted).1 second (by simp)
  rw [hsame] at hlt
  exact List.lt_irrefl _ hlt

theorem Group.sublist {part : List Entry} (h : Group tail entries p)
    (hpart : part.Sublist entries) (hne : part ≠ []) (hq : q.length + tail ≤ 64)
    (hkeys : ∀ entry ∈ part, ∃ rest, entry.1 = q ++ rest) : Group tail part q where
  nonempty := hne
  shallow := hq
  keys entry hentry := by
    obtain ⟨rest, hrest⟩ := hkeys entry hentry
    obtain ⟨whole, hwhole, hlength⟩ := h.keys entry (hpart.subset hentry)
    have hshallow := h.shallow
    have htotal := congrArg length (hrest.symm.trans hwhole)
    rw [length_append, length_append] at htotal
    exact ⟨rest, hrest, by omega⟩
  sorted := h.sorted.sublist hpart
  starts a ha b hb := h.starts a (hpart.subset ha) b (hpart.subset hb)
  values entry hentry := h.values entry (hpart.subset hentry)

theorem Group.between (h : Group tail entries p) (first last : Entry)
    (hfirst : entries.head? = some first) (hlast : entries.getLast? = some last)
    (hentry : entry ∈ entries) :
    (first.1 = entry.1 ∨ first.1 < entry.1) ∧ (entry.1 = last.1 ∨ entry.1 < last.1) := by
  constructor
  · cases entries with
    | nil => cases hentry
    | cons a rest =>
      obtain rfl : a = first := by simpa using hfirst
      rcases mem_cons.mp hentry with rfl | hmem
      · exact Or.inl rfl
      · exact Or.inr ((pairwise_cons.mp h.sorted).1 entry hmem)
  · obtain ⟨front, rfl⟩ : ∃ front, entries = front ++ [last] :=
      getLast?_eq_some_iff.mp hlast
    rcases mem_append.mp hentry with hmem | hmem
    · exact Or.inr ((pairwise_append.mp h.sorted).2.2 entry hmem last (by simp))
    · rw [mem_singleton] at hmem
      exact Or.inl (by rw [hmem])

theorem Group.shared {first second : Entry} {rest : List Entry}
    (h : Group tail (first :: second :: rest) p) {last : Entry}
    (hlast : (second :: rest).getLast (cons_ne_nil _ _) = last)
    (hq : (first.1.drop p.length).take (commonPrefix first last p.length) = q) :
    q.length = commonPrefix first last p.length ∧
      ∀ entry ∈ first :: second :: rest, ∃ tail, entry.1 = (p ++ q) ++ tail := by
  subst hlast hq
  let last := (second :: rest).getLast (cons_ne_nil _ _)
  let q := (first.1.drop p.length).take (commonPrefix first last p.length)
  obtain ⟨x, hx, _⟩ := h.keys first (by simp)
  have hmem : last ∈ first :: second :: rest := mem_cons_of_mem _ (getLast_mem _)
  obtain ⟨z, hz, _⟩ := h.keys last hmem
  have hfirstDrop : first.1.drop p.length = x := by rw [hx, drop_left]
  have hlastDrop : last.1.drop p.length = z := by rw [hz, drop_left]
  obtain ⟨htake, hle⟩ := take_takeWhile_zip (first.1.drop p.length) (last.1.drop p.length)
  have hqlen : q.length = commonPrefix first last p.length := length_take_of_le hle
  refine ⟨hqlen, fun entry hentry => ?_⟩
  obtain ⟨hge, hle⟩ := h.between first last rfl
    (getLast?_eq_some_getLast (by simp)) hentry
  have hfirst : first.1 = (p ++ q) ++ (first.1.drop p.length).drop q.length := by
    rw [hqlen, append_assoc, take_append_drop, hfirstDrop, hx]
  have hlast : last.1 = (p ++ q) ++ (last.1.drop p.length).drop q.length := by
    have hq' : q = (last.1.drop p.length).take q.length := by
      rw [hqlen]
      exact htake
    have hsplit : q ++ (last.1.drop p.length).drop q.length = last.1.drop p.length := by
      calc q ++ (last.1.drop p.length).drop q.length
          = (last.1.drop p.length).take q.length ++ (last.1.drop p.length).drop q.length := by
            rw [← hq']
        _ = last.1.drop p.length := take_append_drop _ _
    rw [append_assoc, hsplit, hlastDrop, hz]
  rw [hfirst] at hge
  rw [hlast] at hle
  exact exists_append_of_between hge hle

/-! ## Children of a branch -/

theorem nibbleAt_append (p rest : List Nibble) (i : Nibble) (value : Bytes) :
    nibbleAt (p ++ i :: rest, value) p.length = i.toNat := by
  simp [nibbleAt]

theorem sublist_childRange (entries : List Entry) (depth k : Nat) :
    (childRange entries depth k).Sublist entries :=
  (drop_sublist _ _).trans (take_sublist _ _)

theorem flatMap_childRange (entries : List Entry) (depth n : Nat) :
    (range n).flatMap (childRange entries depth)
      = entries.take (partitionPoint (fun entry => decide (nibbleAt entry depth < n)) entries) := by
  induction n with
  | zero =>
    have hnone : partitionPoint (fun entry => decide (nibbleAt entry depth < 0)) entries = 0 := by
      cases entries <;> simp [partitionPoint]
    rw [hnone]
    rfl
  | succ n ih =>
    have hlast : (fun entry : Entry => decide (nibbleAt entry depth ≤ n))
        = fun entry => decide (nibbleAt entry depth < n + 1) := by
      funext entry
      exact decide_eq_decide.mpr Nat.lt_succ_iff.symm
    have hle : partitionPoint (fun entry => decide (nibbleAt entry depth < n)) entries
        ≤ partitionPoint (fun entry => decide (nibbleAt entry depth < n + 1)) entries := by
      refine partitionPoint_le fun entry h => ?_
      simp only [decide_eq_true_eq] at h ⊢
      omega
    rw [range_succ, flatMap_append, ih, flatMap_singleton, childRange]
    simp only [hlast]
    have htake := take_append_drop
      (partitionPoint (fun entry => decide (nibbleAt entry depth < n)) entries)
      (entries.take (partitionPoint (fun entry => decide (nibbleAt entry depth < n + 1)) entries))
    rw [take_take, Nat.min_eq_left hle] at htake
    exact htake

/-- All ranges together are all entries. -/
theorem flatMap_childRange_all (entries : List Entry) (depth : Nat) :
    (range 16).flatMap (childRange entries depth) = entries := by
  rw [flatMap_childRange, partitionPoint_eq_length, take_length]
  intro entry _
  rw [decide_eq_true_eq]
  exact (entry.1.getD depth 0).isLt

/-- In a group the nibbles after the common path go up. -/
theorem Group.nibbleAt_le (h : Group tail entries p) (hshort : p.length + tail < 64) :
    entries.Pairwise fun a b => nibbleAt a p.length ≤ nibbleAt b p.length := by
  refine Pairwise.imp_of_mem ?_ h.sorted
  intro a b ha hb hlt
  obtain ⟨x, hx, hxlen⟩ := h.keys a ha
  obtain ⟨y, hy, hylen⟩ := h.keys b hb
  obtain ⟨i, x', rfl⟩ := exists_cons_of_length_pos (l := x) (by omega)
  obtain ⟨j, y', rfl⟩ := exists_cons_of_length_pos (l := y) (by omega)
  obtain ⟨akey, avalue⟩ := a
  obtain ⟨bkey, bvalue⟩ := b
  change akey = _ at hx
  change bkey = _ at hy
  rw [hx, hy] at hlt ⊢
  rw [nibbleAt_append, nibbleAt_append]
  rcases cons_lt_cons_iff.mp (append_lt_append_left hlt) with hlt | ⟨rfl, _⟩
  · exact Nat.le_of_lt (BitVec.lt_def.mp hlt)
  · exact Nat.le_refl _

theorem Group.nibbleAt_childRange (h : Group tail entries p) (hshort : p.length + tail < 64)
    {k : Nat} (hentry : entry ∈ childRange entries p.length k) : nibbleAt entry p.length = k := by
  unfold childRange at hentry
  have hupper : nibbleAt entry p.length ≤ k := by
    have hmem := mem_of_mem_drop hentry
    rw [take_partitionPoint] at hmem
    simpa using mem_takeWhile_imp hmem
  have hlower : ¬nibbleAt entry p.length < k := by
    rw [drop_take] at hentry
    have hmem := mem_of_mem_take hentry
    rw [drop_partitionPoint] at hmem
    have hpart : entries.Pairwise fun a b =>
        decide (nibbleAt b p.length < k) = true → decide (nibbleAt a p.length < k) = true := by
      refine (h.nibbleAt_le hshort).imp fun hle hb => ?_
      simp only [decide_eq_true_eq] at hb ⊢
      omega
    simpa using not_of_mem_dropWhile hpart hmem
  omega

theorem Group.child (h : Group tail entries p) (hshort : p.length + tail < 64) {i : Fin 16}
    (hne : childRange entries p.length i ≠ []) :
    Group tail (childRange entries p.length i) (p ++ [Tree.nibble i]) := by
  have hnext : (p ++ [Tree.nibble i]).length + tail ≤ 64 := by
    rw [length_append, length_singleton]
    omega
  refine h.sublist (sublist_childRange _ _ _) hne hnext ?_
  intro entry hentry
  obtain ⟨rest, hkey, hlength⟩ := h.keys entry ((sublist_childRange _ _ _).subset hentry)
  obtain ⟨j, rest', rfl⟩ := exists_cons_of_length_pos (l := rest) (by omega)
  have hnibble := h.nibbleAt_childRange hshort hentry
  obtain ⟨key, value⟩ := entry
  change key = _ at hkey
  rw [hkey, nibbleAt_append] at hnibble
  have hj : j = Tree.nibble i := by
    apply BitVec.eq_of_toNat_eq
    rw [Tree.nibble, BitVec.toNat_ofNat]
    omega
  exact ⟨rest', by rw [hkey, hj, append_assoc]; rfl⟩

/-! ## Leaves -/

/-- Keys of which any two differ in their first and in their last 32 nibbles. -/
def Spread (keys : Set B256) : Prop :=
  ∀ a ∈ keys, ∀ b ∈ keys,
    ((unpackNibbles a).take 32 = (unpackNibbles b).take 32 → a = b) ∧
    ((unpackNibbles a).drop 32 = (unpackNibbles b).drop 32 → a = b)

/-- Whether listed keys differ in their first and in their last 32 nibbles. -/
def spreadOf (keys : List B256) : Bool :=
  keys.all fun a => keys.all fun b =>
    ((unpackNibbles a).take 32 ≠ (unpackNibbles b).take 32 &&
      (unpackNibbles a).drop 32 ≠ (unpackNibbles b).drop 32) || a = b

theorem spread_of_spreadOf {keys : List B256} (h : spreadOf keys = true) :
    Spread {key | key ∈ keys} := by
  simp only [spreadOf, all_eq_true, Bool.or_eq_true, Bool.and_eq_true, decide_eq_true_eq] at h
  intro a ha b hb
  rcases h a ha b hb with ⟨hfirst, hlast⟩ | heq
  · exact ⟨fun hsame => absurd hsame hfirst, fun hsame => absurd hsame hlast⟩
  · exact ⟨fun _ => heq, fun _ => heq⟩

/-- Leaves over given keys, with values short enough. -/
structure Fits (keys : Set B256) (leaves : Leaves) : Prop where
  mem : ∀ (key : B256) (value : Bytes), leaves[key]? = some value → key ∈ keys
  short : ∀ (key : B256) (value : Bytes), leaves[key]? = some value →
  value.length < Tree.VALUE_LIMIT

theorem mem_entriesOf (h : entry ∈ entriesOf leaves) :
    ∃ key, entry.1 = unpackNibbles key ∧ leaves[key]? = some entry.2 := by
  obtain ⟨⟨key, value⟩, hmem, rfl⟩ := mem_map.mp h
  exact ⟨key, rfl, Std.ExtTreeMap.mem_toList_iff_getElem?_eq_some.mp hmem⟩

theorem endsDiffer_entriesOf {keys : Set B256} (hkeys : Spread keys) (hfits : Fits keys leaves) :
    Tree.EndsDiffer (entriesOf leaves) := by
  intro a ha b hb hends
  obtain ⟨key, hkey, hvalue⟩ := mem_entriesOf ha
  obtain ⟨key', hkey', hvalue'⟩ := mem_entriesOf hb
  rw [hkey, hkey'] at hends ⊢
  rw [(hkeys key (hfits.mem _ _ hvalue) key' (hfits.mem _ _ hvalue')).2 hends]

theorem group_of_starts (htail : tail ≤ 64) (hne : leaves.isEmpty = false)
    (hstarts : ∀ a ∈ leaves, ∀ b ∈ leaves, (unpackNibbles a).take (64 - tail) = (unpackNibbles
      b).take (64 - tail) → a = b)
    (hshort : ∀ (key : B256) (value : Bytes), leaves[key]? = some value → value.length <
      Tree.VALUE_LIMIT) : Group tail (entriesOf leaves) [] where
  nonempty := by
    intro h
    rw [entriesOf, map_eq_nil_iff, Std.ExtTreeMap.toList_eq_nil_iff] at h
    rw [h] at hne
    cases hne
  shallow := by simpa using htail
  keys entry hentry := by
    obtain ⟨key, hkey, _⟩ := mem_entriesOf hentry
    exact ⟨unpackNibbles key, hkey, by simp [unpackNibbles]⟩
  sorted := by
    rw [entriesOf, pairwise_map]
    refine Std.ExtTreeMap.ordered_keys_toList.imp fun h => unpackNibbles_lt ?_
    exact compare_lt_iff.mp h
  starts a ha b hb hsame := by
    obtain ⟨key, hkey, hvalue⟩ := mem_entriesOf ha
    obtain ⟨key', hkey', hvalue'⟩ := mem_entriesOf hb
    rw [hkey, hkey'] at hsame ⊢
    rw [hstarts key (OrdMap.mem_iff_exists.mpr ⟨_, hvalue⟩) key'
      (OrdMap.mem_iff_exists.mpr ⟨_, hvalue'⟩) hsame]
  values entry hentry := by
    obtain ⟨key, _, hvalue⟩ := mem_entriesOf hentry
    exact hshort key _ hvalue

theorem group_entriesOf {keys : Set B256} (hkeys : Spread keys) (hfits : Fits keys leaves)
    (hne : leaves.isEmpty = false) : Group 32 (entriesOf leaves) [] := by
  have hmem : ∀ key ∈ leaves, key ∈ keys := by
    intro key hkey
    obtain ⟨value, hvalue⟩ := OrdMap.mem_iff_exists.mp hkey
    exact hfits.mem key value hvalue
  exact group_of_starts (by decide) hne
    (fun a ha b hb => (hkeys a (hmem a ha) b (hmem b hb)).1) hfits.short

/-! ## Building -/

/-- The tree that `buildNode` builds. -/
def treeNode : Nat → List Entry → Nat → Tree
  | 0, _, _ => .empty
  | fuel + 1, entries, depth =>
    match entries with
    | [] => .empty
    | [entry] => .leaf (entry.1.drop depth) entry.2
    | first :: second :: rest =>
      let common := commonPrefix first ((second :: rest).getLast (List.cons_ne_nil _ _)) depth
      if 0 < common then
        .extension ((first.1.drop depth).take common)
          (treeNode fuel (first :: second :: rest) (depth + common))
      else
        .branch fun i => treeNode fuel (childRange (first :: second :: rest) depth i) (depth + 1)

theorem treeNode_nil (fuel depth : Nat) : treeNode fuel [] depth = .empty := by
  cases fuel <;> rfl

def tree (leaves : Leaves) : Tree := treeNode (SECURE_KEY_NIBBLES + 2) (entriesOf leaves) 0

theorem buildChildren_succeeds
    (build : List Entry → NodeStore → Except StateError (BuiltNode × NodeStore)) {depth : Nat}
    (hbuild : ∀ i : Fin 16, childRange entries depth i ≠ [] → ∀ nodes, ∃ result, build (childRange
      entries depth i) nodes = .ok result) (l : List (Fin 16)) :
    ∀ nodes, ∃ result, buildChildren build entries depth (l.map Fin.val) nodes = .ok result := by
  induction l with
  | nil =>
    intro nodes
    exact ⟨_, rfl⟩
  | cons i l ih =>
    intro nodes
    rw [map_cons, buildChildren]
    by_cases hrange : childRange entries depth i = []
    · obtain ⟨result, hresult⟩ := ih nodes
      simp only [hrange, if_true, pure_eq, ok_bind, hresult]
      exact ⟨_, rfl⟩
    · obtain ⟨⟨child, built⟩, hchild⟩ := hbuild i hrange nodes
      obtain ⟨result, hresult⟩ := ih built
      simp only [hrange, if_false, hchild, pure_eq, ok_bind, hresult]
      exact ⟨_, rfl⟩

section Build

variable [Keccak]

variable {fuel tail : Nat} {p : List Nibble} {leaves : Leaves} {keys : Set B256} {P : Set Bytes}

def storeAll (nodes : NodeStore) (encodings : List Bytes) : NodeStore :=
  encodings.foldl (fun nodes e => nodes.insert (keccak256 e) e) nodes

theorem storeAll_append (nodes : NodeStore) (a b : List Bytes) :
    storeAll nodes (a ++ b) = storeAll (storeAll nodes a) b :=
  foldl_append

/-- What a node is built as: its tree's encoding, with all the tree's nodes stored. -/
def BuiltAs (t : Tree) (nodes : NodeStore) (result : BuiltNode × NodeStore) : Prop :=
  result = (⟨t.encode, keccak256 t.encode⟩, storeAll nodes t.nodes)

theorem buildChildren_eq_ok
    {build : List Entry → NodeStore → Except StateError (BuiltNode × NodeStore)}
    {entries : List Entry} {depth : Nat} (children : Fin 16 → Tree)
    (hempty : ∀ i : Fin 16, childRange entries depth i = [] → children i = .empty)
    (hbuild : ∀ (i : Fin 16) {nodes result}, build (childRange entries depth i) nodes = .ok result →
      BuiltAs (children i) nodes result) {l : List (Fin 16)} :
    ∀ {nodes after : NodeStore} {items : List EncodedItem},
      buildChildren build entries depth (l.map Fin.val) nodes = .ok (items, after) →
      after = storeAll nodes (l.flatMap fun i => (children i).nodes) ∧
      items.flatMap EncodedItem.encode
        = (l.map fun i => Tree.reference (children i).encode).flatMap EncodedItem.encode := by
  induction l with
  | nil =>
    intro nodes after items h
    cases h
    exact ⟨rfl, rfl⟩
  | cons i l ih =>
    intro nodes after items h
    rw [map_cons, buildChildren] at h
    rw [flatMap_cons, map_cons, storeAll_append]
    by_cases hrange : childRange entries depth i = []
    · simp only [if_pos hrange, pure_eq, ok_bind] at h
      obtain ⟨⟨rest, last⟩, hrest, h⟩ := bind_eq_ok.mp h
      cases h
      obtain ⟨hafter, hbytes⟩ := ih hrest
      rw [flatMap_cons, hbytes, hafter, hempty i hrange]
      exact ⟨rfl, rfl⟩
    · simp only [if_neg hrange] at h
      obtain ⟨⟨child, built⟩, hchild, h⟩ := bind_eq_ok.mp h
      simp only [pure_eq, ok_bind] at h
      obtain ⟨⟨rest, last⟩, hrest, h⟩ := bind_eq_ok.mp h
      cases h
      obtain ⟨hafter, hbytes⟩ := ih hrest
      cases hbuild i hchild
      rw [flatMap_cons, hbytes, hafter]
      exact ⟨rfl, rfl⟩

/-- **A built node** is the encoding of its tree. -/
theorem buildNode_eq_ok : ∀ {entries : List Entry} {depth : Nat} {nodes : NodeStore}
    {result : BuiltNode × NodeStore}, buildNode fuel entries depth nodes = .ok result →
      BuiltAs (treeNode fuel entries depth) nodes result := by
  induction fuel with
  | zero =>
    intro entries depth nodes result h
    cases h
  | succ fuel ih =>
    intro entries depth nodes result h
    match entries, h with
    | [], h =>
      unfold buildNode at h
      split at h
      · cases h
      · cases h
    | [entry], h =>
      unfold buildNode at h
      split at h
      · cases h
      · cases h
        rfl
    | first :: second :: rest, h =>
      unfold buildNode at h
      split at h
      · cases h
      · rw [treeNode]
        simp only at h ⊢
        by_cases hcommon : 0 < commonPrefix first ((second :: rest).getLast (cons_ne_nil _ _)) depth
        · rw [if_pos hcommon] at h ⊢
          obtain ⟨⟨child, built⟩, hchild, h⟩ := bind_eq_ok.mp h
          cases ih hchild
          cases h
          rw [BuiltAs, Tree.nodes, storeAll_append]
          rfl
        · rw [if_neg hcommon] at h ⊢
          obtain ⟨_, h⟩ := check_bind_eq_ok.mp h
          obtain ⟨⟨items, built⟩, hitems, h⟩ := bind_eq_ok.mp h
          have hrange : range 16 = (finRange 16).map Fin.val := by decide
          rw [hrange] at hitems
          obtain ⟨hafter, hbytes⟩ := buildChildren_eq_ok
            (fun i => treeNode fuel (childRange (first :: second :: rest) depth i) (depth + 1))
            (fun i hempty => by rw [hempty, treeNode_nil]) (fun i => ih) hitems
          have hencode : encodeItems (items ++ [.bytes []]) = (Tree.branch fun i =>
              treeNode fuel (childRange (first :: second :: rest) depth i) (depth + 1)).encode := by
            rw [Tree.encode, encodeItems, encodeItems, flatMap_append, flatMap_append, hbytes]
          cases h
          rw [BuiltAs, Tree.nodes, storeAll_append, ← hencode, hafter]
          rfl

/-- What building entries at a path succeeds with. -/
structure Builds (tail : Nat) (build : NodeStore → Except StateError (BuiltNode × NodeStore))
    (p : List Nibble) (entries : List Entry) (t : Tree) : Prop where
  nonempty : t ≠ .empty
  valid : t.Valid tail (64 - p.length)
  entries_eq : t.entries p = entries
  succeeds : ∀ nodes, ∃ result, build nodes = .ok result

theorem builds_leaf {entry : Entry} (h : Group tail [entry] p) (fuel : Nat) :
    Builds tail (buildNode (fuel + 1) [entry] p.length) p [entry]
      (treeNode (fuel + 1) [entry] p.length) := by
  obtain ⟨rest, hkey, hlength⟩ := h.keys entry (by simp)
  have hshallow := h.shallow
  have hdrop : entry.1.drop p.length = rest := by rw [hkey, drop_left]
  have hdepth : ¬SECURE_KEY_NIBBLES < p.length := by
    unfold SECURE_KEY_NIBBLES
    omega
  rw [treeNode, hdrop]
  refine ⟨nofun, ⟨by omega, hlength, by omega, h.values entry (by simp)⟩, ?_, fun nodes => ?_⟩
  · rw [Tree.entries, ← hkey]
  · rw [buildNode, if_neg hdepth]
    exact ⟨_, rfl⟩

theorem builds_extension {first second : Entry} {rest : List Entry}
    (h : Group tail (first :: second :: rest) p)
    (ih : ∀ part q, Group tail part q → p.length < q.length → Builds tail (buildNode fuel part
      q.length) q part (treeNode fuel part q.length))
    (hcommon : 0 < commonPrefix first ((second :: rest).getLast (cons_ne_nil _ _)) p.length) :
    Builds tail (buildNode (fuel + 1) (first :: second :: rest) p.length) p
      (first :: second :: rest)
      (treeNode (fuel + 1) (first :: second :: rest) p.length) := by
  let entries := first :: second :: rest
  let last := (second :: rest).getLast (cons_ne_nil _ _)
  let q := (first.1.drop p.length).take (commonPrefix first last p.length)
  obtain ⟨hqlen, hq⟩ : q.length = commonPrefix first last p.length ∧
      ∀ entry ∈ entries, ∃ tail, entry.1 = (p ++ q) ++ tail := h.shared rfl rfl
  have hshort : (p ++ q).length + tail < 64 := h.length_lt hq
  have hgroup : Group tail entries (p ++ q) :=
    h.sublist (Sublist.refl _) h.nonempty (Nat.le_of_lt hshort) hq
  have hlonger : p.length < (p ++ q).length := by
    rw [length_append, hqlen]
    exact Nat.lt_add_of_pos_right hcommon
  have ht := ih entries (p ++ q) hgroup hlonger
  have hdepth : ¬SECURE_KEY_NIBBLES < p.length := by
    unfold SECURE_KEY_NIBBLES
    omega
  have htree : treeNode (fuel + 1) entries p.length
      = .extension q (treeNode fuel entries (p ++ q).length) := by
    rw [treeNode]
    simp only [if_pos hcommon]
    rw [length_append, hqlen]
  rw [length_append] at hshort hlonger
  rw [htree]
  refine ⟨nofun, ⟨?_, by omega, by omega, ht.nonempty, ?_⟩, ht.entries_eq, fun nodes => ?_⟩
  · exact ne_nil_of_length_pos (by omega)
  · have hvalid := ht.valid
    have hleft : 64 - (p ++ q).length = 64 - p.length - q.length := by
      rw [length_append, Nat.sub_sub]
    rwa [hleft] at hvalid
  · obtain ⟨result, hresult⟩ := ht.succeeds nodes
    rw [length_append, hqlen] at hresult
    change buildNode fuel (first :: second :: rest)
      (p.length + commonPrefix first ((second :: rest).getLast (cons_ne_nil _ _)) p.length) nodes
        = _ at hresult
    rw [buildNode, if_neg hdepth]
    simp only [if_pos hcommon, hresult, ok_bind]
    exact ⟨_, rfl⟩

theorem builds_branch {first second : Entry} {rest : List Entry}
    (h : Group tail (first :: second :: rest) p)
    (ih : ∀ part q, Group tail part q → p.length < q.length → Builds tail (buildNode fuel part
      q.length) q part (treeNode fuel part q.length))
    (hcommon : ¬0 < commonPrefix first ((second :: rest).getLast (cons_ne_nil _ _)) p.length) :
    Builds tail (buildNode (fuel + 1) (first :: second :: rest) p.length) p
      (first :: second :: rest)
      (treeNode (fuel + 1) (first :: second :: rest) p.length) := by
  have hshort : p.length + tail < 64 := h.length_lt fun entry hentry => by
    obtain ⟨tail, htail, _⟩ := h.keys entry hentry
    exact ⟨tail, htail⟩
  have hnext : ∀ i : Fin 16, (p ++ [Tree.nibble i]).length = p.length + 1 := fun i => by
    rw [length_append, length_singleton]
  let children : Fin 16 → Tree := fun i =>
    treeNode fuel (childRange (first :: second :: rest) p.length i) (p.length + 1)
  have hempty : ∀ i : Fin 16, childRange (first :: second :: rest) p.length i = [] →
      children i = .empty := by
    intro i hrange
    change treeNode fuel _ _ = _
    rw [hrange, treeNode_nil]
  have hbuilds : ∀ i : Fin 16, childRange (first :: second :: rest) p.length i ≠ [] →
      Builds tail (buildNode fuel (childRange (first :: second :: rest) p.length i) (p.length + 1))
        (p ++ [Tree.nibble i]) (childRange (first :: second :: rest) p.length i) (children i) := by
    intro i hrange
    have ht := ih _ (p ++ [Tree.nibble i]) (h.child hshort hrange)
      (by rw [hnext]; exact Nat.lt_succ_self _)
    rwa [hnext] at ht
  have hentries : (Tree.branch children).entries p = first :: second :: rest := by
    have hall := flatMap_childRange_all (first :: second :: rest) p.length
    have hrange : range 16 = (finRange 16).map Fin.val := by decide
    rw [hrange, flatMap_map] at hall
    refine Eq.trans (flatMap_congr fun i _ => ?_) hall
    by_cases hrange : childRange (first :: second :: rest) p.length i = []
    · rw [hempty i hrange, hrange]
      rfl
    · exact (hbuilds i hrange).entries_eq
  have hsome : ∃ i, children i ≠ .empty := by
    by_contra hnone
    rw [not_exists] at hnone
    rw [Tree.entries] at hentries
    have hnil : ((finRange 16).flatMap fun i =>
        (children i).entries (p ++ [Tree.nibble i])) = [] :=
      flatMap_eq_nil_iff.mpr fun i _ => by rw [not_not.mp (hnone i)]; rfl
    rw [hnil] at hentries
    cases hentries
  have hvalid : ∀ i, (children i).Valid tail (64 - p.length - 1) := by
    intro i
    by_cases hrange : childRange (first :: second :: rest) p.length i = []
    · rw [hempty i hrange]
      trivial
    · have hchild := (hbuilds i hrange).valid
      rwa [hnext, ← Nat.sub_sub] at hchild
  have hdepth : ¬SECURE_KEY_NIBBLES < p.length := by
    unfold SECURE_KEY_NIBBLES
    omega
  have hdistinct : ¬SECURE_KEY_NIBBLES ≤ p.length := by
    unfold SECURE_KEY_NIBBLES
    omega
  have htree : treeNode (fuel + 1) (first :: second :: rest) p.length = .branch children := by
    rw [treeNode]
    simp only [if_neg hcommon]
    rfl
  rw [htree]
  refine ⟨(by simp), ⟨by omega, by omega, hsome, hvalid⟩, hentries, fun nodes => ?_⟩
  obtain ⟨result, hresult⟩ := buildChildren_succeeds
    (fun range nodes => buildNode fuel range (p.length + 1) nodes)
      (fun i hrange => (hbuilds i hrange).succeeds) (finRange 16) nodes
  have hrange : (finRange 16).map Fin.val = range 16 := by decide
  rw [hrange] at hresult
  rw [buildNode, if_neg hdepth]
  simp only [if_neg hcommon, rejectIf_neg hdistinct, ok_bind, hresult]
  exact ⟨_, rfl⟩

/-- **Building.**  With fuel for the nibbles that are left, a group is built into a tree
over its entries. -/
theorem buildNode_spec : ∀ {entries : List Entry} {p : List Nibble},
    Group tail entries p → 64 - p.length < fuel →
      Builds tail (buildNode fuel entries p.length) p entries (treeNode fuel entries p.length) := by
  induction fuel with
  | zero =>
    intro entries p _ hfuel
    omega
  | succ fuel ih =>
    intro entries p h hfuel
    have hdeeper : ∀ part q, Group tail part q → p.length < q.length →
        Builds tail (buildNode fuel part q.length) q part (treeNode fuel part q.length) := by
      intro part q hpart hlonger
      have hlimit := hpart.shallow
      exact ih hpart (by omega)
    match entries, h with
    | [], h => exact absurd rfl h.nonempty
    | [entry], h => exact builds_leaf h fuel
    | first :: second :: rest, h =>
      by_cases hcommon : 0 < commonPrefix first ((second :: rest).getLast (cons_ne_nil _ _))
        p.length
      · exact builds_extension h hdeeper hcommon
      · exact builds_branch h hdeeper hcommon

/-- The encodings a snapshot of leaves hashes. -/
def encodings (leaves : Leaves) : List Bytes := (tree leaves).nodes

def snapshot (leaves : Leaves) : TrieSnapshot :=
  ⟨keccak256 (tree leaves).encode, storeAll ∅ (encodings leaves), leaves⟩

/-- **Snapshots.**  What `build` returns is the snapshot of its leaves. -/
theorem build_eq_ok {built : TrieSnapshot} (h : build leaves = .ok built) :
    built = snapshot leaves ∧ leaves.size < 2 ^ 32 := by
  unfold build at h
  cases hempty : leaves.isEmpty with
  | true =>
    rw [if_pos hempty] at h
    cases h
    rw [Std.ExtTreeMap.isEmpty_iff.mp hempty]
    exact ⟨rfl, by decide⟩
  | false =>
    rw [if_neg (by rw [hempty]; exact Bool.false_ne_true)] at h
    obtain ⟨hsize, h⟩ := check_bind_eq_ok.mp h
    obtain ⟨⟨root, nodes⟩, hnode, h⟩ := bind_eq_ok.mp h
    cases h
    rw [rejectIf_eq_ok, not_le] at hsize
    cases buildNode_eq_ok hnode
    exact ⟨rfl, hsize⟩

theorem build_spec (hkeys : Spread keys) (hfits : Fits keys leaves) (hne : leaves.isEmpty = false) :
    Builds 32 (buildNode (SECURE_KEY_NIBBLES + 2) (entriesOf leaves) 0) [] (entriesOf leaves)
      (tree leaves) :=
  buildNode_spec (group_entriesOf hkeys hfits hne) (by decide)

theorem build_of_group (hgroup : leaves.isEmpty = false → Group tail (entriesOf leaves) [])
    (hsize : leaves.size < 2 ^ 32) : build leaves = .ok (snapshot leaves) := by
  cases hbuild : build leaves with
  | ok built => rw [(build_eq_ok hbuild).1]
  | error e =>
    unfold build at hbuild
    cases hne : leaves.isEmpty with
    | true =>
      rw [if_pos hne] at hbuild
      cases hbuild
    | false =>
      have hbuilds := buildNode_spec (hgroup hne) (show 64 - 0 < SECURE_KEY_NIBBLES + 2 by decide)
      obtain ⟨result, hresult⟩ := hbuilds.succeeds ∅
      rw [length_nil] at hresult
      rw [if_neg (by rw [hne]; exact Bool.false_ne_true), rejectIf_neg (by omega),
        hresult] at hbuild
      cases hbuild

/-- Leaves over spread keys have a snapshot. -/
theorem build_succeeds (hkeys : Spread keys) (hfits : Fits keys leaves)
    (hsize : leaves.size < 2 ^ 32) : build leaves = .ok (snapshot leaves) :=
  build_of_group (group_entriesOf hkeys hfits) hsize

theorem getElem?_storeAll (hP : Set.InjOn keccak256 P) {l : List Bytes} {nodes : NodeStore}
    (hl : ∀ e ∈ l, e ∈ P) {e : Bytes} (he : e ∈ P) :
    (storeAll nodes l)[keccak256 e]? = if e ∈ l then some e else nodes[keccak256 e]? := by
  induction l generalizing nodes with
  | nil => rfl
  | cons a l ih =>
    have ha : a ∈ P := hl a mem_cons_self
    rw [storeAll, foldl_cons, ← storeAll,
      ih fun b hb => hl b (mem_cons_of_mem _ hb), OrdMap.getElem?_insert]
    by_cases hmem : e ∈ l
    · rw [if_pos hmem, if_pos (mem_cons_of_mem _ hmem)]
    · by_cases hsame : a = e
      · rw [if_neg hmem, if_pos (congrArg _ hsame), if_pos (by rw [hsame]; exact mem_cons_self),
          hsame]
      · have hhash : ¬keccak256 a = keccak256 e := fun h => hsame (hP ha he h)
        have hnot : e ∉ a :: l := fun h => by
          rcases mem_cons.mp h with rfl | h
          · exact hsame rfl
          · exact hmem h
        rw [if_neg hmem, if_neg hhash, if_neg hnot]

/-- **Reloading.**  Wherever the nodes of a snapshot are stored, its root is walked back to
its leaves. -/
theorem collectLeaves_snapshot (hP : Set.InjOn keccak256 P) (hempty : Rlp.encodeString [] ∈ P)
    (hkeys : Spread keys) (hfits : Fits keys leaves) {store : NodeStore}
    (hstore : ∀ e ∈ encodings leaves, e ∈ P ∧ store[keccak256 e]? = some e) :
    collectLeaves (snapshot leaves).root store = .ok leaves := by
  cases hne : leaves.isEmpty with
  | true =>
    rw [Std.ExtTreeMap.isEmpty_iff.mp hne]
    exact if_pos rfl
  | false =>
    have hbuilds := build_spec hkeys hfits hne
    exact Tree.collectLeaves_encode hP hbuilds.valid hbuilds.nonempty hbuilds.entries_eq
      (endsDiffer_entriesOf hkeys hfits) hempty hstore

end Build

end Trie

end Arbor
