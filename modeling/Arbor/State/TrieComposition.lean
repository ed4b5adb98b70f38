import Mathlib.Data.Set.Subsingleton
import Arbor.State.TrieRoot

/-!
# The trie of a set

What a trie is, of a set of paths with values: a single entry is a leaf, entries with a
common prefix are an extension over the longest one, and all others are a branch over their
next nibbles (`Composes`).  No order is involved, and a set has one trie.  The builder works
on a sorted list, where the first and the last entry share what all do and a range of the
list has each nibble; it builds the trie of the set of its entries (`build_composes`).
-/

namespace Arbor

open Result List

namespace Trie

/-! ## Composition -/

/-- The entries of a set below a path. -/
def below (entries : Set Entry) (path : List Nibble) : Set Entry :=
  {entry | (path ++ entry.1, entry.2) ∈ entries}

/-- The longest path that all entries of a set begin with. -/
structure LongestCommonPrefix (entries : Set Entry) (path : List Nibble) : Prop where
  common : ∀ entry ∈ entries, path <+: entry.1
  longest : ∀ other : List Nibble, (∀ entry ∈ entries, other <+: entry.1) → other <+: path

inductive Composes : Set Entry → Tree → Prop
  | empty : Composes ∅ .empty
  | leaf (path : List Nibble) (value : Bytes) : Composes {(path, value)} (.leaf path value)
  | extension {entries : Set Entry} {path : List Nibble} {child : Tree} : entries.Nontrivial →
      LongestCommonPrefix entries path → path ≠ [] → Composes (below entries path) child →
      Composes entries (.extension path child)
  | branch {entries : Set Entry} {children : Fin 16 → Tree} : entries.Nontrivial →
      LongestCommonPrefix entries [] →
      (∀ i, Composes (below entries [Tree.nibble i]) (children i)) →
      Composes entries (.branch children)

theorem LongestCommonPrefix.unique {entries : Set Entry} {path path' : List Nibble}
    (h : LongestCommonPrefix entries path) (h' : LongestCommonPrefix entries path') :
    path = path' :=
  (h'.longest path h.common).eq_of_length_le (h.longest path' h'.common).length_le

/-- A set of entries has one trie. -/
theorem Composes.unique {entries : Set Entry} {t u : Tree} (ht : Composes entries t)
    (hu : Composes entries u) : t = u := by
  induction ht generalizing u with
  | empty =>
    generalize hempty : (∅ : Set Entry) = set at hu
    cases hu with
    | empty => rfl
    | leaf path value => exact absurd hempty.symm (Set.singleton_ne_empty _)
    | extension hmany => exact absurd hempty.symm hmany.nonempty.ne_empty
    | branch hmany => exact absurd hempty.symm hmany.nonempty.ne_empty
  | leaf path value =>
    generalize hsingle : ({(path, value)} : Set Entry) = set at hu
    cases hu with
    | empty => exact absurd hsingle (Set.singleton_ne_empty _)
    | leaf path' value' =>
      cases Set.singleton_injective hsingle
      rfl
    | extension hmany => exact absurd Set.subsingleton_singleton (hsingle ▸ hmany).not_subsingleton
    | branch hmany => exact absurd Set.subsingleton_singleton (hsingle ▸ hmany).not_subsingleton
  | extension hmany hcommon hpath _ ih =>
    cases hu with
    | empty => exact absurd rfl hmany.nonempty.ne_empty
    | leaf path value => exact absurd Set.subsingleton_singleton hmany.not_subsingleton
    | extension _ hcommon' _ hchild =>
      obtain rfl := hcommon.unique hcommon'
      rw [ih hchild]
    | branch _ hcommon' => exact absurd (hcommon.unique hcommon') hpath
  | branch hmany hcommon _ ih =>
    cases hu with
    | empty => exact absurd rfl hmany.nonempty.ne_empty
    | leaf path value => exact absurd Set.subsingleton_singleton hmany.not_subsingleton
    | extension _ hcommon' hpath => exact absurd (hcommon'.unique hcommon) hpath
    | branch _ _ hchildren => rw [funext fun i => ih i (hchildren i)]

/-! ## Sorted entries -/

theorem length_le_takeWhile_zip {w u v : List Nibble} (hu : w <+: u) (hv : w <+: v) :
    w.length ≤ ((u.zip v).takeWhile fun pair => pair.1 = pair.2).length := by
  induction w generalizing u v with
  | nil => exact Nat.zero_le _
  | cons x w ih =>
    obtain ⟨u', rfl⟩ := hu
    obtain ⟨v', rfl⟩ := hv
    have hrest := ih (prefix_append w u') (prefix_append w v')
    rw [cons_append, cons_append, zip_cons_cons, takeWhile_cons_of_pos (by simp)]
    exact Nat.succ_le_succ hrest

/-- The set of listed entries below a path. -/
def after (entries : List Entry) (p : List Nibble) : Set Entry := below {entry | entry ∈ entries} p

theorem below_after (entries : List Entry) (p q : List Nibble) :
    below (after entries p) q = after entries (p ++ q) := by
  ext entry
  change (p ++ (q ++ entry.1), entry.2) ∈ entries ↔ (p ++ q ++ entry.1, entry.2) ∈ entries
  rw [append_assoc]

theorem after_nil (p : List Nibble) : after [] p = ∅ :=
  Set.eq_empty_of_forall_notMem fun _ hmem => not_mem_nil hmem

section Groups

variable {p : List Nibble} {entries : List Entry} {first second : Entry} {rest : List Entry}

/-- Every entry of a group is below its path. -/
theorem Group.after_of_mem (h : Group 0 entries p) {entry : Entry} (hentry : entry ∈ entries) :
    ∃ tail, entry.1 = p ++ tail ∧ (tail, entry.2) ∈ after entries p := by
  obtain ⟨tail, htail, _⟩ := h.keys entry hentry
  refine ⟨tail, htail, ?_⟩
  change (p ++ tail, entry.2) ∈ entries
  rw [← htail]
  exact hentry

theorem Group.after_single {entry : Entry} (h : Group 0 [entry] p) :
    after [entry] p = {(entry.1.drop p.length, entry.2)} := by
  obtain ⟨tail, htail, _⟩ := h.keys entry (by simp)
  ext ⟨path, value⟩
  change (p ++ path, value) ∈ [entry] ↔ (path, value) = _
  rw [mem_singleton, Prod.ext_iff, Prod.ext_iff, htail, drop_left, append_right_inj]

theorem Group.nontrivial (h : Group 0 (first :: second :: rest) p) :
    (after (first :: second :: rest) p).Nontrivial := by
  obtain ⟨left, hleft, hfirst⟩ := h.after_of_mem List.mem_cons_self
  obtain ⟨right, hright, hsecond⟩ := h.after_of_mem (List.mem_cons_of_mem _ List.mem_cons_self)
  refine ⟨_, hfirst, _, hsecond, fun heq => ?_⟩
  have hlt : first.1 < second.1 := (List.pairwise_cons.mp h.sorted).1 second (by simp)
  obtain rfl : left = right := congrArg Prod.fst heq
  rw [hleft, hright] at hlt
  exact List.lt_irrefl _ hlt

theorem Group.longest (h : Group 0 (first :: second :: rest) p) {last : Entry}
    (hlast : (second :: rest).getLast (cons_ne_nil _ _) = last) :
    LongestCommonPrefix (after (first :: second :: rest) p)
      ((first.1.drop p.length).take (commonPrefix first last p.length)) := by
  obtain ⟨hlength, hshared⟩ := h.shared hlast rfl
  constructor
  · intro entry hentry
    obtain ⟨tail, htail⟩ := hshared _ hentry
    rw [append_assoc] at htail
    exact ⟨tail, (append_cancel_left htail).symm⟩
  · intro other hother
    have hdrop : ∀ entry ∈ first :: second :: rest, other <+: entry.1.drop p.length := by
      intro entry hentry
      obtain ⟨tail, htail, hafter⟩ := h.after_of_mem hentry
      rw [htail, drop_left]
      exact hother _ hafter
    have hmem : last ∈ first :: second :: rest := by
      rw [← hlast]
      exact mem_cons_of_mem _ (getLast_mem _)
    have hfirst := hdrop first mem_cons_self
    refine prefix_of_prefix_length_le hfirst ( take_prefix _ _) ?_
    rw [hlength]
    exact length_le_takeWhile_zip hfirst (hdrop last hmem)

/-- The entries with a next nibble are its range. -/
theorem Group.after_childRange (h : Group 0 entries p) (hshort : p.length < 64) (i : Fin 16) :
    after (childRange entries p.length i) (p ++ [Tree.nibble i]) = after entries
      (p ++ [Tree.nibble i]) := by
  ext ⟨path, value⟩
  change (p ++ [Tree.nibble i] ++ path, value) ∈ childRange entries p.length i ↔
    (p ++ [Tree.nibble i] ++ path, value) ∈ entries
  refine ⟨fun hmem => (sublist_childRange _ _ _).subset hmem, fun hmem => ?_⟩
  have hall := hmem
  rw [← flatMap_childRange_all entries p.length, mem_flatMap] at hall
  obtain ⟨k, hk, hrange⟩ := hall
  have hnibble := h.nibbleAt_childRange hshort hrange
  rw [append_assoc, singleton_append, nibbleAt_append, Tree.nibble, BitVec.toNat_ofNat,
    Nat.mod_eq_of_lt i.isLt] at hnibble
  rw [hnibble]
  exact hrange

/-- **Composition.**  The tree over a group is the trie of its entries. -/
theorem composes_treeNode {fuel : Nat} : ∀ {entries : List Entry} {p : List Nibble},
    Group 0 entries p → 64 - p.length < fuel →
      Composes (after entries p) (treeNode fuel entries p.length) := by
  induction fuel with
  | zero =>
    intro entries p _ hfuel
    omega
  | succ fuel ih =>
    intro entries p h hfuel
    match entries, h with
    | [], h => exact absurd rfl h.nonempty
    | [entry], h =>
      rw [h.after_single]
      exact .leaf _ _
    | first :: second :: rest, h =>
      have hlongest := h.longest rfl
      obtain ⟨hlength, hshared⟩ := h.shared rfl rfl
      have hdeep := h.length_lt hshared
      rw [length_append] at hdeep
      rw [treeNode]
      split
      · rename_i hcommon
        refine .extension h.nontrivial hlongest
          (ne_nil_of_length_pos (by rw [hlength]; exact hcommon)) ?_
        have hgroup := h.sublist (Sublist.refl _) h.nonempty
          (by rw [length_append]; omega) hshared
        have hchild := ih hgroup (by rw [length_append]; omega)
        rw [length_append, hlength] at hchild
        rw [below_after]
        exact hchild
      · rename_i hcommon
        rw [Nat.eq_zero_of_not_pos hcommon] at hlongest
        refine .branch h.nontrivial hlongest fun i => ?_
        have hshort : p.length + 0 < 64 := by omega
        rw [below_after, ← h.after_childRange hshort i]
        by_cases hrange : childRange (first :: second :: rest) p.length i = []
        · rw [hrange, treeNode_nil, after_nil]
          exact .empty
        · have hchild := ih (h.child hshort hrange)
            (by rw [length_append, length_singleton]; omega)
          rw [length_append] at hchild
          exact hchild

end Groups

/-! ## The trie of a map -/

section Maps

variable [Keccak]

def entrySet (leaves : Leaves) : Set Entry :=
  {entry | ∃ key, leaves[key]? = some entry.2 ∧ entry.1 = unpackNibbles key}

omit [Keccak] in
/-- A map has a trie, the tree that is built. -/
theorem composes_tree {leaves : Leaves} (h : Vectors leaves) :
    Composes (entrySet leaves) (tree leaves) := by
  have hset : entrySet leaves = after (entriesOf leaves) [] := by
    ext ⟨path, value⟩
    change (∃ key, leaves[key]? = some value ∧ path = unpackNibbles key) ↔
      (path, value) ∈ entriesOf leaves
    rw [entriesOf, mem_map]
    constructor
    · rintro ⟨key, hvalue, rfl⟩
      exact ⟨(key, value), Std.ExtTreeMap.mem_toList_iff_getElem?_eq_some.mpr hvalue, rfl⟩
    · rintro ⟨⟨key, _⟩, hmem, heq⟩
      cases heq
      exact ⟨key, Std.ExtTreeMap.mem_toList_iff_getElem?_eq_some.mp hmem, rfl⟩
  rw [hset]
  cases hempty : leaves.isEmpty with
  | true =>
    have hentries : entriesOf leaves = [] := by
      rw [Std.ExtTreeMap.isEmpty_iff.mp hempty]
      rfl
    rw [tree_of_isEmpty hempty, hentries, after_nil]
    exact .empty
  | false => exact composes_treeNode (h.group hempty) (by decide)

theorem mem_storeAll {l : List Bytes} {hash : B256} : ∀ {nodes : NodeStore},
    hash ∈ nodes ∨ hash ∈ l.map keccak256 → hash ∈ storeAll nodes l := by
  induction l with
  | nil => exact fun h => h.elim id fun hmem => by cases hmem
  | cons node rest ih =>
    intro nodes h
    refine ih ?_
    rw [Std.ExtTreeMap.mem_insert]
    rcases h with hmem | hmem
    · exact .inl (.inr hmem)
    · rcases mem_cons.mp hmem with rfl | hrest
      · exact .inl (.inl Std.ReflCmp.compare_self)
      · exact .inr hrest

/-- **The root is that of the trie.**  Up to the number of leaves `build` accepts, the root
of a map is the hash of the trie of its entries, and every node of that trie is stored. -/
theorem build_composes (leaves : Leaves) (hvectors : Vectors leaves)
    (hsize : leaves.size ≤ 2 ^ 32 - 1) : ∃ t, (∀ u, Composes (entrySet leaves) u ↔ u = t) ∧
      ∃ built, build leaves = .ok built ∧ built.root = keccak256 t.encode ∧
        (∀ node ∈ t.nodes, keccak256 node ∈ built.nodes) ∧
        (Set.InjOn keccak256 {node | node ∈ t.nodes} →
          ∀ node ∈ t.nodes, built.nodes[keccak256 node]? = some node) := by
  have hcomposes := composes_tree hvectors
  refine ⟨tree leaves, fun u => ⟨fun hu => hu.unique hcomposes, fun hu => hu ▸ hcomposes⟩,
    snapshot leaves, build_of_group hvectors.group (by omega), rfl, fun node hnode => ?_,
    fun hinj node hnode => ?_⟩
  · exact mem_storeAll (.inr (mem_map_of_mem hnode))
  · have hstored : (storeAll ∅ (tree leaves).nodes)[keccak256 node]? = _ :=
      getElem?_storeAll hinj (fun _ hmem => hmem) hnode
    rw [if_pos hnode] at hstored
    exact hstored

end Maps

section Sample

attribute [local instance] rollingKeccak

/-- A map that has a trie but is too large to be built. -/
theorem composition_limit : ∃ leaves t, Vectors leaves ∧ Composes (entrySet leaves) t ∧
    ∀ built, build leaves ≠ .ok built :=
  ⟨twinLeaves (2 ^ 32), _, vectors_twinLeaves (by omega),
    composes_tree (vectors_twinLeaves (by omega)),
    fun built h => by
      rw [build_limit (size_twinLeaves (by omega)).ge] at h
      cases h⟩

/-- Two leaves have a trie, and its root is built. -/
theorem build_composes_two : ∃ t built, Composes (entrySet (twinLeaves 2)) t ∧
    build (twinLeaves 2) = .ok built ∧ built.root = keccak256 t.encode := by
  obtain ⟨t, ht, built, hbuilt, hroot, _⟩ := build_composes (twinLeaves 2)
    (vectors_twinLeaves (by omega)) (by rw [size_twinLeaves (by omega)]; omega)
  exact ⟨t, built, (ht t).mpr rfl, hbuilt, hroot⟩

end Sample

end Trie

end Arbor
