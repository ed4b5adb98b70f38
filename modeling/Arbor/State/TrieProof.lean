import Arbor.State.TrieRoot

/-!
# Inclusion and exclusion proofs

A proof lists the nodes met on a key's path, from the root to where the path ends, and is
checked with the verifier of the trie library before it is returned.  The verifier walks a
child of fewer than 32 bytes inside its parent, so such a child is not an element of the
list; the prover lists every node it meets, embedded or not.

A proof is therefore produced exactly if no node below the root on the key's path is
embedded (`state_proofs_produced`).
-/

namespace Arbor

open Result List

/-- The proof verifier of the trie library. -/
class ProofVerifier where
  verifyProof : B256 → List Nibble → Option Bytes → List Bytes → Except String Unit

namespace Trie

/-- Inclusion or exclusion proof: nodes from the root to where the path ends. -/
structure StateProof where
  root : B256
  key : B256
  value : Option Bytes
  nodes : List Bytes
  deriving DecidableEq

/-! ## The prover -/

section Prover

variable [Keccak]

def StateProof.verify [ProofVerifier] (proof : StateProof) : Except StateError Unit :=
  (ProofVerifier.verifyProof proof.root (unpackNibbles proof.key) proof.value
    proof.nodes).mapError .proof

def resolveChild (store : NodeStore) : ChildReference → Except StateError Bytes
  | .hash hash => loadHashed store hash
  | .embedded encoded => .ok encoded

/-- The value at the end of a key's path and the nodes met.  Every step goes deeper, so fuel
for 65 levels is never used up. -/
def proofWalk (store : NodeStore) (target : List Nibble) :
    Nat → Bytes → Nat → List Bytes → Except StateError (Option Bytes × List Bytes)
  | 0, _, _, _ => .error (.invalidPath "branch beyond secure key")
  | fuel + 1, encoded, depth, nodes => do
    let nodes := nodes ++ [encoded]
    let node ← decodeNode encoded
    match node with
    | .leaf path value => return (if target.drop depth = path then some value else none, nodes)
    | .extension path child =>
      if path.isPrefixOf (target.drop depth) = false then return (none, nodes)
      else do
        let encoded ← resolveChild store child
        proofWalk store target fuel encoded (depth + path.length) nodes
    | .branch children =>
      if SECURE_KEY_NIBBLES ≤ depth then throw (.invalidPath "branch beyond secure key")
      else
        match (children[(target.getD depth 0).toNat]?).join with
        | none => return (none, nodes)
        | some child => do
          let encoded ← resolveChild store child
          proofWalk store target fuel encoded (depth + 1) nodes

/-- **Proving.**  The checked proof of a key under a root. -/
def proof [ProofVerifier] (root key : B256) (store : NodeStore) : Except StateError StateProof :=
  if root = EMPTY_ROOT_HASH then .ok ⟨root, key, none, []⟩
  else do
    let encoded ← loadHashed store root
    let (value, nodes) ← proofWalk store (unpackNibbles key) (SECURE_KEY_NIBBLES + 2) encoded 0 []
    let proof : StateProof := ⟨root, key, value, nodes⟩
    StateProof.verify proof
    return proof

/-! ## The verifier -/

/-- What a list of nodes shows about a path, if each is the one its predecessor refers to by
hash: a child that stands inside its parent takes no element. -/
def shownBelow : Nat → Bytes → List Nibble → List Bytes → Option (Option Bytes)
  | 0, _, _, _ => none
  | fuel + 1, encoded, path, later =>
    match decodeNode encoded with
    | .error _ => none
    | .ok (.leaf rest value) =>
      if later = [] then some (if path = rest then some value else none) else none
    | .ok (.extension rest child) =>
      if rest.isPrefixOf path = false then (if later = [] then some none else none)
      else shownChild (shownBelow fuel) child (path.drop rest.length) later
    | .ok (.branch children) =>
      match path with
      | [] => none
      | nibble :: path =>
        match (children[nibble.toNat]?).join with
        | none => if later = [] then some none else none
        | some child => shownChild (shownBelow fuel) child path later
where
  /-- The same through a reference to a child. -/
  shownChild (shown : Bytes → List Nibble → List Bytes → Option (Option Bytes))
      (child : ChildReference) (path : List Nibble) (later : List Bytes) : Option (Option Bytes) :=
    match child, later with
    | .embedded encoded, later => shown encoded path later
    | .hash _, [] => none
    | .hash hash, encoded :: later =>
      if keccak256 encoded = hash then shown encoded path later else none

/-- What a list of nodes shows about a path under a root. -/
def shown (root : B256) (path : List Nibble) : List Bytes → Option (Option Bytes)
  | [] => none
  | first :: later =>
    if keccak256 first = root then shownBelow (path.length + 2) first path later else none

/-- The verifier accepts exactly the lists that show the claimed value. -/
class LawfulProofVerifier [ProofVerifier] : Prop where
  verifyProof_eq_ok : ∀ (root : B256) (path : List Nibble) (value : Option Bytes)
    (nodes : List Bytes),
    ProofVerifier.verifyProof root path value nodes = .ok () ↔ shown root path nodes = some value

end Prover

/-! ## Paths through a tree -/

namespace Tree

def lookup : Tree → List Nibble → Option Bytes
  | empty, _ => none
  | leaf path value, rest => if rest = path then some value else none
  | extension path child, rest =>
    if path.isPrefixOf rest = false then none else child.lookup (rest.drop path.length)
  | branch _, [] => none
  | branch children, nibble :: rest => (children ⟨nibble.toNat, nibble.isLt⟩).lookup rest

theorem nibble_toNat (nibble : Nibble) : Tree.nibble ⟨nibble.toNat, nibble.isLt⟩ = nibble := by
  simp [Tree.nibble]

theorem mem_entries_iff_lookup {t : Tree} {n : Nat} (hvalid : t.Valid 32 n)
    {above rest : List Nibble} (hrest : rest.length = n) {value : Bytes} :
    (above ++ rest, value) ∈ t.entries above ↔ t.lookup rest = some value := by
  induction t generalizing n above rest with
  | empty => simp [entries, lookup]
  | leaf path found =>
    rw [entries, lookup]
    by_cases hpath : rest = path
    · simp [hpath, eq_comm]
    · simp [hpath]
  | extension path child ih =>
    obtain ⟨_, hle, _, _, hchild⟩ := hvalid
    rw [lookup]
    by_cases hstart : path <+: rest
    · obtain ⟨rest', rfl⟩ := hstart
      have hlength : rest'.length = n - path.length := by
        rw [length_append] at hrest
        omega
      have hyes : path.isPrefixOf (path ++ rest') = true := by simp
      rw [if_neg (by rw [hyes]; exact Bool.noConfusion), drop_left, ← append_assoc]
      exact ih hchild hlength
    · have hno : path.isPrefixOf rest = false := by
        rw [Bool.eq_false_iff, ne_eq, isPrefixOf_iff_prefix]
        exact hstart
      rw [if_pos hno]
      constructor
      · intro hmem
        obtain ⟨rest', hkey, _⟩ := key_of_mem_entries hchild hmem
        rw [append_assoc] at hkey
        exact absurd ⟨rest', (append_cancel_left hkey).symm⟩ hstart
      · intro h
        cases h
  | branch children ih =>
    obtain ⟨hpos, _, _, hchildren⟩ := hvalid
    cases rest with
    | nil =>
      rw [length_nil] at hrest
      omega
    | cons nibble rest =>
      have hlength : rest.length = n - 1 := by
        rw [length_cons] at hrest
        omega
      have hstep : (above ++ [nibble] ++ rest, value) ∈
          (children ⟨nibble.toNat, nibble.isLt⟩).entries (above ++ [nibble]) ↔ _ :=
        ih _ (hchildren _) hlength
      rw [append_assoc] at hstep
      rw [lookup, ← hstep, entries, mem_flatMap]
      constructor
      · rintro ⟨i, _, hmem⟩
        obtain ⟨rest', hkey, _⟩ := key_of_mem_entries (hchildren i) hmem
        rw [append_assoc] at hkey
        have hnibble : nibble = Tree.nibble i := (cons.inj (append_cancel_left hkey)).1
        have hi : i = ⟨nibble.toNat, nibble.isLt⟩ :=
          nibble_injective (by rw [nibble_toNat, hnibble])
        rw [hi] at hmem
        rwa [nibble_toNat] at hmem
      · intro hmem
        refine ⟨⟨nibble.toNat, nibble.isLt⟩, mem_finRange _, ?_⟩
        rwa [nibble_toNat]

section Trail

variable [Keccak]

variable {t : Tree} {later : List Bytes} {value : Option Bytes} {rest : List Nibble}

/-- The nodes met on a path, embedded ones as well. -/
def trail : Tree → List Nibble → List Bytes
  | empty, _ => []
  | leaf path value, _ => [(leaf path value).encode]
  | extension path child, rest => (extension path child).encode ::
    if path.isPrefixOf rest = false then [] else child.trail (rest.drop path.length)
  | branch children, [] => [(branch children).encode]
  | branch children, nibble :: rest =>
    (branch children).encode :: (children ⟨nibble.toNat, nibble.isLt⟩).trail rest

/-- The nodes met on a path that are referred to by hash, if the first one is. -/
def hashed (encodings : List Bytes) : List Bytes := encodings.filter fun e => decide (32 ≤ e.length)

theorem trail_eq_cons (hne : t ≠ empty) (rest : List Nibble) :
    t.trail rest = t.encode :: (t.trail rest).tail := by
  cases t with
  | empty => exact absurd rfl hne
  | leaf path value => rfl
  | extension path child => rfl
  | branch children => cases rest <;> rfl

theorem hashed_trail (hne : t ≠ empty) (rest : List Nibble) : hashed (t.trail rest)
      = (if t.encode.length < 32 then [] else [t.encode]) ++ hashed (t.trail rest).tail := by
  rw [trail_eq_cons hne, hashed, filter_cons]
  by_cases hshort : t.encode.length < 32
  · rw [if_pos hshort, if_neg (by simpa using hshort)]
    rfl
  · rw [if_neg hshort, if_pos (by simpa using hshort)]
    rfl

theorem resolveChild_childReference {store : NodeStore}
    (hstore : ∀ e ∈ t.reached, store[keccak256 e]? = some e) :
    resolveChild store t.childReference = .ok t.encode := by
  unfold childReference
  by_cases hshort : t.encode.length < 32
  · rw [if_pos hshort]
    rfl
  · rw [if_neg hshort]
    exact loadHashed_eq_ok (hstore _ (by simp [reached, hshort]))

/-- The child a branch is read with. -/
theorem join_getElem?_children (children : Fin 16 → Tree) (nibble : Nibble) :
    (((finRange 16).map fun i => (children i).child)[nibble.toNat]?).join
      = (children ⟨nibble.toNat, nibble.isLt⟩).child := by
  have hlt : nibble.toNat < (finRange 16).length := by
    exact nibble.isLt
  rw [getElem?_map, getElem?_eq_getElem hlt]
  simp

/-- **The prover** finds the value and lists every node on the way. -/
theorem proofWalk_encode {store : NodeStore} {target : List Nibble} {n fuel depth : Nat}
    {nodes : List Bytes} (hvalid : t.Valid 32 n) (hne : t ≠ empty)
    (hlength : (target.drop depth).length = n) (htarget : target.length = 64) (hfuel : n < fuel)
    (hstore : ∀ e ∈ t.followed, store[keccak256 e]? = some e) :
    proofWalk store target fuel t.encode depth nodes
      = .ok (t.lookup (target.drop depth), nodes ++ t.trail (target.drop depth)) := by
  induction t generalizing n fuel depth nodes with
  | empty => exact absurd rfl hne
  | leaf path value =>
    cases fuel with
    | zero => omega
    | succ fuel =>
      rw [proofWalk, decodeNode_leaf (by decide) hvalid]
      rfl
  | extension path child ih =>
    cases fuel with
    | zero => omega
    | succ fuel =>
      obtain ⟨hpath, hle, _, hchildne, hchild⟩ := id hvalid
      have hpos : 0 < path.length := length_pos_iff.mpr hpath
      rw [proofWalk, decodeNode_extension hvalid, ok_bind]
      simp only [lookup, trail]
      by_cases hstart : path.isPrefixOf (target.drop depth) = false
      · rw [if_pos hstart, if_pos hstart, if_pos hstart]
        rfl
      · have hnext : (target.drop (depth + path.length)).length = n - path.length := by
          rw [← drop_drop, length_drop, hlength]
        rw [if_neg hstart, if_neg hstart, if_neg hstart, resolveChild_childReference hstore,
          ok_bind, ih hchild hchildne hnext (by omega)
            (fun e he => hstore e (mem_reached_of_mem_followed he)), drop_drop,
          append_assoc]
        rfl
  | branch children ih =>
    cases fuel with
    | zero => omega
    | succ fuel =>
      obtain ⟨hpos, _, _, hchildren⟩ := id hvalid
      have hdepth : depth < target.length := by
        rw [length_drop] at hlength
        omega
      have hdrop : target.drop depth = target.getD depth 0 :: target.drop (depth + 1) := by
        rw [drop_eq_getElem_cons hdepth, getD_eq_getElem?_getD,
          getElem?_eq_getElem hdepth, Option.getD_some]
      have hnext : (target.drop (depth + 1)).length = n - 1 := by
        rw [length_drop] at hlength ⊢
        omega
      have hshallow : ¬SECURE_KEY_NIBBLES ≤ depth := by
        unfold SECURE_KEY_NIBBLES
        omega
      rw [proofWalk, decodeNode_branch hvalid, ok_bind]
      simp only [if_neg hshallow, join_getElem?_children]
      rw [hdrop, lookup, trail]
      by_cases hempty : children ⟨(target.getD depth 0).toNat, (target.getD depth 0).isLt⟩ = empty
      · rw [hempty]
        rfl
      · have hstorei : ∀ e ∈ (children
            ⟨(target.getD depth 0).toNat, (target.getD depth 0).isLt⟩).reached,
            store[keccak256 e]? = some e := fun e he => hstore e (mem_followed_branch he)
        rw [child_eq_some hempty]
        simp only [resolveChild_childReference hstorei, ok_bind]
        rw [ih _ (hchildren _) hempty hnext (by omega)
          (fun e he => hstorei e (mem_reached_of_mem_followed he)), append_assoc]
        rfl

omit [Keccak] in
/-- Where a path ends, nothing may be left of the list. -/
theorem shown_at_end {outcome : Option Bytes} :
    (if later = [] then some outcome else none) = some value ↔ later = [] ∧ value = outcome := by
  by_cases hnil : later = []
  · simp [hnil, eq_comm]
  · simp [hnil]

theorem shownChild_childReference {P : Set Bytes} (hP : Set.InjOn keccak256 P) (hne : t ≠ empty)
    (hreached : ∀ e ∈ t.reached, e ∈ P)
    {shown : Bytes → List Nibble → List Bytes → Option (Option Bytes)}
    (hshown : ∀ {later value}, (∀ e ∈ later, e ∈ P) → (shown t.encode rest later = some value ↔
      later = hashed (t.trail rest).tail ∧ value = t.lookup rest)) (hlater : ∀ e ∈ later, e ∈ P) :
    shownBelow.shownChild shown t.childReference rest later = some value ↔
      later = hashed (t.trail rest) ∧ value = t.lookup rest := by
  rw [hashed_trail hne]
  unfold childReference
  by_cases hshort : t.encode.length < 32
  · rw [if_pos hshort, if_pos hshort]
    exact hshown hlater
  · rw [if_neg hshort, if_neg hshort]
    cases later with
    | nil => simp [shownBelow.shownChild]
    | cons first later =>
      have hself : t.encode ∈ P := hreached _ (by simp [reached, hshort])
      rw [shownBelow.shownChild]
      by_cases hhash : keccak256 first = keccak256 t.encode
      · have hfirst : first = t.encode := hP (hlater first mem_cons_self) hself hhash
        rw [if_pos hhash, hfirst, hshown fun e he => hlater e (mem_cons_of_mem _ he)]
        simp
      · rw [if_neg hhash]
        constructor
        · intro h
          cases h
        · rintro ⟨hlist, _⟩
          exact absurd (congrArg keccak256 (cons.inj hlist).1) hhash

/-- **The verifier** takes exactly the hashed nodes of the path, and shows its value. -/
theorem shownBelow_encode {P : Set Bytes} (hP : Set.InjOn keccak256 P) {n fuel : Nat}
    (hvalid : t.Valid 32 n) (hne : t ≠ empty) (hlength : rest.length = n) (hfuel : n < fuel)
    (hfollowed : ∀ e ∈ t.followed, e ∈ P) (hlater : ∀ e ∈ later, e ∈ P) :
    shownBelow fuel t.encode rest later = some value ↔
      later = hashed (t.trail rest).tail ∧ value = t.lookup rest := by
  induction t generalizing n fuel rest later value with
  | empty => exact absurd rfl hne
  | leaf path found =>
    cases fuel with
    | zero => omega
    | succ fuel =>
      rw [shownBelow, decodeNode_leaf (by decide) hvalid]
      exact shown_at_end
  | extension path child ih =>
    cases fuel with
    | zero => omega
    | succ fuel =>
      obtain ⟨hpath, hle, _, hchildne, hchild⟩ := id hvalid
      have hpos : 0 < path.length := length_pos_iff.mpr hpath
      rw [shownBelow, decodeNode_extension hvalid]
      simp only [lookup, trail, tail_cons]
      by_cases hstart : path.isPrefixOf rest = false
      · rw [if_pos hstart, if_pos hstart, if_pos hstart]
        exact shown_at_end
      · have hnext : (rest.drop path.length).length = n - path.length := by
          rw [length_drop, hlength]
        have hdeeper : n - path.length < fuel := by omega
        rw [if_neg hstart, if_neg hstart, if_neg hstart]
        refine shownChild_childReference hP hchildne hfollowed (fun {later value} hlater => ?_)
          hlater
        exact ih hchild hchildne hnext hdeeper
          (fun e he => hfollowed e (mem_reached_of_mem_followed he)) hlater
  | branch children ih =>
    cases fuel with
    | zero => omega
    | succ fuel =>
      obtain ⟨hpos, _, _, hchildren⟩ := id hvalid
      cases rest with
      | nil =>
        rw [length_nil] at hlength
        omega
      | cons nibble rest =>
        have hnext : rest.length = n - 1 := by
          rw [length_cons] at hlength
          omega
        have hdeeper : n - 1 < fuel := by omega
        rw [shownBelow, decodeNode_branch hvalid, lookup, trail]
        simp only [join_getElem?_children]
        by_cases hempty : children ⟨nibble.toNat, nibble.isLt⟩ = empty
        · rw [hempty]
          exact shown_at_end
        · have hreached : ∀ e ∈ (children ⟨nibble.toNat, nibble.isLt⟩).reached, e ∈ P :=
            fun e he => hfollowed e (mem_followed_branch he)
          rw [child_eq_some hempty]
          refine shownChild_childReference hP hempty hreached (fun {later value} hlater => ?_)
            hlater
          exact ih _ (hchildren _) hempty hnext hdeeper
            (fun e he => hreached e (mem_reached_of_mem_followed he)) hlater

/-- Every node met on a path is a node of the tree. -/
theorem mem_nodes_of_mem_trail {e : Bytes} (h : e ∈ t.trail rest) : e ∈ t.nodes := by
  induction t generalizing rest with
  | empty => cases h
  | leaf path value => exact h
  | extension path child ih =>
    rcases mem_cons.mp h with rfl | hbelow
    · exact encode_mem_nodes nofun
    · split at hbelow
      · cases hbelow
      · exact mem_append_left _ (ih hbelow)
  | branch children ih =>
    cases rest with
    | nil => exact mem_append_right _ h
    | cons nibble rest =>
      rcases mem_cons.mp h with rfl | hbelow
      · exact encode_mem_nodes nofun
      · exact mem_append_left _
          (mem_flatMap.mpr ⟨_, mem_finRange _, ih _ hbelow⟩)

end Trail

end Tree

/-! ## Proofs under a built root -/

section Proofs

variable [Keccak]

variable {leaves : Leaves}

/-- No node below the root on a key's path is short enough to stand inside its parent. -/
def Unembedded (leaves : Leaves) (key : B256) : Prop :=
  ∀ e ∈ ((tree leaves).trail (unpackNibbles key)).tail, 32 ≤ e.length

instance (leaves : Leaves) (key : B256) : Decidable (Unembedded leaves key) :=
  inferInstanceAs (Decidable (∀ e ∈ ((tree leaves).trail (unpackNibbles key)).tail, 32 ≤ e.length))

omit [Keccak] in
theorem mem_entriesOf_iff {key : B256} {value : Bytes} :
    (unpackNibbles key, value) ∈ entriesOf leaves ↔ leaves[key]? = some value := by
  constructor
  · intro h
    obtain ⟨key', hkey, hvalue⟩ := mem_entriesOf h
    change unpackNibbles key = unpackNibbles key' at hkey
    have hsame : key = key' := by
      rw [← Tree.packedKey_unpackNibbles key, hkey, Tree.packedKey_unpackNibbles]
    rwa [hsame]
  · intro h
    exact mem_map.mpr
      ⟨(key, value), Std.ExtTreeMap.mem_toList_iff_getElem?_eq_some.mpr h, rfl⟩

/-- The tree leads to the leaves. -/
theorem lookup_tree (hspread : Spread {key | key ∈ leaves}) (hvectors : Vectors leaves)
    (hne : leaves.isEmpty = false) (key : B256) :
    (tree leaves).lookup (unpackNibbles key) = leaves[key]? := by
  have hbuilds := build_spec hspread hvectors.fits hne
  refine Option.ext fun value => ?_
  rw [← mem_entriesOf_iff, ← hbuilds.entries_eq]
  exact (Tree.mem_entries_iff_lookup hbuilds.valid (by simp [unpackNibbles])).symm

/-- The root of leaves is not the empty root. -/
theorem root_ne_empty (hvectors : Vectors leaves) (hne : leaves.isEmpty = false)
    (hinj : Set.InjOn keccak256 {e | e ∈ rootPreimages leaves}) :
    (snapshot leaves).root ≠ EMPTY_ROOT_HASH := by
  intro hroot
  have hencode : (tree leaves).encode = Rlp.encodeString [] :=
    hinj (encode_mem_rootPreimages leaves) mem_cons_self hroot
  have hempty := Tree.eq_empty_of_encode hvectors.tree_spec.1 hencode
  have hbuilds := buildNode_spec (hvectors.group hne)
    (show 64 - 0 < SECURE_KEY_NIBBLES + 2 by decide)
  exact hbuilds.nonempty hempty

variable [ProofVerifier]

/-- What proving does under a built root. -/
theorem proof_snapshot (hspread : Spread {key | key ∈ leaves}) (hvectors : Vectors leaves)
    (hne : leaves.isEmpty = false) (hinj : Set.InjOn keccak256 {e | e ∈ rootPreimages leaves})
    (key : B256) : proof (snapshot leaves).root key (snapshot leaves).nodes = (do
      let found : StateProof := ⟨(snapshot leaves).root, key, leaves[key]?,
        (tree leaves).trail (unpackNibbles key)⟩
      StateProof.verify found
      return found) := by
  have hbuilds := build_spec hspread hvectors.fits hne
  have hnodes := nodes_snapshot hinj
  have hload : loadHashed (snapshot leaves).nodes (snapshot leaves).root
      = .ok (tree leaves).encode :=
    Tree.loadHashed_eq_ok (hnodes _ (Tree.encode_mem_nodes hbuilds.nonempty))
  have hwalk : proofWalk (snapshot leaves).nodes (unpackNibbles key) (SECURE_KEY_NIBBLES + 2)
      (tree leaves).encode 0 [] = .ok (leaves[key]?, (tree leaves).trail (unpackNibbles key)) := by
    rw [← lookup_tree hspread hvectors hne]
    exact Tree.proofWalk_encode hbuilds.valid hbuilds.nonempty (by simp [unpackNibbles])
      (by simp [unpackNibbles]) (by decide) fun e he => hnodes e
        (Tree.mem_nodes_of_mem_reached (Tree.mem_reached_of_mem_followed he))
  rw [proof, if_neg (root_ne_empty hvectors hne hinj), hload, ok_bind, hwalk, ok_bind]

/-- **State proofs are produced exactly where no node is embedded.** -/
theorem state_proofs_produced [LawfulProofVerifier] (leaves : Leaves)
    (hspread : Spread {key | key ∈ leaves}) (hvectors : Vectors leaves)
    (hinj : Set.InjOn keccak256 {e | e ∈ rootPreimages leaves}) (built : TrieSnapshot)
    (hbuild : build leaves = .ok built) (key : B256) :
    (∃ found, proof built.root key built.nodes = .ok found ∧ found.value = leaves[key]?) ↔
      Unembedded leaves key := by
  obtain ⟨rfl, -⟩ := build_eq_ok hbuild
  cases hne : leaves.isEmpty with
  | true =>
    have hroot : (snapshot leaves).root = EMPTY_ROOT_HASH := by
      rw [snapshot, tree_of_isEmpty hne]
      rfl
    have hvalue : leaves[key]? = none := by
      rw [Std.ExtTreeMap.isEmpty_iff.mp hne, Std.ExtTreeMap.getElem?_empty]
    have htrail : Unembedded leaves key := by
      intro e he
      rw [tree_of_isEmpty hne] at he
      cases he
    rw [proof, if_pos hroot]
    exact ⟨fun _ => htrail, fun _ => ⟨_, rfl, hvalue.symm⟩⟩
  | false =>
    have hbuilds := build_spec hspread hvectors.fits hne
    have hP : ∀ e ∈ (tree leaves).nodes, e ∈ {e | e ∈ rootPreimages leaves} :=
      fun e he => mem_cons_of_mem _ he
    have hshown : shownBelow ((unpackNibbles key).length + 2) (tree leaves).encode
        (unpackNibbles key) ((tree leaves).trail (unpackNibbles key)).tail = some leaves[key]? ↔
          _ :=
      Tree.shownBelow_encode hinj hbuilds.valid hbuilds.nonempty (by simp [unpackNibbles])
        (by simp [unpackNibbles])
        (fun e he => hP e (Tree.mem_nodes_of_mem_reached (Tree.mem_reached_of_mem_followed he)))
        (fun e he => hP e (Tree.mem_nodes_of_mem_trail (mem_of_mem_tail he)))
    -- The list is accepted if nothing on it is embedded.
    have hverify : ProofVerifier.verifyProof (snapshot leaves).root (unpackNibbles key)
        leaves[key]? ((tree leaves).trail (unpackNibbles key)) = .ok () ↔
        Unembedded leaves key := by
      have hroot : keccak256 (tree leaves).encode = (snapshot leaves).root := rfl
      rw [LawfulProofVerifier.verifyProof_eq_ok, Tree.trail_eq_cons hbuilds.nonempty, shown,
        if_pos hroot, hshown, lookup_tree hspread hvectors hne, Tree.hashed, eq_comm, Unembedded]
      simp
    rw [proof_snapshot hspread hvectors hne hinj, ← hverify]
    simp only [StateProof.verify, check_bind_eq_ok, mapError_eq_ok]
    constructor
    · rintro ⟨found, ⟨hok, -⟩, -⟩
      exact hok
    · intro hok
      exact ⟨_, ⟨hok, rfl⟩, rfl⟩

end Proofs

section Sample

variable {value : Bytes}

attribute [local instance] rollingKeccak

@[reducible] def sampleVerifier : ProofVerifier :=
  ⟨fun root path value nodes =>
    if shown root path nodes = some value then .ok () else .error "value mismatch"⟩

attribute [local instance] sampleVerifier

instance sampleVerifier_lawful : LawfulProofVerifier where
  verifyProof_eq_ok root path value nodes := by
    by_cases h : shown root path nodes = some value
    · simp [ProofVerifier.verifyProof, h]
    · simp [ProofVerifier.verifyProof, h]

def pairLeaves (value : Bytes) : Leaves :=
  ((∅ : Leaves).insert (twinKey 0) value).insert (twinKey 1) value

theorem mem_pairLeaves {key : B256} (h : key ∈ pairLeaves value) : ∃ i < 2, key = twinKey i := by
  rw [pairLeaves, Std.ExtTreeMap.mem_insert, Std.ExtTreeMap.mem_insert] at h
  rcases h with h | h | h
  · exact ⟨1, by decide, (Std.LawfulEqCmp.eq_of_compare h).symm⟩
  · exact ⟨0, by decide, (Std.LawfulEqCmp.eq_of_compare h).symm⟩
  · exact absurd h Std.ExtTreeMap.not_mem_empty

theorem spread_pairLeaves (value : Bytes) : Spread {key | key ∈ pairLeaves value} :=
  spread_of_twins (by decide) fun _ => mem_pairLeaves

theorem vectors_pairLeaves (hvalue : value.length < Tree.VALUE_LIMIT) :
    Vectors (pairLeaves value) := by
  intro key found h
  rw [pairLeaves, OrdMap.getElem?_insert, OrdMap.getElem?_insert] at h
  split at h
  · cases h
    exact hvalue
  · split at h
    · cases h
      exact hvalue
    · cases h

theorem build_pairLeaves (hvalue : value.length < Tree.VALUE_LIMIT) :
    build (pairLeaves value) = .ok (snapshot (pairLeaves value)) := by
  refine build_succeeds (spread_pairLeaves value) (vectors_pairLeaves hvalue).fits ?_
  have hle : (pairLeaves value).size ≤ 2 := by
    refine le_trans Std.ExtTreeMap.size_insert_le (Nat.succ_le_succ ?_)
    refine le_trans Std.ExtTreeMap.size_insert_le ?_
    rw [Std.ExtTreeMap.size_empty]
  omega

/-- Two leaves of one byte are embedded in their branch, and no proof of them is produced. -/
theorem embedded_leaf_not_proved : ∃ (leaves : Leaves) (key : B256) (built : TrieSnapshot),
    Spread {key | key ∈ leaves} ∧ Vectors leaves ∧ build leaves = .ok built ∧
      leaves[key]? = some [0x01] ∧ ∀ found, proof built.root key built.nodes ≠ .ok found := by
  have hfails : (match proof (snapshot (pairLeaves [0x01])).root (twinKey 0)
      (snapshot (pairLeaves [0x01])).nodes with | .ok _ => true | .error _ => false) = false := by
    decide +kernel
  refine ⟨pairLeaves [0x01], twinKey 0, snapshot (pairLeaves [0x01]), spread_pairLeaves _,
    vectors_pairLeaves (by decide), build_pairLeaves (by decide), by decide +kernel, ?_⟩
  intro found h
  rw [h] at hfails
  cases hfails

/-- Leaves of 40 bytes are referred to by hash, and are proved. -/
theorem state_proofs_produced_long : ∃ found,
    proof (snapshot (pairLeaves (List.replicate 40 1))).root (twinKey 0)
      (snapshot (pairLeaves (List.replicate 40 1))).nodes = .ok found ∧
    found.value = (pairLeaves (List.replicate 40 1))[twinKey 0]? := by
  have hinj : ∀ p ∈ rootPreimages (pairLeaves (replicate 40 1)),
      ∀ q ∈ rootPreimages (pairLeaves (replicate 40 1)), keccak256 p = keccak256 q → p = q := by
    decide +kernel
  have hunembedded : Unembedded (pairLeaves (replicate 40 1)) (twinKey 0) := by
    decide +kernel
  have hcollisions : Set.InjOn keccak256
      {e | e ∈ rootPreimages (pairLeaves (replicate 40 1))} := by
    intro p hp q hq
    exact hinj p hp q hq
  exact (state_proofs_produced (pairLeaves (replicate 40 1)) (spread_pairLeaves _)
    (vectors_pairLeaves (by decide)) hcollisions _ (build_pairLeaves (by decide))
    (twinKey 0)).mpr hunembedded

end Sample

end Trie

end Arbor
