import Mathlib.Logic.Relation
import Arbor.Lib.Tally
import Arbor.State.TrieProof

/-!
# How deep a traversal goes

The calls of `walkNode` in a traversal are those that its first call leads to (`Enters`).
Each nested call has at least one more nibble in its path, so a bound on the paths bounds the
nesting.  A branch below the last nibble is rejected; an extension is not.

The references below a root are visited in the order of their keys (`spots`), up to the first
that has the trie rejected: a node that is missing or malformed, a hash or a key for the
second time.  The paths are bounded exactly if no reference before that leads out of the key
to a stored node (`traversal_bounded_iff`).  In any case a nested call has fewer hashes left
to follow, or a shorter encoding, and the traversal ends before its fuel.
-/

namespace Arbor

open Result List

namespace Trie

/-! ## Encodings of children -/

variable {encoded : Bytes}

/-- The items of a list are shorter than the list. -/
theorem length_of_decodeRlpList {items : List RlpItem}
    (h : decodeRlpList encoded = .ok items) : ∀ item ∈ items, item.raw.length < encoded.length := by
  intro item hitem
  obtain ⟨_, rfl⟩ := canonical_of_decodeRlpList h
  have hle := length_raw_le hitem
  have hpos := (length_encodeLength_le 0xc0 (items.flatMap RlpItem.raw).length).1
  rw [Rlp.encodeList, Rlp.listHeader, length_append]
  omega

theorem length_of_decodeChild {item : RlpItem}
    (h : decodeChild item = .ok (some (.embedded encoded))) :
    encoded = item.raw ∧ encoded.length < 32 := by
  unfold decodeChild at h
  split at h
  · split at h
    · cases h
    · cases h
      exact ⟨rfl, not_le.mp (by assumption)⟩
  · split at h
    · cases h
    · split at h <;> cases h

def DecodedNode.children : DecodedNode → List ChildReference
  | .leaf _ _ => []
  | .extension _ child => [child]
  | .branch children => children.filterMap id

theorem length_of_embedded {child : Bytes} {node : DecodedNode}
    (h : decodeNode encoded = .ok node) (hchild : .embedded child ∈ node.children) :
    child.length < min encoded.length 32 := by
  have hfields : ∀ {fields : List RlpItem} {item : RlpItem}, decodeRlpList encoded = .ok fields →
      item ∈ fields → decodeChild item = .ok (some (.embedded child)) →
      child.length < min encoded.length 32 := by
    intro fields item hlist hitem hdecode
    obtain ⟨rfl, hshort⟩ := length_of_decodeChild hdecode
    exact lt_min (length_of_decodeRlpList hlist item hitem) hshort
  obtain ⟨fields, hlist, h⟩ := bind_eq_ok.mp h
  split at h
  · rename_i first second
    obtain ⟨_, h⟩ := check_bind_eq_ok.mp h
    obtain ⟨⟨path, leaf⟩, _, h⟩ := bind_eq_ok.mp h
    obtain ⟨_, h⟩ := check_bind_eq_ok.mp h
    cases leaf with
    | true =>
      obtain ⟨_, h⟩ := check_bind_eq_ok.mp h
      cases h
      cases hchild
    | false =>
      obtain ⟨reference, hreference, h⟩ := bind_eq_ok.mp h
      cases reference with
      | none => cases h
      | some reference =>
        cases h
        rw [← mem_singleton.mp hchild] at hreference
        exact hfields hlist (mem_cons_of_mem _ mem_cons_self) hreference
  · split at h
    · obtain ⟨_, h⟩ := check_bind_eq_ok.mp h
      obtain ⟨children, hchildren, h⟩ := bind_eq_ok.mp h
      cases h
      obtain ⟨reference, hmem, hsome⟩ := mem_filterMap.mp hchild
      obtain ⟨item, hitem, hdecode⟩ := mem_mapAll hchildren hmem
      rw [show reference = _ from hsome] at hdecode
      exact hfields hlist (mem_of_mem_take hitem) hdecode
    · cases h

theorem decodeNode_nonempty {node : DecodedNode}
    (h : decodeNode encoded = .ok node) : 0 < encoded.length := by
  cases encoded with
  | nil => cases h
  | cons => exact Nat.succ_pos _

theorem extension_nonempty {path : List Nibble} {child : ChildReference}
    (h : decodeNode encoded = .ok (.extension path child)) : path ≠ [] := by
  obtain ⟨fields, _, h⟩ := bind_eq_ok.mp h
  split at h
  · obtain ⟨_, h⟩ := check_bind_eq_ok.mp h
    obtain ⟨⟨found, leaf⟩, _, h⟩ := bind_eq_ok.mp h
    obtain ⟨hpath, h⟩ := check_bind_eq_ok.mp h
    cases leaf with
    | true =>
      obtain ⟨_, h⟩ := check_bind_eq_ok.mp h
      cases h
    | false =>
      obtain ⟨reference, _, h⟩ := bind_eq_ok.mp h
      cases reference with
      | none => cases h
      | some reference =>
        cases h
        exact rejectIf_eq_ok.mp hpath
  · split at h
    · obtain ⟨_, h⟩ := check_bind_eq_ok.mp h
      obtain ⟨_, _, h⟩ := bind_eq_ok.mp h
      cases h
    · cases h

/-! ## Calls -/

section Calls

variable [Keccak]

/-- A call of `walkNode`: its arguments, and how many calls are open, itself included. -/
structure WalkCall where
  fuel : Nat
  encoded : Bytes
  path : List Nibble
  found : Walked
  depth : Nat

inductive Resolves (store : NodeStore) (found : Walked) : ChildReference → Bytes → Walked → Prop
  | embedded (encoded : Bytes) : Resolves store found (.embedded encoded) encoded found
  | hash {hash : B256} {encoded : Bytes} : hash ∉ found.visited →
      loadHashed store hash = .ok encoded → Resolves store found (.hash hash) encoded
        { found with visited := found.visited.insert hash }

inductive Enters (store : NodeStore) : WalkCall → WalkCall → Prop
  | extension {fuel depth : Nat} {encoded below : Bytes} {path extension : List Nibble}
      {found found' : Walked} {child : ChildReference} :
      decodeNode encoded = .ok (.extension extension child) →
      Resolves store found child below found' →
      Enters store ⟨fuel + 1, encoded, path, found, depth⟩
        ⟨fuel, below, path ++ extension, found', depth + 1⟩
  | branch {fuel depth i : Nat} {encoded below : Bytes} {path : List Nibble}
      {found before found' : Walked} {children : List (Option ChildReference)}
      {child : ChildReference} :
      decodeNode encoded = .ok (.branch children) → path.length < SECURE_KEY_NIBBLES →
      walkChildren (walkChild (walkNode store fuel) store) path 0 (children.take i) found
        = .ok before →
      children[i]? = some (some child) → Resolves store before child below found' →
      Enters store ⟨fuel + 1, encoded, path, found, depth⟩
        ⟨fuel, below, path ++ [BitVec.ofNat 4 i], found', depth + 1⟩

/-- The first call of `collectLeaves`. -/
def rootCall (store : NodeStore) (root : B256) (encoded : Bytes) : WalkCall :=
  ⟨32 * (store.size + 2), encoded, [], ⟨∅, (∅ : BTreeSet B256).insert root⟩, 1⟩

def Traverses (store : NodeStore) (root : B256) (call : WalkCall) : Prop :=
  root ≠ EMPTY_ROOT_HASH ∧ ∃ encoded, loadHashed store root = .ok encoded ∧
    Relation.ReflTransGen (Enters store) (rootCall store root encoded) call

variable {store : NodeStore} {root : B256} {call next : WalkCall}

/-! ## Paths -/

theorem Enters.deeper (h : Enters store call next) :
    next.depth = call.depth + 1 ∧ call.path.length + 1 ≤ next.path.length := by
  cases h with
  | extension hnode =>
    have hpath := length_pos_of_ne_nil (extension_nonempty hnode)
    refine ⟨rfl, ?_⟩
    rw [length_append]
    exact Nat.add_le_add_left hpath _
  | branch => exact ⟨rfl, by simp⟩

theorem Traverses.depth_le (h : Traverses store root call) : call.depth ≤ call.path.length + 1 := by
  obtain ⟨_, _, _, h⟩ := h
  induction h with
  | refl => exact Nat.le_refl 1
  | tail _ henters ih =>
    obtain ⟨hdepth, hpath⟩ := henters.deeper
    omega

theorem Traverses.enters (h : Traverses store root call) (henters : Enters store call next) :
    Traverses store root next := by
  obtain ⟨hroot, encoded, hloaded, h⟩ := h
  exact ⟨hroot, encoded, hloaded, h.tail henters⟩

/-! ## Fuel -/

def Walked.Within (found found' : Walked) : Prop := ∀ hash ∈ found.visited, hash ∈ found'.visited

omit [Keccak] in
theorem walkChildren_within
    {walk : ChildReference → List Nibble → Walked → Except StateError Walked}
    (hwalk : ∀ child path found found', walk child path found = .ok found' → found.Within found')
    {path : List Nibble} {children : List (Option ChildReference)} :
    ∀ {nibble : Nat} {found found' : Walked},
      walkChildren walk path nibble children found = .ok found' → found.Within found' := by
  induction children with
  | nil =>
    intro nibble found found' h
    cases h
    exact fun _ hmem => hmem
  | cons child rest ih =>
    intro nibble found found' h
    cases child with
    | none => exact ih h
    | some child =>
      obtain ⟨middle, hfirst, hrest⟩ := bind_eq_ok.mp h
      exact fun hash hmem => ih hrest hash (hwalk _ _ _ _ hfirst hash hmem)

theorem walkChild_within {walk : Bytes → List Nibble → Walked → Except StateError Walked}
    (hwalk : ∀ encoded path found found', walk encoded path found = .ok found' →
      found.Within found')
    {child : ChildReference} {path : List Nibble} {found found' : Walked}
    (h : walkChild walk store child path found = .ok found') : found.Within found' := by
  cases child with
  | embedded encoded => exact hwalk encoded path found found' h
  | hash hash =>
    unfold walkChild at h
    dsimp only at h
    split at h
    · cases h
    · obtain ⟨encoded, _, h⟩ := bind_eq_ok.mp h
      exact fun other hmem => hwalk _ _ _ _ h other (Std.ExtTreeSet.mem_insert.mpr (.inr hmem))

/-- A walk forgets no hash it has followed. -/
theorem walkNode_within (fuel : Nat) :
    ∀ (encoded : Bytes) (path : List Nibble) (found found' : Walked),
    walkNode store fuel encoded path found = .ok found' → found.Within found' := by
  induction fuel with
  | zero =>
    intro encoded path found found' h
    cases h
  | succ fuel ih =>
    intro encoded path found found' h
    obtain ⟨node, _, h⟩ := bind_eq_ok.mp h
    cases node with
    | leaf suffix value =>
      obtain ⟨key, _, h⟩ := bind_eq_ok.mp h
      split at h
      · cases h
      · cases h
        exact fun _ hmem => hmem
    | extension extension child => exact walkChild_within ih h
    | branch children =>
      dsimp only at h
      split at h
      · cases h
      · exact walkChildren_within (fun _ _ _ _ => walkChild_within ih) h

/-- How many hashes of the store can still be followed. -/
def unvisited (store : NodeStore) (found : Walked) : Nat :=
  ((Tally.keySet store).filter (· ∉ found.visited)).card

/-- What is left to a call: hashes to follow, and below each the embedded nodes. -/
def WalkCall.weight (store : NodeStore) (call : WalkCall) : Nat :=
  32 * unvisited store call.found + min call.encoded.length 32

omit [Keccak] in
theorem unvisited_le {found found' : Walked} (h : found.Within found') :
    unvisited store found' ≤ unvisited store found :=
  Finset.card_le_card (Finset.monotone_filter_right _ fun hash _ hnew hold => hnew (h hash hold))

theorem Resolves.weight_lt {found found' : Walked} {child : ChildReference} {encoded below : Bytes}
    {node : DecodedNode} (hnode : decodeNode encoded = .ok node) (hchild : child ∈ node.children)
    (h : Resolves store found child below found') :
    32 * unvisited store found' + min below.length 32
      < 32 * unvisited store found + min encoded.length 32 := by
  have hlength := decodeNode_nonempty hnode
  cases h with
  | embedded =>
    have hshort := length_of_embedded hnode hchild
    omega
  | @hash hash _ hnew hloaded =>
    have hfewer : unvisited store { found with visited := found.visited.insert hash }
        < unvisited store found := by
      refine Finset.card_lt_card (Finset.ssubset_iff_of_subset ?_ |>.mpr ⟨hash, ?_, ?_⟩)
      · exact Finset.monotone_filter_right _ fun other _ hother hold =>
          hother (Std.ExtTreeSet.mem_insert.mpr (.inr hold))
      · refine Finset.mem_filter.mpr ⟨Tally.mem_keySet.mpr ?_, hnew⟩
        exact OrdMap.mem_iff_exists.mpr ⟨below, (loadHashed_eq_ok_iff.mp hloaded).1⟩
      · exact fun hmem => (Finset.mem_filter.mp hmem).2
          (Std.ExtTreeSet.mem_insert.mpr (.inl Std.ReflCmp.compare_self))
    omega

theorem Enters.weight_lt (h : Enters store call next) : next.weight store < call.weight store := by
  cases h with
  | extension hnode hresolves => exact hresolves.weight_lt hnode (mem_singleton.mpr rfl)
  | branch hnode _ hwalked hchild hresolves =>
    have hwithin := walkChildren_within (fun _ _ _ _ => walkChild_within (walkNode_within _))
        hwalked
    have hbefore : unvisited store _ ≤ unvisited store _ := unvisited_le hwithin
    have hlt := hresolves.weight_lt hnode
      (mem_filterMap.mpr ⟨_, mem_of_getElem? hchild, rfl⟩)
    exact hlt.trans_le (Nat.add_le_add_right (Nat.mul_le_mul_left 32 hbefore) _)

theorem Traverses.fuel_pos (h : Traverses store root call) : call.weight store < call.fuel := by
  obtain ⟨_, encoded, _, h⟩ := h
  induction h with
  | refl =>
    have hle : unvisited store (rootCall store root encoded).found ≤ store.size := by
      rw [← Tally.card_keySet]
      exact Finset.card_filter_le _ _
    change 32 * unvisited store _ + min encoded.length 32 < 32 * (store.size + 2)
    omega
  | tail _ henters ih =>
    have hlt := henters.weight_lt
    have hfuel : ∀ {call next : WalkCall}, Enters store call next → call.fuel = next.fuel + 1 := by
      intro call next h
      cases h <;> rfl
    rw [hfuel henters] at ih
    omega

/-! ## The bound -/

/-- Paths are within the key on entry, and no more than 65 calls are open. -/
def Bounded (store : NodeStore) (root : B256) : Prop :=
  ∀ call, Traverses store root call → call.path.length ≤ SECURE_KEY_NIBBLES ∧
    call.depth ≤ SECURE_KEY_NIBBLES + 1

/-! ## The references in order -/

/-- A reference below a root, with the nibbles that lead to it. -/
structure Spot where
  path : List Nibble
  ref : ChildReference

def Spot.hash (spot : Spot) : Option B256 :=
  match spot.ref with
  | .hash hash => some hash
  | .embedded _ => none

/-- The node a reference stands for. -/
def Spot.node (store : NodeStore) (spot : Spot) : Except StateError DecodedNode :=
  resolveChild store spot.ref >>= decodeNode

/-- The key and value of a leaf. -/
def Spot.leaf (store : NodeStore) (spot : Spot) : Option (B256 × Bytes) :=
  match spot.node store with
  | .ok (.leaf suffix value) => (packNibbles (spot.path ++ suffix)).toOption.map (·, value)
  | _ => none

def Spot.key (store : NodeStore) (spot : Spot) : Option B256 := (spot.leaf store).map (·.1)

/-- A node that is stored and well formed, a branch within the key or a leaf at its end. -/
def Spot.good (store : NodeStore) (spot : Spot) : Bool :=
  match spot.node store with
  | .ok (.leaf suffix _) => (spot.path ++ suffix).length = SECURE_KEY_NIBBLES
  | .ok (.extension _ _) => true
  | .ok (.branch _) => spot.path.length < SECURE_KEY_NIBBLES
  | .error _ => false

def spotsOf (below : List Nibble → ChildReference → List Spot) (path : List Nibble) :
    Nat → List (Option ChildReference) → List Spot
  | _, [] => []
  | nibble, none :: rest => spotsOf below path (nibble + 1) rest
  | nibble, some child :: rest =>
    below (path ++ [BitVec.ofNat 4 nibble]) child ++ spotsOf below path (nibble + 1) rest

/-- The references below a node. -/
def spotsIn (below : List Nibble → ChildReference → List Spot) (path : List Nibble) :
    DecodedNode → List Spot
  | .leaf _ _ => []
  | .extension extension child => below (path ++ extension) child
  | .branch children => spotsOf below path 0 children

/-- The references below one, itself first, to a depth. -/
def spotsBelow (store : NodeStore) : Nat → List Nibble → ChildReference → List Spot
  | 0, path, ref => [⟨path, ref⟩]
  | n + 1, path, ref => ⟨path, ref⟩ ::
    match Spot.node store ⟨path, ref⟩ with
    | .ok node => spotsIn (spotsBelow store n) path node
    | .error _ => []

/-- The references below a root in the order of their keys. -/
def spots (store : NodeStore) (root : B256) : List Spot :=
  spotsBelow store (32 * (store.size + 2)) [] (.hash root)

/-- References that do not have a trie rejected. -/
def Sound (store : NodeStore) (spots : List Spot) : Prop :=
  (spots.all (Spot.good store) = true ∧ (spots.filterMap Spot.hash).Nodup) ∧
    (spots.filterMap (Spot.key store)).Nodup

instance (store : NodeStore) (spots : List Spot) : Decidable (Sound store spots) :=
  inferInstanceAs (Decidable (_ ∧ _))

/-- A reference leads out of the key to a stored node, and nothing before it has the trie
rejected. -/
structure LeadsOut (store : NodeStore) (root : B256) (before : List Spot) (spot : Spot)
    (after : List Spot) : Prop where
  nonempty : root ≠ EMPTY_ROOT_HASH
  listed : spots store root = before ++ spot :: after
  sound : Sound store before
  fresh : ∀ hash, spot.hash = some hash → hash ∉ before.filterMap Spot.hash
  stored : ∃ encoded, resolveChild store spot.ref = .ok encoded
  long : SECURE_KEY_NIBBLES < spot.path.length

/-! ## Visits -/

/-- What `walkNode` does at one node, apart from its children. -/
def visitNode (encoded : Bytes) (path : List Nibble) (found : Walked) :
    Except StateError Walked := do
  match ← decodeNode encoded with
  | .leaf suffix value => do
    let key ← packNibbles (path ++ suffix)
    if key ∈ found.leaves then throw (.invalidPath "duplicate leaf")
    else return { found with leaves := found.leaves.insert key value }
  | .extension _ _ => return found
  | .branch _ =>
    if SECURE_KEY_NIBBLES ≤ path.length then throw (.invalidPath "branch depth") else return found

def visit (store : NodeStore) (found : Walked) (spot : Spot) : Except StateError Walked :=
  walkChild visitNode store spot.ref spot.path found

variable {found found' : Walked} {ref : ChildReference} {path : List Nibble} {n : Nat}

theorem Resolves.resolveChild_eq (h : Resolves store found ref encoded found') :
    resolveChild store ref = .ok encoded := by
  cases h with
  | embedded => rfl
  | hash _ hloaded => exact hloaded

theorem walkChild_eq_ok {walk : Bytes → List Nibble → Walked → Except StateError Walked} :
    walkChild walk store ref path found = .ok found' ↔ ∃ encoded entered,
      Resolves store found ref encoded entered ∧ walk encoded path entered = .ok found' := by
  cases ref with
  | embedded encoded =>
    refine ⟨fun h => ⟨encoded, found, .embedded encoded, h⟩, ?_⟩
    rintro ⟨_, _, hresolves, h⟩
    cases hresolves
    exact h
  | hash hash =>
    unfold walkChild
    dsimp only
    split
    · rename_i hmem
      refine ⟨fun h => (nomatch h), ?_⟩
      rintro ⟨_, _, hresolves, _⟩
      cases hresolves with
      | hash hnew => exact absurd hmem hnew
    · rename_i hnew
      rw [bind_eq_ok]
      constructor
      · rintro ⟨encoded, hloaded, h⟩
        exact ⟨encoded, _, .hash hnew hloaded, h⟩
      · rintro ⟨encoded, _, hresolves, h⟩
        cases hresolves with
        | hash _ hloaded => exact ⟨encoded, hloaded, h⟩

theorem spotsBelow_succ {node : DecodedNode} (hresolves : Resolves store found ref encoded found')
    (hnode : decodeNode encoded = .ok node) : spotsBelow store (n + 1) path ref
      = ⟨path, ref⟩ :: spotsIn (spotsBelow store n) path node := by
  rw [spotsBelow, Spot.node, hresolves.resolveChild_eq, ok_bind, hnode]

/-- Fuel for whatever a reference resolves to. -/
def Fuelled (store : NodeStore) (n : Nat) (found : Walked) (ref : ChildReference) : Prop :=
  ∀ encoded entered, Resolves store found ref encoded entered →
    32 * unvisited store entered + min encoded.length 32 < n

theorem fuelled_of_node {node : DecodedNode} (hnode : decodeNode encoded = .ok node)
    (hfuel : 32 * unvisited store found + min encoded.length 32 < n + 1) {child : ChildReference}
    (hchild : child ∈ node.children) {later : Walked} (hlater : found.Within later) :
    Fuelled store n later child := by
  intro below entered hresolves
  have hlt := hresolves.weight_lt hnode hchild
  have hle : unvisited store later ≤ unvisited store found := unvisited_le hlater
  omega

theorem foldlM_spotsOf (hwalk : ∀ {ref path found found'}, Fuelled store n found ref →
      ((spotsBelow store n path ref).foldlM (visit store) found = .ok found' ↔
        walkChild (walkNode store n) store ref path found = .ok found'))
    {children : List (Option ChildReference)} : ∀ {nibble : Nat} {found : Walked},
      (∀ child, some child ∈ children → ∀ later, found.Within later →
        Fuelled store n later child) →
      ((spotsOf (spotsBelow store n) path nibble children).foldlM (visit store) found = .ok found' ↔
        walkChildren (walkChild (walkNode store n) store) path nibble children found
          = .ok found') := by
  induction children with
  | nil => exact fun _ => Iff.rfl
  | cons child rest ih =>
    intro nibble found hfuel
    cases child with
    | none => exact ih fun child hmem => hfuel child (mem_cons_of_mem _ hmem)
    | some child =>
      rw [spotsOf, foldlM_append, walkChildren, bind_eq_ok, bind_eq_ok]
      refine exists_congr fun middle => ?_
      rw [hwalk (hfuel child mem_cons_self found fun _ h => h)]
      refine and_congr_right fun hwalked => ih fun child hmem later hlater => ?_
      have hwithin := walkChild_within (walkNode_within _) hwalked
      exact hfuel child (mem_cons_of_mem _ hmem) later fun hash h => hlater hash (hwithin hash h)

/-- **A walk visits the references below in order.** -/
theorem foldlM_spotsBelow (n : Nat) : ∀ {ref : ChildReference} {path : List Nibble}
    {found found' : Walked}, Fuelled store n found ref →
      ((spotsBelow store n path ref).foldlM (visit store) found = .ok found' ↔
        walkChild (walkNode store n) store ref path found = .ok found') := by
  induction n with
  | zero =>
    intro ref path found found' hfuel
    have hnone : ∀ encoded entered, ¬Resolves store found ref encoded entered :=
      fun encoded entered h => Nat.not_lt_zero _ (hfuel encoded entered h)
    rw [spotsBelow, foldlM_cons, bind_eq_ok, walkChild_eq_ok]
    simp only [visit, walkChild_eq_ok, hnone, false_and, exists_false]
  | succ n ih =>
    intro ref path found found' hfuel
    -- what is left to show once the reference is resolved
    have hstep : ∀ {encoded entered}, Resolves store found ref encoded entered →
        ((∃ next, visitNode encoded path entered = .ok next ∧
            (spotsBelow store (n + 1) path ref).tail.foldlM (visit store) next = .ok found') ↔
          walkNode store (n + 1) encoded path entered = .ok found') := by
      intro encoded entered hresolves
      have hless := hfuel encoded entered hresolves
      rw [visitNode, walkNode]
      cases hnode : decodeNode encoded with
      | error e => simp
      | ok node =>
        rw [spotsBelow_succ hresolves hnode, ok_bind, ok_bind, tail_cons]
        cases node with
        | leaf suffix value =>
          refine ⟨?_, fun h => ⟨found', h, rfl⟩⟩
          rintro ⟨next, hnext, heq⟩
          cases heq
          exact hnext
        | extension extension child =>
          have hchild := @ih child (path ++ extension) entered found'
            (fuelled_of_node hnode hless (mem_singleton.mpr rfl) fun _ h => h)
          refine ⟨?_, fun h => ⟨entered, rfl, hchild.mpr h⟩⟩
          rintro ⟨next, hnext, h⟩
          cases hnext
          exact hchild.mp h
        | branch children =>
          have hchildren := @foldlM_spotsOf _ store found' path n ih children 0 entered
            fun child hmem later hlater => fuelled_of_node hnode hless
              (mem_filterMap.mpr ⟨some child, hmem, rfl⟩) hlater
          dsimp only
          split
          · constructor
            · rintro ⟨_, h, _⟩
              cases h
            · intro h
              cases h
          · refine ⟨?_, fun h => ⟨entered, rfl, hchildren.mpr h⟩⟩
            rintro ⟨next, hnext, h⟩
            cases hnext
            exact hchildren.mp h
    have hcons : spotsBelow store (n + 1) path ref
        = ⟨path, ref⟩ :: (spotsBelow store (n + 1) path ref).tail := by
      rw [spotsBelow, tail_cons]
    rw [hcons, foldlM_cons, bind_eq_ok, walkChild_eq_ok]
    constructor
    · rintro ⟨next, hvisit, h⟩
      obtain ⟨encoded, entered, hresolves, hnext⟩ := walkChild_eq_ok.mp hvisit
      exact ⟨encoded, entered, hresolves, (hstep hresolves).mp ⟨next, hnext, h⟩⟩
    · rintro ⟨encoded, entered, hresolves, h⟩
      obtain ⟨next, hnext, h⟩ := (hstep hresolves).mpr h
      exact ⟨next, walkChild_eq_ok.mpr ⟨encoded, entered, hresolves, hnext⟩, h⟩

/-- What one visit needs, and what it leaves. -/
theorem visit_eq_ok_iff {spot : Spot} : visit store found spot = .ok found' ↔
    spot.good store = true ∧ (∀ hash, spot.hash = some hash → hash ∉ found.visited) ∧
      (∀ leaf, spot.leaf store = some leaf → leaf.1 ∉ found.leaves) ∧
      found' = ⟨(spot.leaf store).elim found.leaves fun leaf => found.leaves.insert leaf.1 leaf.2,
        spot.hash.elim found.visited found.visited.insert⟩ := by
  have hnode : ∀ {encoded} (visited : BTreeSet B256), resolveChild store spot.ref = .ok encoded →
      (visitNode encoded spot.path ⟨found.leaves, visited⟩ = .ok found' ↔
        spot.good store = true ∧ (∀ leaf, spot.leaf store = some leaf → leaf.1 ∉ found.leaves) ∧
          found' = ⟨(spot.leaf store).elim found.leaves fun leaf =>
            found.leaves.insert leaf.1 leaf.2, visited⟩) := by
    intro encoded visited hload
    have hspot : spot.node store = decodeNode encoded := by rw [Spot.node, hload, ok_bind]
    rw [visitNode, Spot.good, Spot.leaf, hspot]
    cases decodeNode encoded with
    | error e => simp
    | ok node =>
      rw [ok_bind]
      cases node with
      | leaf suffix value =>
        by_cases hlength : (spot.path ++ suffix).length = SECURE_KEY_NIBBLES
        · have hpack : packNibbles (spot.path ++ suffix)
              = .ok (ofBytes 256 (Nibbles.pack (spot.path ++ suffix))) := by
            rw [packNibbles, rejectIf_neg (not_not.mpr hlength)]
            rfl
          by_cases hmem : ofBytes 256 (Nibbles.pack (spot.path ++ suffix)) ∈ found.leaves
          · simp [hpack, hlength, hmem, Except.toOption]
          · simp [hpack, hlength, hmem, Except.toOption, eq_comm]
        · have hpack : packNibbles (spot.path ++ suffix)
              = .error (.invalidPath "leaf is not a full secure key") := by
            rw [packNibbles, rejectIf, if_pos hlength]
            rfl
          simp only [decide_eq_false hlength]
          simp [hpack]
      | extension extension child => simp [eq_comm]
      | branch children =>
        by_cases hpath : SECURE_KEY_NIBBLES ≤ spot.path.length
        · simp [hpath]
        · simp [hpath, not_le.mp hpath, eq_comm]
  rw [visit, walkChild_eq_ok]
  obtain ⟨path, ref⟩ := spot
  cases ref with
  | embedded encoded =>
    constructor
    · rintro ⟨_, _, hresolves, h⟩
      cases hresolves
      obtain ⟨hgood, hleaf, heq⟩ := (hnode _ rfl).mp h
      refine ⟨hgood, fun _ h => ?_, hleaf, heq⟩
      cases h
    · rintro ⟨hgood, _, hleaf, heq⟩
      exact ⟨encoded, found, .embedded encoded, (hnode _ rfl).mpr ⟨hgood, hleaf, heq⟩⟩
  | hash hash =>
    constructor
    · rintro ⟨encoded, entered, hresolves, h⟩
      have hload := hresolves.resolveChild_eq
      cases hresolves with
      | hash hnew =>
        obtain ⟨hgood, hleaf, heq⟩ := (hnode _ hload).mp h
        refine ⟨hgood, fun other h => ?_, hleaf, heq⟩
        cases h
        exact hnew
    · rintro ⟨hgood, hnew, hleaf, heq⟩
      cases hload : loadHashed store hash with
      | error e =>
        have hbad : (Spot.mk path (.hash hash)).node store = .error e := by
          rw [Spot.node, resolveChild, hload]
          rfl
        rw [Spot.good, hbad] at hgood
        cases hgood
      | ok encoded =>
        exact ⟨encoded, _, .hash (hnew hash rfl) hload, (hnode _ hload).mpr ⟨hgood, hleaf, heq⟩⟩

omit [Keccak] in
/-- Values that are new one by one: the first is, and the others are with the first. -/
theorem fresh_cons {α β : Type} {f : α → Option β} {a : α} {l : List α} {S T : β → Prop}
    (hT : ∀ b, T b ↔ S b ∨ f a = some b) :
    (((a :: l).filterMap f).Nodup ∧ ∀ b ∈ (a :: l).filterMap f, ¬S b) ↔
      (∀ b, f a = some b → ¬S b) ∧ (l.filterMap f).Nodup ∧ ∀ b ∈ l.filterMap f, ¬T b := by
  simp only [hT]
  rw [filterMap_cons]
  cases f a with
  | none => simp
  | some b =>
    simp only [nodup_cons, mem_cons, forall_eq_or_imp, Option.some.injEq, forall_eq', not_or]
    constructor
    · rintro ⟨⟨hnew, hnodup⟩, hb, hall⟩
      exact ⟨hb, hnodup, fun c hc => ⟨hall c hc, fun heq => hnew (heq ▸ hc)⟩⟩
    · rintro ⟨hb, hnodup, hall⟩
      exact ⟨⟨fun hmem => (hall b hmem).2 rfl, hnodup⟩, hb, fun c hc => (hall c hc).1⟩

theorem foldlM_visit_iff (spots : List Spot) : ∀ {found : Walked},
    (∃ last, spots.foldlM (visit store) found = .ok last) ↔ spots.all (Spot.good store) = true ∧
      ((spots.filterMap Spot.hash).Nodup ∧
        ∀ hash ∈ spots.filterMap Spot.hash, ¬hash ∈ found.visited) ∧
      (spots.filterMap (Spot.key store)).Nodup ∧
        ∀ key ∈ spots.filterMap (Spot.key store), ¬key ∈ found.leaves := by
  induction spots with
  | nil => intro found; simp
  | cons spot rest ih =>
    intro found
    have hvisited : ∀ hash, hash ∈ spot.hash.elim found.visited found.visited.insert ↔
        hash ∈ found.visited ∨ spot.hash = some hash := by
      intro hash
      cases spot.hash with
      | none => simp
      | some own => simp [Std.ExtTreeSet.mem_insert, or_comm]
    have hleaves : ∀ key, key ∈ (spot.leaf store).elim found.leaves (fun leaf =>
          found.leaves.insert leaf.1 leaf.2) ↔
        key ∈ found.leaves ∨ spot.key store = some key := by
      intro key
      rw [Spot.key]
      cases spot.leaf store with
      | none => simp
      | some leaf => simp [Std.ExtTreeMap.mem_insert, or_comm]
    rw [fresh_cons hvisited, fresh_cons hleaves, all_cons, Bool.and_eq_true, foldlM_cons]
    constructor
    · rintro ⟨last, h⟩
      obtain ⟨next, hvisit, hrest⟩ := bind_eq_ok.mp h
      obtain ⟨hgood, hhash, hleaf, rfl⟩ := visit_eq_ok_iff.mp hvisit
      obtain ⟨hall, hhashes, hkeys⟩ := ih.mp ⟨last, hrest⟩
      refine ⟨⟨hgood, hall⟩, ⟨hhash, hhashes⟩, fun key hkey => ?_, hkeys⟩
      obtain ⟨leaf, hspot, rfl⟩ := Option.map_eq_some_iff.mp hkey
      exact hleaf leaf hspot
    · rintro ⟨⟨hgood, hall⟩, ⟨hhash, hhashes⟩, hleaf, hkeys⟩
      obtain ⟨last, hrest⟩ := (@ih ⟨_, _⟩).mpr ⟨hall, hhashes, hkeys⟩
      refine ⟨last, bind_eq_ok.mpr ⟨_, visit_eq_ok_iff.mpr ⟨hgood, hhash, fun leaf hspot => ?_,
        rfl⟩, hrest⟩⟩
      exact hleaf leaf.1 (Option.map_eq_some_iff.mpr ⟨leaf, hspot, rfl⟩)

theorem visited_of_foldlM {spots : List Spot} : ∀ {found last : Walked},
    spots.foldlM (visit store) found = .ok last → ∀ hash, hash ∈ last.visited ↔
      hash ∈ found.visited ∨ hash ∈ spots.filterMap Spot.hash := by
  induction spots with
  | nil =>
    intro found last h hash
    cases h
    simp
  | cons spot rest ih =>
    intro found last h hash
    rw [foldlM_cons] at h
    obtain ⟨next, hvisit, hrest⟩ := bind_eq_ok.mp h
    obtain ⟨_, _, _, rfl⟩ := visit_eq_ok_iff.mp hvisit
    rw [ih hrest, filterMap_cons]
    cases spot.hash with
    | none => rfl
    | some own =>
      rw [mem_cons, ← or_assoc, or_comm (b := hash = own)]
      refine or_congr_left (Std.ExtTreeSet.mem_insert.trans (or_congr_left ?_))
      rw [Std.LawfulEqCmp.compare_eq_iff_eq, eq_comm]

/-! ## Calls and references -/

section Children

variable {below : List Nibble → ChildReference → List Spot}

omit [Keccak] in
theorem spotsOf_split {spot : Spot} {after : List Spot} {children : List (Option ChildReference)} :
    ∀ {nibble : Nat} {before : List Spot},
      spotsOf below path nibble children = before ++ spot :: after →
      ∃ i child rest, children[i]? = some (some child) ∧
        before = spotsOf below path nibble (children.take i) ++ rest ∧
        ∃ after', below (path ++ [BitVec.ofNat 4 (nibble + i)]) child = rest ++ spot :: after' := by
  induction children with
  | nil =>
    intro nibble before h
    exact absurd h.symm (by simp [spotsOf])
  | cons child children ih =>
    intro nibble before h
    have hlater : ∀ {rest : List Spot},
        spotsOf below path (nibble + 1) children = rest ++ spot :: after →
        ∃ i found rest', children[i]? = some (some found) ∧
          rest = spotsOf below path (nibble + 1) (children.take i) ++ rest' ∧
          ∃ after', below (path ++ [BitVec.ofNat 4 (nibble + (i + 1))]) found
            = rest' ++ spot :: after' := by
      intro rest hrest
      obtain ⟨i, found, rest', hchild, hbefore, hbelow⟩ := ih hrest
      rw [Nat.add_right_comm] at hbelow
      exact ⟨i, found, rest', hchild, hbefore, hbelow⟩
    cases child with
    | none =>
      obtain ⟨i, found, rest, hchild, hbefore, hbelow⟩ := hlater h
      exact ⟨i + 1, found, rest, hchild, hbefore, hbelow⟩
    | some child =>
      rw [spotsOf] at h
      rcases append_eq_append_iff.mp h with ⟨rest, hbefore, htail⟩ | ⟨rest, hbelow, htail⟩
      · obtain ⟨i, found, rest', hchild, hrest, hbelow⟩ := hlater htail
        refine ⟨i + 1, found, rest', hchild, ?_, hbelow⟩
        rw [hbefore, hrest, take_succ_cons, spotsOf, append_assoc]
      · cases rest with
        | nil =>
          obtain ⟨i, found, rest', hchild, hrest, hbelow'⟩ := @hlater [] htail.symm
          refine ⟨i + 1, found, rest', hchild, ?_, hbelow'⟩
          rw [append_nil] at hbelow
          rw [take_succ_cons, spotsOf, append_assoc, ← hrest, append_nil, hbelow]
        | cons first rest =>
          obtain ⟨rfl, -⟩ := cons_eq_cons.mp htail
          exact ⟨0, child, before, rfl, rfl, rest, hbelow⟩

omit [Keccak] in
theorem spotsOf_at {i : Nat} {child : ChildReference} {children : List (Option ChildReference)} :
    ∀ {nibble : Nat}, children[i]? = some (some child) →
      ∃ after, spotsOf below path nibble children
        = spotsOf below path nibble (children.take i)
          ++ below (path ++ [BitVec.ofNat 4 (nibble + i)]) child ++ after := by
  induction children generalizing i with
  | nil =>
    intro nibble h
    cases h
  | cons first children ih =>
    intro nibble h
    cases i with
    | zero =>
      cases h
      exact ⟨_, rfl⟩
    | succ i =>
      obtain ⟨after, hafter⟩ := @ih i (nibble + 1) h
      rw [Nat.add_right_comm, Nat.add_assoc] at hafter
      refine ⟨after, ?_⟩
      cases first with
      | none => exact hafter
      | some first =>
        rw [take_succ_cons, spotsOf, spotsOf, hafter]
        simp only [append_assoc]

end Children

/-- The children of a branch before one, visited and walked. -/
theorem Traverses.foldlM_take {depth i : Nat} {children : List (Option ChildReference)}
    {found' : Walked} (h : Traverses store root ⟨n + 1, encoded, path, found, depth⟩)
    (hnode : decodeNode encoded = .ok (.branch children)) :
    (spotsOf (spotsBelow store n) path 0 (children.take i)).foldlM (visit store) found
        = .ok found' ↔
      walkChildren (walkChild (walkNode store n) store) path 0 (children.take i) found
        = .ok found' :=
  foldlM_spotsOf (foldlM_spotsBelow n) fun child hmem _ hlater =>
    fuelled_of_node hnode h.fuel_pos
      (mem_filterMap.mpr ⟨some child, mem_of_mem_take hmem, rfl⟩) hlater

theorem foldlM_snoc {before : List Spot} {start : Walked}
    (hfold : before.foldlM (visit store) start = .ok found)
    (hresolves : Resolves store found ref encoded found')
    (hvisit : visitNode encoded path found' = .ok found') :
    (before ++ [Spot.mk path ref]).foldlM (visit store) start = .ok found' := by
  rw [foldlM_append, hfold, ok_bind, foldlM_cons]
  exact bind_eq_ok.mpr ⟨found', walkChild_eq_ok.mpr ⟨encoded, found', hresolves, hvisit⟩, rfl⟩

/-- Every call is for a reference below the root, after visits of all the references before. -/
theorem Traverses.listed (h : Traverses store root call) : ∃ before after found ref,
    spots store root = before ++ spotsBelow store call.fuel call.path ref ++ after ∧
      before.foldlM (visit store) ⟨∅, ∅⟩ = .ok found ∧
      Resolves store found ref call.encoded call.found := by
  obtain ⟨hroot, encoded, hloaded, h⟩ := h
  induction h with
  | refl =>
    exact ⟨[], [], ⟨∅, ∅⟩, .hash root, by simp [spots, rootCall], rfl,
      .hash Std.ExtTreeSet.not_mem_empty hloaded⟩
  | tail hcalls henters ih =>
    obtain ⟨before, after, earlier, ref, hspots, hfold, hresolves⟩ := ih
    have hcall : Traverses store root _ := ⟨hroot, encoded, hloaded, hcalls⟩
    cases henters with
    | @extension fuel _ node _ path extension _ _ child hnode hbelow =>
      refine ⟨before ++ [⟨path, ref⟩], after, _, child, ?_, foldlM_snoc hfold hresolves ?_, hbelow⟩
      · rw [hspots, spotsBelow_succ hresolves hnode, spotsIn]
        simp only [append_assoc, cons_append, nil_append]
      · rw [visitNode, hnode]
        rfl
    | @branch fuel _ i node _ path _ middle _ children child hnode hpath hwalked hchild hbelow =>
      obtain ⟨later, hlater⟩ := @spotsOf_at path (spotsBelow store fuel) i child children 0 hchild
      refine ⟨before ++ [⟨path, ref⟩] ++ spotsOf (spotsBelow store fuel) path 0 (children.take i),
        later ++ after, middle, child, ?_, ?_, hbelow⟩
      · rw [hspots, spotsBelow_succ hresolves hnode, spotsIn, hlater, Nat.zero_add]
        simp only [append_assoc, cons_append, nil_append]
      · rw [foldlM_append, foldlM_snoc hfold hresolves ?_, ok_bind]
        · exact (hcall.foldlM_take hnode).mpr hwalked
        · rw [visitNode, hnode, ok_bind]
          exact if_neg (Nat.not_le_of_lt hpath)

theorem traverses_of_spot {spot : Spot} (n : Nat) : ∀ {path : List Nibble} {ref : ChildReference}
    {found entered : Walked} {before after : List Spot}, (∀ encoded entered,
      Resolves store found ref encoded entered →
        ∃ depth, Traverses store root ⟨n, encoded, path, entered, depth⟩) →
    spotsBelow store n path ref = before ++ spot :: after →
    before.foldlM (visit store) found = .ok entered →
    (∃ encoded found', Resolves store entered spot.ref encoded found') →
    ∃ call, Traverses store root call ∧ call.path = spot.path := by
  induction n with
  | zero =>
    intro path ref found entered before after hcalls hlist hfold hstored
    cases before with
    | nil =>
      cases hlist
      cases hfold
      obtain ⟨encoded, found', hresolves⟩ := hstored
      obtain ⟨depth, hcall⟩ := hcalls encoded found' hresolves
      exact ⟨_, hcall, rfl⟩
    | cons first rest => exact absurd hlist (by simp [spotsBelow])
  | succ n ih =>
    intro path ref found entered before after hcalls hlist hfold hstored
    cases before with
    | nil =>
      rw [spotsBelow] at hlist
      cases hlist
      cases hfold
      obtain ⟨encoded, found', hresolves⟩ := hstored
      obtain ⟨depth, hcall⟩ := hcalls encoded found' hresolves
      exact ⟨_, hcall, rfl⟩
    | cons first rest =>
      have hfirst : first = ⟨path, ref⟩ := by
        rw [spotsBelow] at hlist
        exact (cons_eq_cons.mp hlist).1.symm
      subst hfirst
      rw [foldlM_cons] at hfold
      obtain ⟨next, hvisit, hfold⟩ := bind_eq_ok.mp hfold
      obtain ⟨encoded, found', hresolves, hvisit⟩ := walkChild_eq_ok.mp hvisit
      obtain ⟨depth, hcall⟩ := hcalls encoded found' hresolves
      obtain ⟨node, hnode, hvisit⟩ := bind_eq_ok.mp hvisit
      rw [spotsBelow_succ hresolves hnode] at hlist
      have hlist := (cons_eq_cons.mp hlist).2
      cases node with
      | leaf => exact absurd hlist (by simp [spotsIn])
      | extension extension child =>
        cases hvisit
        exact ih (fun below later hbelow => ⟨depth + 1, hcall.enters (.extension hnode hbelow)⟩)
          hlist hfold hstored
      | branch children =>
        dsimp only at hvisit
        split at hvisit
        · cases hvisit
        · rename_i hpath
          cases hvisit
          obtain ⟨i, child, rest', hchild, rfl, after', hbelow⟩ := spotsOf_split hlist
          rw [foldlM_append] at hfold
          obtain ⟨middle, hmiddle, hfold⟩ := bind_eq_ok.mp hfold
          rw [Nat.zero_add] at hbelow
          refine ih (fun below later hresolves => ⟨depth + 1, hcall.enters ?_⟩) hbelow hfold hstored
          exact .branch hnode (Nat.lt_of_not_le hpath) ((hcall.foldlM_take hnode).mp hmiddle) hchild
            hresolves

/-- A reference that leads out of the key is followed. -/
theorem LeadsOut.not_bounded {before after : List Spot} {spot : Spot}
    (h : LeadsOut store root before spot after) : ¬Bounded store root := by
  intro hbounded
  obtain ⟨⟨hgood, hhashes⟩, hkeys⟩ := h.sound
  obtain ⟨found, hfold⟩ := (@foldlM_visit_iff _ store before ⟨∅, ∅⟩).mpr ⟨hgood,
    ⟨hhashes, fun _ _ => Std.ExtTreeSet.not_mem_empty⟩, hkeys,
    fun _ _ => Std.ExtTreeMap.not_mem_empty⟩
  obtain ⟨encoded, hstored⟩ := h.stored
  have hresolves : ∃ entered, Resolves store found spot.ref encoded entered := by
    have hfresh := h.fresh
    rw [Spot.hash] at hfresh
    cases hspot : spot.ref with
    | embedded bytes =>
      rw [hspot] at hstored
      cases hstored
      exact ⟨found, .embedded encoded⟩
    | hash hash =>
      rw [hspot] at hstored hfresh
      refine ⟨_, .hash (fun hmem => ?_) hstored⟩
      rcases (visited_of_foldlM hfold hash).mp hmem with hmem | hmem
      · exact Std.ExtTreeSet.not_mem_empty hmem
      · exact hfresh hash rfl hmem
  obtain ⟨entered, hresolves⟩ := hresolves
  obtain ⟨call, hcall, hpath⟩ := traverses_of_spot _ (fun bytes later hroot => by
    cases hroot with
    | hash _ hloaded => exact ⟨1, h.nonempty, bytes, hloaded, .refl⟩) h.listed hfold
    ⟨encoded, entered, hresolves⟩
  have hle := (hbounded call hcall).1
  rw [hpath] at hle
  exact absurd h.long (Nat.not_lt_of_le hle)

/-- **Traversal is bounded exactly when no reference leads out of the key**, and its fuel never
runs out. -/
theorem traversal_bounded_iff (store : NodeStore) (root : B256) :
    (Bounded store root ↔ ∀ before spot after, ¬LeadsOut store root before spot after) ∧
      ∀ call, Traverses store root call → 0 < call.fuel := by
  refine ⟨⟨fun hbounded before spot after h => h.not_bounded hbounded, fun hnone call hcall => ?_⟩,
    fun call hcall => Nat.zero_lt_of_lt hcall.fuel_pos⟩
  have hpath : call.path.length ≤ SECURE_KEY_NIBBLES := by
    by_contra hlong
    obtain ⟨before, after, found, ref, hlist, hfold, hresolves⟩ := hcall.listed
    obtain ⟨hgood, ⟨hhashes, _⟩, hkeys, _⟩ := (foldlM_visit_iff before).mp ⟨found, hfold⟩
    have hcons : spotsBelow store call.fuel call.path ref
        = ⟨call.path, ref⟩ :: (spotsBelow store call.fuel call.path ref).tail := by
      cases call.fuel <;> rw [spotsBelow, tail_cons]
    rw [hcons, append_assoc, cons_append] at hlist
    refine hnone before ⟨call.path, ref⟩ _ ⟨hcall.1, hlist, ⟨⟨hgood, hhashes⟩, hkeys⟩,
      fun hash hhash hmem => ?_, ⟨_, hresolves.resolveChild_eq⟩, Nat.lt_of_not_le hlong⟩
    have hvisited := (visited_of_foldlM hfold hash).mpr (.inr hmem)
    generalize call.found = entered at hresolves
    cases hresolves with
    | embedded => cases hhash
    | hash hnew =>
      cases hhash
      exact hnew hvisited
  exact ⟨hpath, hcall.depth_le.trans (Nat.succ_le_succ hpath)⟩

/-! ## A chain of extensions -/

/-- A chain of extensions of one nibble each, and the store that has it. -/
def extensionChain : Nat → Bytes × NodeStore
  | 0 => ([], (∅ : NodeStore).insert (keccak256 []) [])
  | n + 1 =>
    let below := extensionChain n
    let encoded := encodeItems
      [.bytes (compactEncode [0] false), .bytes (toBytes (keccak256 below.1))]
    (encoded, below.2.insert (keccak256 encoded) encoded)

end Calls

section Sample

attribute [local instance] rollingKeccak

/-- Whether the reference at a position of the list leads out of the key. -/
def leadsOutAt (store : NodeStore) (root : B256) (i : Nat) : Bool :=
  let before := (spots store root).take i
  match (spots store root).drop i with
  | [] => false
  | spot :: _ => root ≠ EMPTY_ROOT_HASH && Sound store before &&
    spot.hash.all (· ∉ before.filterMap Spot.hash) &&
    (resolveChild store spot.ref).toOption.isSome && SECURE_KEY_NIBBLES < spot.path.length

theorem leadsOut_of_leadsOutAt {store : NodeStore} {root : B256} {i : Nat}
    (h : leadsOutAt store root i = true) :
    ∃ before spot after, LeadsOut store root before spot after := by
  unfold leadsOutAt at h
  dsimp only at h
  split at h
  · cases h
  · rename_i spot after hdrop
    simp only [Bool.and_eq_true, decide_eq_true_eq] at h
    obtain ⟨⟨⟨⟨hroot, hsound⟩, hfresh⟩, hstored⟩, hlong⟩ := h
    refine ⟨(spots store root).take i, spot, after, hroot, ?_, hsound, fun hash hhash => ?_, ?_,
      hlong⟩
    · rw [← hdrop, take_append_drop]
    · rw [hhash] at hfresh
      exact of_decide_eq_true hfresh
    · cases hload : resolveChild store spot.ref with
      | error e => rw [hload] at hstored; cases hstored
      | ok encoded => exact ⟨encoded, rfl⟩

/-- Extensions of one nibble each are followed through the whole key. -/
theorem traversal_bounded_iff_chain : ∃ store root, Bounded store root ∧
    ∃ call, Traverses store root call ∧ 0 < call.fuel := by
  let chain := extensionChain 64
  have hshort : ((spots chain.2 (keccak256 chain.1)).all fun spot =>
      spot.path.length ≤ SECURE_KEY_NIBBLES) = true := by decide +kernel
  have hroot : keccak256 chain.1 ≠ EMPTY_ROOT_HASH := by decide +kernel
  have hstored : chain.2[keccak256 chain.1]? = some chain.1 := by decide +kernel
  have hcall : Traverses chain.2 (keccak256 chain.1)
      (rootCall chain.2 (keccak256 chain.1) chain.1) :=
    ⟨hroot, chain.1, loadHashed_eq_ok_iff.mpr ⟨hstored, rfl⟩, .refl⟩
  obtain ⟨hbounded, hfuel⟩ := traversal_bounded_iff chain.2 (keccak256 chain.1)
  refine ⟨chain.2, keccak256 chain.1, hbounded.mpr fun before spot after h => ?_, _, hcall,
    hfuel _ hcall⟩
  have hmem : spot ∈ spots chain.2 (keccak256 chain.1) := by
    rw [h.listed]
    exact mem_append_right _ mem_cons_self
  exact absurd h.long (Nat.not_lt_of_le (of_decide_eq_true (all_eq_true.mp hshort spot hmem)))

/-- Data with consistent hashes may nest the calls as deep as it is long. -/
theorem extensionChain_unbounded : ∃ store root, ¬Bounded store root := by
  have hchain : leadsOutAt (extensionChain 65).2 (keccak256 (extensionChain 65).1) 65 = true := by
    decide +kernel
  obtain ⟨before, spot, after, h⟩ := leadsOut_of_leadsOutAt hchain
  exact ⟨_, _, h.not_bounded⟩

end Sample

end Trie

end Arbor
