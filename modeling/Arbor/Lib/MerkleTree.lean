import Mathlib.Data.Set.Function
import Mathlib.Data.Nat.Bitwise

/-!
# Perfect binary Merkle trees over numbered leaves

A perfect tree of height `h` has `2 ^ h` leaves.  The node at depth `d` with index
`i` covers the leaves whose number starts with `i`; its children are the nodes
`2 * i` and `2 * i + 1` one level down.  A node's digest is the hash of a preimage
built from its depth and its children's digests, so a tree is given by the digests
of its leaves alone.

An *opening* of leaf `k` lists the digests of the siblings along the way from the
root to `k`; climbing it from a claimed leaf digest rebuilds a root.

* `climb_siblings`: the siblings read off a tree rebuild that tree's root;
* `climb_sound`: an opening that rebuilds the root carries the real leaf digest;
* `root_binding`: equal roots have equal leaves.

The last two need the hash to be injective on the preimages of the nodes involved,
which `nodePreimages` and `climbPreimages` list: no hash into a fixed-size digest
is injective on all preimages.
-/

namespace MerkleTree

variable {D P : Type*} (hash : P → D) (preimage : Nat → D → D → P)

/-- Digest of the node with index `i` at depth `d`, `h` levels above the leaves. -/
def root (leaf : Nat → D) : (h d i : Nat) → D
  | 0, _, i => leaf i
  | h + 1, d, i =>
    hash (preimage d (root leaf h (d + 1) (2 * i)) (root leaf h (d + 1) (2 * i + 1)))

/-- The digests beside the way from node `i` down to leaf `k`, nearest the node first. -/
def siblings (leaf : Nat → D) (k : Nat) : (h d : Nat) → List D
  | 0, _ => []
  | h + 1, d =>
    root hash preimage leaf h (d + 1) (2 * (k / 2 ^ (h + 1)) + (!k.testBit h).toNat)
      :: siblings leaf k h (d + 1)

/-- The digest an opening of leaf `k` rebuilds at depth `d`. -/
def climb (k : Nat) (digest : D) : (d : Nat) → List D → D
  | _, [] => digest
  | d, sibling :: rest =>
    if k.testBit rest.length then hash (preimage d sibling (climb k digest (d + 1) rest))
    else hash (preimage d (climb k digest (d + 1) rest) sibling)

/-- The preimages hashed in the subtree of node `i`. -/
def nodePreimages (leaf : Nat → D) : (h d i : Nat) → Set P
  | 0, _, _ => ∅
  | h + 1, d, i =>
    insert
      (preimage d (root hash preimage leaf h (d + 1) (2 * i))
        (root hash preimage leaf h (d + 1) (2 * i + 1)))
      (nodePreimages leaf h (d + 1) (2 * i) ∪ nodePreimages leaf h (d + 1) (2 * i + 1))

/-- The preimages hashed when an opening is climbed. -/
def climbPreimages (k : Nat) (digest : D) : (d : Nat) → List D → Set P
  | _, [] => ∅
  | d, sibling :: rest =>
    insert
      (if k.testBit rest.length then preimage d sibling (climb hash preimage k digest (d + 1) rest)
       else preimage d (climb hash preimage k digest (d + 1) rest) sibling)
      (climbPreimages k digest (d + 1) rest)

theorem div_two_pow_eq (k h : Nat) : k / 2 ^ h = 2 * (k / 2 ^ (h + 1)) + (k.testBit h).toNat := by
  have hdiv : k / 2 ^ (h + 1) = k / 2 ^ h / 2 := by rw [pow_succ, Nat.div_div_eq_div_mul]
  have hbit : (k.testBit h).toNat = k / 2 ^ h % 2 := Nat.toNat_testBit k h
  omega

/-- A node's digest depends only on the leaves it covers. -/
theorem root_congr {leaf leaf' : Nat → D} {h d i : Nat}
    (hleaf : ∀ k, k / 2 ^ h = i → leaf k = leaf' k) :
    root hash preimage leaf h d i = root hash preimage leaf' h d i := by
  induction h generalizing d i with
  | zero => exact hleaf i (by simp)
  | succ h ih =>
    have hbelow : ∀ k, ∀ j, j / 2 = i → k / 2 ^ h = j → leaf k = leaf' k := by
      intro k j hj hk
      apply hleaf
      rw [pow_succ, ← Nat.div_div_eq_div_mul, hk, hj]
    simp only [root]
    rw [ih (fun k => hbelow k (2 * i) (by omega)), ih (fun k => hbelow k (2 * i + 1) (by omega))]

theorem siblings_congr {leaf leaf' : Nat → D} {k h d : Nat}
    (hleaf : ∀ j, j / 2 ^ h = k / 2 ^ h → leaf j = leaf' j) :
    siblings hash preimage leaf k h d = siblings hash preimage leaf' k h d := by
  induction h generalizing d with
  | zero => rfl
  | succ h ih =>
    have hbelow : ∀ j, j / 2 ^ h / 2 = k / 2 ^ h / 2 → leaf j = leaf' j := by
      intro j hj
      apply hleaf
      rw [pow_succ, ← Nat.div_div_eq_div_mul, ← Nat.div_div_eq_div_mul, hj]
    simp only [siblings]
    congr 1
    · refine root_congr hash preimage fun j hj => hbelow j ?_
      have hsib := div_two_pow_eq k h
      cases hb : k.testBit h <;> rw [hb] at hj hsib <;> simp at hj hsib <;> omega
    · exact ih fun j hj => hbelow j (by rw [hj])

variable (leaf : Nat → D)

@[simp] theorem length_siblings (k h d : Nat) : (siblings hash preimage leaf k h d).length = h := by
  induction h generalizing d with
  | zero => rfl
  | succ h ih => simp [siblings, ih]

/-- **Completeness.**  A tree's own siblings rebuild its root. -/
theorem climb_siblings (k h d : Nat) :
    climb hash preimage k (leaf k) d (siblings hash preimage leaf k h d)
      = root hash preimage leaf h d (k / 2 ^ h) := by
  induction h generalizing d with
  | zero => simp [siblings, climb, root]
  | succ h ih =>
    have hchild := div_two_pow_eq k h
    simp only [siblings, climb, length_siblings, root, ih]
    cases hbit : k.testBit h <;> simp [hchild, hbit]

theorem climbPreimages_siblings_subset (k h d : Nat) :
    climbPreimages hash preimage k (leaf k) d (siblings hash preimage leaf k h d)
      ⊆ nodePreimages hash preimage leaf h d (k / 2 ^ h) := by
  induction h generalizing d with
  | zero => exact Set.empty_subset _
  | succ h ih =>
    have hchild := div_two_pow_eq k h
    have hbelow := ih (d + 1)
    simp only [siblings, climbPreimages, length_siblings, nodePreimages, climb_siblings]
    rw [hchild] at hbelow ⊢
    cases hbit : k.testBit h <;> rw [hbit] at hbelow
    · refine Set.insert_subset (.inl (by simp)) fun x hx => .inr (.inl (hbelow hx))
    · refine Set.insert_subset (.inl (by simp)) fun x hx => .inr (.inr (hbelow hx))

/-- What is hashed below a node is a pair of digests at some depth. -/
theorem mem_nodePreimages {leaf : Nat → D} {x : P} {h d i : Nat}
    (hx : x ∈ nodePreimages hash preimage leaf h d i) :
    ∃ e j, d ≤ e ∧ e < d + h ∧ x = preimage e
      (root hash preimage leaf (d + h - (e + 1)) (e + 1) (2 * j))
      (root hash preimage leaf (d + h - (e + 1)) (e + 1) (2 * j + 1)) := by
  induction h generalizing d i with
  | zero => cases hx
  | succ h ih =>
    have hbelow : ∀ {i}, x ∈ nodePreimages hash preimage leaf h (d + 1) i → ∃ e j, d ≤ e ∧
        e < d + (h + 1) ∧ x = preimage e
          (root hash preimage leaf (d + (h + 1) - (e + 1)) (e + 1) (2 * j))
          (root hash preimage leaf (d + (h + 1) - (e + 1)) (e + 1) (2 * j + 1)) := by
      intro i hx
      obtain ⟨e, j, hle, hlt, hx⟩ := ih hx
      rw [Nat.add_right_comm d 1 h] at hlt hx
      exact ⟨e, j, by omega, hlt, hx⟩
    rcases hx with rfl | hx | hx
    · refine ⟨d, i, le_rfl, by omega, ?_⟩
      rw [show d + (h + 1) - (d + 1) = h by omega]
    · exact hbelow hx
    · exact hbelow hx

section

variable (hpre : ∀ d l r l' r', preimage d l r = preimage d l' r' → l = l' ∧ r = r')
include hpre

/-- **Soundness of openings.**  If the digest rebuilt from an opening of leaf `k` is
the digest of the node above `k`, the opening started from the leaf's own digest. -/
theorem climb_sound
    (leaf : Nat → D) (k : Nat) (digest : D) (opening : List D) (d : Nat) (hinj : Set.InjOn hash
      (nodePreimages hash preimage leaf opening.length d (k / 2 ^ opening.length) ∪
        climbPreimages hash preimage k digest d opening))
    (hroot : climb hash preimage k digest d opening
      = root hash preimage leaf opening.length d (k / 2 ^ opening.length)) : digest = leaf k := by
  -- Peel the opening from the root: one hash equality per level moves to the child over `k`.
  induction opening generalizing d with
  | nil => simpa [climb, root] using hroot
  | cons sibling rest ih =>
    have hchild := div_two_pow_eq k rest.length
    rw [List.length_cons] at hroot hinj
    simp only [nodePreimages, climbPreimages] at hinj
    simp only [climb, root] at hroot
    -- The two sides of this level, with the child over `k` singled out.
    have hlevel : climb hash preimage k digest (d + 1) rest
        = root hash preimage leaf rest.length (d + 1) (k / 2 ^ rest.length) := by
      cases hbit : k.testBit rest.length
      · rw [hbit] at hroot hinj
        have := hinj (by simp) (by simp) hroot
        rw [hchild, hbit]
        exact (hpre _ _ _ _ _ this).1
      · rw [hbit] at hroot hinj
        have := hinj (by simp) (by simp) hroot
        rw [hchild, hbit]
        exact (hpre _ _ _ _ _ this).2
    refine ih (d + 1) (hinj.mono ?_) hlevel
    rw [hchild]
    cases k.testBit rest.length
    · exact Set.union_subset_union (fun x hx => .inr (.inl hx)) (Set.subset_insert _ _)
    · exact Set.union_subset_union (fun x hx => .inr (.inr hx)) (Set.subset_insert _ _)

/-- **Binding.**  Two trees with the same root agree on every leaf. -/
theorem root_binding (leaf leaf' : Nat → D) (h d i : Nat) (hinj : Set.InjOn hash
      (nodePreimages hash preimage leaf h d i ∪ nodePreimages hash preimage leaf' h d i))
    (hroot : root hash preimage leaf h d i = root hash preimage leaf' h d i)
    (k : Nat) (hk : k / 2 ^ h = i) : leaf k = leaf' k := by
  induction h generalizing d i with
  | zero =>
    subst hk
    simpa [root] using hroot
  | succ h ih =>
    simp only [nodePreimages] at hinj
    obtain ⟨hleft, hright⟩ := hpre _ _ _ _ _ (hinj (by simp) (by simp) hroot)
    have hchild := div_two_pow_eq k h
    rw [hk] at hchild
    cases hbit : k.testBit h
    · refine ih (d + 1) (2 * i) (hinj.mono ?_) hleft (by rw [hchild, hbit]; rfl)
      exact Set.union_subset_union (fun x hx => .inr (.inl hx)) (fun x hx => .inr (.inl hx))
    · refine ih (d + 1) (2 * i + 1) (hinj.mono ?_) hright (by rw [hchild, hbit]; rfl)
      exact Set.union_subset_union (fun x hx => .inr (.inr hx)) (fun x hx => .inr (.inr hx))

end

end MerkleTree
