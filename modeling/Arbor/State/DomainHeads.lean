import Arbor.State.Error
import Arbor.Lib.MerkleTree
import Arbor.Lib.Slice
import Arbor.Lib.Result

/-!
# The sparse Merkle commitment to domain heads

Every consensus header commits to the finalized head of each domain by the root of a
256-level binary tree.  A domain's place in the tree is the hash of its identifier;
an occupied leaf hashes the place and the head, an empty leaf a fixed tag.  The code
never builds the tree: it sorts the occupied places and splits the sorted list level
by level, and it reads the digest of an empty subtree from a table.

The first half of this module is that code.  The second half shows that it computes
the perfect Merkle tree over all `2 ^ 256` places (`subtreeRoot_eq_root`), so that
completeness and soundness of openings and binding of the root come from the general
theory of such trees.
-/

namespace Arbor

/-- Finalized domain head committed by the global sparse Merkle map. -/
structure DomainHead where
  domainBlockHash : B256
  stateRoot : B256
  deriving DecidableEq

/-- Fixed-depth domain-head membership or non-membership proof. -/
structure DomainHeadProof where
  root : B256
  domainId : DomainId
  /-- Head value for membership; `none` proves non-membership. -/
  value : Option DomainHead
  /-- Sibling hashes ordered from root depth zero to leaf depth 255. -/
  siblings : List B256
  deriving DecidableEq

/-- Deterministic 256-level sparse Merkle commitment for all active domain heads. -/
structure DomainHeadsCommitment where
  heads : BTreeMap B256 (DomainId × DomainHead)

namespace DomainHeads

variable {levels i : Nat}

def KEY_TAG : Bytes := ascii "ARBOR_DOMAIN_HEAD_KEY_V1"
def VALUE_TAG : Bytes := ascii "ARBOR_DOMAIN_HEAD_VALUE_V1"
def LEAF_TAG : Bytes := ascii "ARBOR_SMT_LEAF_V1"
def BRANCH_TAG : Bytes := ascii "ARBOR_SMT_BRANCH_V1"
def SMT_DEPTH : Nat := 256

/-! ## The preimages and their hashes -/

def keyPreimage (domainId : DomainId) : Bytes := KEY_TAG ++ toBytes domainId

def valuePreimage (head : DomainHead) : Bytes :=
  VALUE_TAG ++ toBytes head.domainBlockHash ++ toBytes head.stateRoot

def leafPreimage (key value : B256) : Bytes :=
  LEAF_TAG ++ [1] ++ toBytes key ++ toBytes value

def emptyLeafPreimage : Bytes := LEAF_TAG ++ [0]

/-- The depth is written as a 16-bit number. -/
def branchPreimage (depth : Nat) (left right : B256) : Bytes :=
  BRANCH_TAG ++ toBytes (BitVec.ofNat 16 depth) ++ toBytes left ++ toBytes right

theorem branchPreimage_inj (depth : Nat) (l r l' r' : B256)
    (h : branchPreimage depth l r = branchPreimage depth l' r') : l = l' ∧ r = r' := by
  simp only [branchPreimage, List.append_assoc, List.append_cancel_left_eq] at h
  obtain ⟨hl, hr⟩ := toBytes_append_inj (by decide) h
  exact ⟨hl, toBytes_injective (by decide) hr⟩

theorem leafPreimage_inj {k v k' v' : B256} (h : leafPreimage k v = leafPreimage k' v') :
    k = k' ∧ v = v' := by
  simp only [leafPreimage, List.append_assoc, List.append_cancel_left_eq] at h
  obtain ⟨hk, hv⟩ := toBytes_append_inj (by decide) h
  exact ⟨hk, toBytes_injective (by decide) hv⟩

theorem leafPreimage_ne_empty (k v : B256) : leafPreimage k v ≠ emptyLeafPreimage := by
  intro h
  simp only [leafPreimage, emptyLeafPreimage, List.append_assoc, List.append_cancel_left_eq] at h
  simp at h

theorem valuePreimage_inj {a b : DomainHead} (h : valuePreimage a = valuePreimage b) : a = b := by
  simp only [valuePreimage, List.append_assoc, List.append_cancel_left_eq] at h
  obtain ⟨hblock, hstate⟩ := toBytes_append_inj (by decide) h
  have hroot := toBytes_injective (by decide : 8 ∣ 256) hstate
  cases a
  cases b
  simp_all

theorem keyPreimage_inj {a b : DomainId} (h : keyPreimage a = keyPreimage b) : a = b := by
  simp only [keyPreimage, List.append_cancel_left_eq] at h
  exact toBytes_injective (by decide) h

/-! ## Ranges of keys that share a node -/

/-- Bit `depth` of a key, counted from the most significant bit of its first byte. -/
def bit (key : B256) (depth : Nat) : Byte :=
  (byteAt key (depth / 8) >>> (7 - depth % 8)) &&& 1

/-- A key's bits are the binary digits of its number. -/
theorem bit_eq_testBit (key : B256) {depth : Nat} (hdepth : depth < SMT_DEPTH) :
    bit key depth = if key.toNat.testBit (255 - depth) then 1 else 0 := by
  have hlt : depth < 256 := hdepth
  have hbyte : byteAt key (depth / 8) = BitVec.ofNat 8 (key.toNat / 256 ^ (31 - depth / 8)) := by
    unfold byteAt toBytes
    rw [BigEndian.getElem?_beBytes _ (by omega)]
    rfl
  have hshift : (byteAt key (depth / 8)).toNat.testBit (7 - depth % 8)
      = key.toNat.testBit (255 - depth) := by
    have hin : 7 - depth % 8 < 8 := by omega
    have hpos : 7 - depth % 8 + 8 * (31 - depth / 8) = 255 - depth := by omega
    rw [hbyte, BitVec.toNat_ofNat, Nat.testBit_mod_two_pow, BigEndian.pow_256,
      Nat.testBit_div_two_pow]
    simp [hin, hpos]
  have hlow : (bit key depth).toNat
      = ((byteAt key (depth / 8)).toNat.testBit (7 - depth % 8)).toNat := by
    rw [Nat.toNat_testBit, ← Nat.shiftRight_eq_div_pow]
    exact Nat.and_one_is_mod _
  apply BitVec.eq_of_toNat_eq
  rw [hlow, hshift]
  cases key.toNat.testBit (255 - depth) <;> rfl

theorem bit_eq_zero_iff (key : B256) (hlevels : levels < SMT_DEPTH) :
    bit key (SMT_DEPTH - (levels + 1)) = 0 ↔ key.toNat.testBit levels = false := by
  have hlt : levels < 256 := hlevels
  have hpos : 255 - (SMT_DEPTH - (levels + 1)) = levels := by
    show 255 - (256 - (levels + 1)) = levels
    omega
  rw [bit_eq_testBit key (by show 256 - (levels + 1) < 256; omega), hpos]
  cases key.toNat.testBit levels <;> decide

/-- A range of the sorted entries: the part of them below one node, `levels` above the
leaves and with index `i`. -/
structure Range (levels i : Nat) (entries : List (B256 × B256)) : Prop where
  sorted : entries.Pairwise fun a b => a.1.toNat < b.1.toNat
  below : ∀ e ∈ entries, e.1.toNat / 2 ^ levels = i

/-- Whether an entry goes left, `levels` above the leaves. -/
def goesLeft (levels : Nat) (entry : B256 × B256) : Bool :=
  bit entry.1 (SMT_DEPTH - (levels + 1)) == 0

theorem goesLeft_eq (entry : B256 × B256) (hlevels : levels < SMT_DEPTH) :
    goesLeft levels entry = !entry.1.toNat.testBit levels := by
  have h := bit_eq_zero_iff entry.1 hlevels
  unfold goesLeft
  cases hb : entry.1.toNat.testBit levels <;> simp [hb] at h ⊢ <;> exact h

variable {entries : List (B256 × B256)}

/-- The left part of a range is the range of the left child. -/
theorem Range.left (hlevels : levels < SMT_DEPTH) (h : Range (levels + 1) i entries) :
    Range levels (2 * i) (entries.takeWhile (goesLeft levels)) := by
  refine ⟨h.sorted.sublist (List.takeWhile_sublist _), fun e he => ?_⟩
  have hbit : e.1.toNat.testBit levels = false := by
    have := List.mem_takeWhile_imp he
    rw [goesLeft_eq e hlevels] at this
    simpa using this
  have hnode := h.below e ((List.takeWhile_sublist _).subset he)
  rw [MerkleTree.div_two_pow_eq, hnode, hbit]
  rfl

theorem Range.right (hlevels : levels < SMT_DEPTH) (h : Range (levels + 1) i entries) :
    Range levels (2 * i + 1) (entries.dropWhile (goesLeft levels)) := by
  have hpart : entries.Pairwise fun a b => goesLeft levels b = true → goesLeft levels a = true := by
    refine (List.Pairwise.and_mem.mp h.sorted).imp ?_
    rintro a b ⟨ha, hb, hlt⟩
    have hna := MerkleTree.div_two_pow_eq a.1.toNat levels
    have hnb := MerkleTree.div_two_pow_eq b.1.toNat levels
    rw [h.below a ha] at hna
    rw [h.below b hb] at hnb
    have hle : a.1.toNat / 2 ^ levels ≤ b.1.toNat / 2 ^ levels := Nat.div_le_div_right hlt.le
    rw [goesLeft_eq a hlevels, goesLeft_eq b hlevels]
    cases hta : a.1.toNat.testBit levels <;> cases htb : b.1.toNat.testBit levels <;>
      simp [hta, htb] at hna hnb ⊢
    omega
  refine ⟨h.sorted.sublist (List.dropWhile_sublist _), fun e he => ?_⟩
  have hbit : e.1.toNat.testBit levels = true := by
    have := not_of_mem_dropWhile hpart he
    rw [goesLeft_eq e hlevels] at this
    simpa using this
  have hnode := h.below e ((List.dropWhile_sublist _).subset he)
  rw [MerkleTree.div_two_pow_eq, hnode, hbit]
  rfl

theorem Range.find?_eq_none {range : List (B256 × B256)} {j k : Nat} (h : Range levels j range)
    (hij : i ≠ j) (hk : k / 2 ^ levels = i) : range.find? (fun e => e.1.toNat == k) = none := by
  rw [List.find?_eq_none]
  intro e he hek
  have hplace : e.1.toNat = k := by simpa using hek
  exact hij (by rw [← hk, ← hplace, h.below e he])

variable [Keccak]

def domainHeadKey (domainId : DomainId) : B256 := keccak256 (keyPreimage domainId)

def domainHeadValue (head : DomainHead) : B256 := keccak256 (valuePreimage head)

def leafHash (key value : B256) : B256 := keccak256 (leafPreimage key value)

def branchHash (depth : Nat) (left right : B256) : B256 :=
  keccak256 (branchPreimage depth left right)

/-- Digest of an empty subtree `levels` above the leaves. -/
def emptyHash : (levels : Nat) → B256
  | 0 => keccak256 emptyLeafPreimage
  | levels + 1 => branchHash (SMT_DEPTH - (levels + 1)) (emptyHash levels) (emptyHash levels)

/-- The source's table of empty subtrees, indexed by depth. -/
def emptyHashes (depth : Nat) : B256 := emptyHash (SMT_DEPTH - depth)

/-! ## The commitment -/

/-- Digest of the subtree holding `entries`, at depth `SMT_DEPTH - levels`. -/
def subtreeRoot (empties : Nat → B256) : (levels : Nat) → List (B256 × B256) → B256
  | levels, [] => empties (SMT_DEPTH - levels)
  | 0, entry :: _ => entry.2
  | levels + 1, entry :: rest =>
    let entries := entry :: rest
    let depth := SMT_DEPTH - (levels + 1)
    let split := partitionPoint (fun entry => bit entry.1 depth == 0) entries
    branchHash depth
      (subtreeRoot empties levels (entries.take split))
      (subtreeRoot empties levels (entries.drop split))

/-- The siblings pushed while the range holding `target` is narrowed level by level. -/
def proofSiblings (empties : Nat → B256) (target : B256) :
    (levels : Nat) → List (B256 × B256) → List B256
  | 0, _ => []
  | levels + 1, range =>
    let depth := SMT_DEPTH - (levels + 1)
    let split := partitionPoint (fun entry => bit entry.1 depth == 0) range
    let left := range.take split
    let right := range.drop split
    if bit target depth = 0 then
      subtreeRoot empties levels right :: proofSiblings empties target levels left
    else
      subtreeRoot empties levels left :: proofSiblings empties target levels right

/-- The hash a proof's siblings lead to from a leaf hash; the source runs this loop
from depth 255 down to the given depth. -/
def climbPath (key leaf : B256) : (depth : Nat) → List B256 → B256
  | _, [] => leaf
  | depth, sibling :: rest =>
    let hash := climbPath key leaf (depth + 1) rest
    if bit key depth = 0 then branchHash depth hash sibling
    else branchHash depth sibling hash

end DomainHeads

open DomainHeads Result MerkleTree

variable [Keccak]

def DomainHeadProof.verify (p : DomainHeadProof) : Except StateError Unit := do
  rejectIf (p.siblings.length ≠ SMT_DEPTH) (.invalidPath "domain-head proof depth")
  let key := domainHeadKey p.domainId
  let leaf := match p.value with
    | some value => leafHash key (domainHeadValue value)
    | none => emptyHashes SMT_DEPTH
  rejectIf (climbPath key leaf 0 p.siblings ≠ p.root) (.proof "domain-head root mismatch")

namespace DomainHeadsCommitment

def new : DomainHeadsCommitment := ⟨∅⟩

def insert (c : DomainHeadsCommitment) (domainId : DomainId) (head : DomainHead) :
    DomainHeadsCommitment :=
  ⟨c.heads.insert (domainHeadKey domainId) (domainId, head)⟩

def remove (c : DomainHeadsCommitment) (domainId : DomainId) :
    Option DomainHead × DomainHeadsCommitment :=
  (c.heads[domainHeadKey domainId]?.map Prod.snd, ⟨c.heads.erase (domainHeadKey domainId)⟩)

def entries (c : DomainHeadsCommitment) : List (B256 × B256) :=
  c.heads.toList.map fun (key, _, head) => (key, leafHash key (domainHeadValue head))

def root (c : DomainHeadsCommitment) : B256 := subtreeRoot emptyHashes SMT_DEPTH c.entries

def proof (c : DomainHeadsCommitment) (domainId : DomainId) : DomainHeadProof where
  root := c.root
  domainId := domainId
  value := c.heads[domainHeadKey domainId]?.map Prod.snd
  siblings := proofSiblings emptyHashes (domainHeadKey domainId) SMT_DEPTH c.entries

end DomainHeadsCommitment

namespace DomainHeads

variable {levels i : Nat} {range : List (B256 × B256)}

/-! ## The tree the code computes -/

/-- The digest at each place of the tree that holds `entries`. -/
def leafOf (entries : List (B256 × B256)) (k : Nat) : B256 :=
  match entries.find? (fun e => e.1.toNat == k) with
  | some e => e.2
  | none => keccak256 emptyLeafPreimage

/-- Digest of a node of the perfect tree over all places. -/
abbrev treeRoot (leaf : Nat → B256) (levels i : Nat) : B256 :=
  MerkleTree.root keccak256 branchPreimage leaf levels (SMT_DEPTH - levels) i

theorem treeRoot_succ (leaf : Nat → B256) (hlevels : levels < SMT_DEPTH) (i : Nat) :
    treeRoot leaf (levels + 1) i
      = branchHash (SMT_DEPTH - (levels + 1)) (treeRoot leaf levels (2 * i))
          (treeRoot leaf levels (2 * i + 1)) := by
  have hdepth : SMT_DEPTH - (levels + 1) + 1 = SMT_DEPTH - levels := by
    omega
  simp only [treeRoot, root, hdepth, branchHash]

theorem emptyHash_eq_treeRoot (hlevels : levels ≤ SMT_DEPTH) (i : Nat) :
    emptyHash levels = treeRoot (leafOf []) levels i := by
  induction levels generalizing i with
  | zero => rfl
  | succ levels ih =>
    rw [treeRoot_succ _ hlevels, emptyHash, ← ih (by omega), ← ih (by omega)]

theorem leafOf_append_left {left right : List (B256 × B256)} {j k : Nat}
    (hright : Range levels j right) (hij : i ≠ j) (hk : k / 2 ^ levels = i) :
    leafOf (left ++ right) k = leafOf left k := by
  simp [leafOf, List.find?_append, hright.find?_eq_none hij hk]

theorem leafOf_append_right {left right : List (B256 × B256)} {j k : Nat}
    (hleft : Range levels j left) (hij : i ≠ j) (hk : k / 2 ^ levels = i) :
    leafOf (left ++ right) k = leafOf right k := by
  simp [leafOf, List.find?_append, hleft.find?_eq_none hij hk]

theorem leafOf_split (hlevels : levels < SMT_DEPTH) (h : Range (levels + 1) i range) (k : Nat) :
    (k / 2 ^ levels = 2 * i →
      leafOf range k = leafOf (range.takeWhile (goesLeft levels)) k) ∧ (k / 2 ^ levels = 2 * i + 1 →
      leafOf range k = leafOf (range.dropWhile (goesLeft levels)) k) := by
  have hsplit := List.takeWhile_append_dropWhile (p := goesLeft levels) (l := range)
  constructor
  · intro hk
    conv_lhs => rw [← hsplit]
    exact leafOf_append_left (h.right hlevels) (by omega) hk
  · intro hk
    conv_lhs => rw [← hsplit]
    exact leafOf_append_right (h.left hlevels) (by omega) hk

theorem treeRoot_split (hlevels : levels < SMT_DEPTH) (h : Range (levels + 1) i range) :
    treeRoot (leafOf range) levels (2 * i)
        = treeRoot (leafOf (range.takeWhile (goesLeft levels))) levels (2 * i) ∧
      treeRoot (leafOf range) levels (2 * i + 1)
        = treeRoot (leafOf (range.dropWhile (goesLeft levels))) levels (2 * i + 1) :=
  ⟨root_congr _ _ fun k => (leafOf_split hlevels h k).1,
    root_congr _ _ fun k => (leafOf_split hlevels h k).2⟩

/-- **The split sorted list computes the perfect tree.**  Splitting the sorted entries
level by level and reading empty subtrees from the table gives the root of the tree
over all places. -/
theorem subtreeRoot_eq_root (hlevels : levels ≤ SMT_DEPTH) (h : Range levels i range) :
    subtreeRoot emptyHashes levels range = treeRoot (leafOf range) levels i := by
  induction levels generalizing range i with
  | zero =>
    cases range with
    | nil => rfl
    | cons entry rest =>
      have hplace : entry.1.toNat = i := by simpa using h.below entry (by simp)
      simp [subtreeRoot, treeRoot, root, leafOf, hplace]
  | succ levels ih =>
    have hlt : levels < SMT_DEPTH := hlevels
    cases range with
    | nil =>
      have hdepth : SMT_DEPTH - (SMT_DEPTH - (levels + 1)) = levels + 1 := by
        have : levels < 256 := hlt
        omega
      rw [subtreeRoot, emptyHashes, hdepth, emptyHash_eq_treeRoot hlevels i]
    | cons entry rest =>
      obtain ⟨hl, hr⟩ := treeRoot_split hlt h
      rw [treeRoot_succ _ hlt, hl, hr, ← ih hlt.le (h.left hlt), ← ih hlt.le (h.right hlt)]
      simp only [subtreeRoot, take_partitionPoint, drop_partitionPoint]
      rfl

theorem proofSiblings_eq_siblings {target : B256} (hlevels : levels ≤ SMT_DEPTH)
    (h : Range levels (target.toNat / 2 ^ levels) range) :
    proofSiblings emptyHashes target levels range
      = siblings keccak256 branchPreimage (leafOf range) target.toNat levels
          (SMT_DEPTH - levels) := by
  induction levels generalizing range with
  | zero => rfl
  | succ levels ih =>
    have hlt : levels < SMT_DEPTH := hlevels
    have hdepth : SMT_DEPTH - (levels + 1) + 1 = SMT_DEPTH - levels := by
      have : levels < 256 := hlt
      omega
    have hnode := div_two_pow_eq target.toNat levels
    simp only [proofSiblings, siblings, hdepth, take_partitionPoint, drop_partitionPoint]
    change (if _ then subtreeRoot emptyHashes levels (range.dropWhile (goesLeft levels)) ::
        proofSiblings emptyHashes target levels (range.takeWhile (goesLeft levels))
      else subtreeRoot emptyHashes levels (range.takeWhile (goesLeft levels)) ::
        proofSiblings emptyHashes target levels (range.dropWhile (goesLeft levels))) = _
    obtain ⟨hl, hr⟩ := treeRoot_split hlt h
    cases hbit : target.toNat.testBit levels
    · -- The target goes left: the sibling is the right part.
      have hplace : target.toNat / 2 ^ levels = 2 * (target.toNat / 2 ^ (levels + 1)) := by
        rw [hnode, hbit]
        rfl
      rw [if_pos ((bit_eq_zero_iff target hlt).mpr hbit),
        subtreeRoot_eq_root hlt.le (h.right hlt), ← hr, ih hlt.le (hplace ▸ h.left hlt)]
      congr 1
      refine siblings_congr _ _ fun k hk => ?_
      exact ((leafOf_split hlt h k).1 (hk.trans hplace)).symm
    · have hplace : target.toNat / 2 ^ levels = 2 * (target.toNat / 2 ^ (levels + 1)) + 1 := by
        rw [hnode, hbit]
        rfl
      have hbit' : ¬bit target (SMT_DEPTH - (levels + 1)) = 0 := by
        rw [bit_eq_zero_iff target hlt, hbit]
        decide
      rw [if_neg hbit', subtreeRoot_eq_root hlt.le (h.left hlt), ← hl,
        ih hlt.le (hplace ▸ h.right hlt)]
      congr 1
      refine siblings_congr _ _ fun k hk => ?_
      exact ((leafOf_split hlt h k).2 (hk.trans hplace)).symm

theorem climbPath_eq_climb (key leaf : B256) (siblings : List B256) (depth : Nat)
    (hlen : depth + siblings.length = SMT_DEPTH) : climbPath key leaf depth siblings
      = climb keccak256 branchPreimage key.toNat leaf depth siblings := by
  induction siblings generalizing depth with
  | nil => rfl
  | cons sibling rest ih =>
    have hlen' : depth + (rest.length + 1) = SMT_DEPTH := hlen
    have hlt : rest.length < SMT_DEPTH := by omega
    have hdepth : SMT_DEPTH - (rest.length + 1) = depth := by omega
    have hzero := bit_eq_zero_iff key hlt
    rw [hdepth] at hzero
    simp only [climbPath, climb, ih (depth + 1) (by omega)]
    cases hbit : key.toNat.testBit rest.length
    · rw [if_pos (hzero.mpr hbit)]
      rfl
    · have hone : ¬bit key depth = 0 := fun h => by simp [hzero.mp h] at hbit
      rw [if_neg hone]
      rfl

end DomainHeads

end Arbor
