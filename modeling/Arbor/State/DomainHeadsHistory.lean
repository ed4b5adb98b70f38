import Arbor.State.DomainHeads

/-!
# What the domain-head commitment guarantees

What the commitment is *for* is a map from domains to heads: `entry` says what that map
is after a history of insertions and removals, `commit` what the code holds.  The two
agree as long as no two domains collide on a place (`heads_commit`), in whatever order
the heads came to be (`commit_eq_of_entry_eq`).

The guarantees of the root are then those of a Merkle tree.  Its digests have a fixed
size, so they hold under collision freedom of the preimages that were really hashed:
`commitPreimages` lists those of a root, `proofPreimages` those of a proof.
-/

namespace Arbor

open DomainHeads Result MerkleTree List

/-! ## Histories of insertions and removals -/

inductive HeadOp where
  | insert (domainId : DomainId) (head : DomainHead)
  | remove (domainId : DomainId)

namespace HeadOp

def domainId : HeadOp → DomainId
  | insert d _ => d
  | remove d => d

def head : HeadOp → Option DomainHead
  | insert _ head => some head
  | remove _ => none

/-- What a change does to the map the commitment stands for. -/
def update (m : DomainId → Option DomainHead) (op : HeadOp) : DomainId → Option DomainHead :=
  Function.update m op.domainId op.head

end HeadOp

/-- The map from domains to heads after a history of changes. -/
def entry (ops : List HeadOp) : DomainId → Option DomainHead :=
  ops.foldl HeadOp.update fun _ => none

theorem entry_concat (ops : List HeadOp) (op : HeadOp) :
    entry (ops ++ [op]) = op.update (entry ops) := by
  simp [entry]

/-- A domain that no change names is absent from the map. -/
theorem entry_eq_none {ops : List HeadOp} {d : DomainId}
    (hd : ∀ op ∈ ops, op.domainId ≠ d) : entry ops d = none := by
  induction ops using reverseRecOn with
  | nil => rfl
  | append_singleton ops op ih =>
    have hne : d ≠ op.domainId := (hd op (by simp)).symm
    rw [entry_concat, HeadOp.update, Function.update_of_ne hne]
    exact ih fun op' hop => hd op' (by simp [hop])

/-- Every key's place is below the root. -/
theorem key_div_depth (key : B256) : key.toNat / 2 ^ SMT_DEPTH = 0 :=
  Nat.div_eq_of_lt key.isLt

section

variable [Keccak]

def HeadOp.apply (c : DomainHeadsCommitment) : HeadOp → DomainHeadsCommitment
  | insert d head => c.insert d head
  | remove d => (c.remove d).2

def commit (ops : List HeadOp) : DomainHeadsCommitment :=
  ops.foldl HeadOp.apply .new

/-- The preimages of the keys of a history's domains. -/
def keyPreimages (ops : List HeadOp) : Set Bytes :=
  {x | ∃ op ∈ ops, x = keyPreimage op.domainId}

/-- The head stored at a place of the tree. -/
def DomainHeadsCommitment.headAt (c : DomainHeadsCommitment) (key : B256) : Option DomainHead :=
  c.heads[key]?.map Prod.snd

/-- The digest of a place: of its key and head, or of the empty leaf. -/
def placeDigest (key : B256) : Option DomainHead → B256
  | some head => leafHash key (domainHeadValue head)
  | none => keccak256 emptyLeafPreimage

/-- What is hashed for the digest of a place. -/
def placePreimages (key : B256) : Option DomainHead → Set Bytes
  | some head => {valuePreimage head, leafPreimage key (domainHeadValue head)}
  | none => {emptyLeafPreimage}

/-- Everything hashed to compute a commitment's root: the keys of the domains it was
told of, the places, and the nodes of the tree above them. -/
def commitPreimages (ops : List HeadOp) : Set Bytes :=
  keyPreimages ops ∪ {x | ∃ key, x ∈ placePreimages key ((commit ops).headAt key)} ∪
    MerkleTree.nodePreimages keccak256 branchPreimage (leafOf (commit ops).entries) SMT_DEPTH 0 0

/-- Everything hashed when a proof is verified. -/
def proofPreimages (p : DomainHeadProof) : Set Bytes :=
  {keyPreimage p.domainId} ∪ placePreimages (domainHeadKey p.domainId) p.value ∪
    MerkleTree.climbPreimages keccak256 branchPreimage (domainHeadKey p.domainId).toNat
      (placeDigest (domainHeadKey p.domainId) p.value) 0 p.siblings

/-- Different heads at one place have different digests. -/
theorem placeDigest_inj {key : B256} {a b : Option DomainHead}
    (hinj : Set.InjOn keccak256 (placePreimages key a ∪ placePreimages key b))
    (h : placeDigest key a = placeDigest key b) : a = b := by
  cases a with
  | none =>
    cases b with
    | none => rfl
    | some b =>
      have := hinj (by simp [placePreimages]) (by simp [placePreimages]) h
      exact absurd this.symm (leafPreimage_ne_empty _ _)
  | some a =>
    cases b with
    | none =>
      have := hinj (by simp [placePreimages]) (by simp [placePreimages]) h
      exact absurd this (leafPreimage_ne_empty _ _)
    | some b =>
      have hleaf := hinj (by simp [placePreimages]) (by simp [placePreimages]) h
      have hvalue := hinj (by simp [placePreimages]) (by simp [placePreimages])
        (leafPreimage_inj hleaf).2
      rw [valuePreimage_inj hvalue]

/-- What verification checks. -/
theorem verify_eq_ok_iff (p : DomainHeadProof) : p.verify = .ok () ↔ p.siblings.length = SMT_DEPTH ∧
      climbPath (domainHeadKey p.domainId) (placeDigest (domainHeadKey p.domainId) p.value) 0
        p.siblings = p.root := by
  have hempty : emptyHashes SMT_DEPTH = keccak256 emptyLeafPreimage := rfl
  obtain ⟨root, d, value, siblings⟩ := p
  cases value <;> simp [DomainHeadProof.verify, bind_eq_ok, placeDigest, hempty]

variable (c : DomainHeadsCommitment)

/-- The entries are sorted and lie below the root. -/
theorem entries_range : Range SMT_DEPTH 0 c.entries := by
  constructor
  · refine Pairwise.map _ ?_ Std.ExtTreeMap.ordered_keys_toList
    intro a b hab
    exact compare_lt_iff.mp hab
  · intro e _
    exact Nat.div_eq_of_lt e.1.isLt

theorem mem_entries {c : DomainHeadsCommitment} {e : B256 × B256} : e ∈ c.entries ↔
      ∃ d head, c.heads[e.1]? = some (d, head) ∧ e.2 = leafHash e.1 (domainHeadValue head) := by
  simp only [DomainHeadsCommitment.entries, mem_map, Prod.exists]
  constructor
  · rintro ⟨key, d, head, hmem, rfl⟩
    exact ⟨d, head, Std.ExtTreeMap.mem_toList_iff_getElem?_eq_some.mp hmem, rfl⟩
  · rintro ⟨d, head, hget, hleaf⟩
    exact ⟨e.1, d, head, Std.ExtTreeMap.mem_toList_iff_getElem?_eq_some.mpr hget,
      Prod.ext rfl hleaf.symm⟩

theorem leafOf_entries (key : B256) :
    leafOf c.entries key.toNat = placeDigest key (c.headAt key) := by
  have hkey : ∀ e : B256 × B256, (e.1.toNat == key.toNat) = true → e.1 = key := by
    intro e he
    exact BitVec.eq_of_toNat_eq (by simpa using he)
  unfold leafOf
  cases hfind : c.entries.find? (fun e => e.1.toNat == key.toNat) with
  | some e =>
    obtain ⟨d, head, hget, hleaf⟩ := mem_entries.mp (mem_of_find?_eq_some hfind)
    have hplace := find?_some hfind
    have he : e.1 = key := hkey e hplace
    rw [he] at hget hleaf
    simp [DomainHeadsCommitment.headAt, placeDigest, hget, hleaf]
  | none =>
    cases hget : c.heads[key]? with
    | none => simp [DomainHeadsCommitment.headAt, placeDigest, hget]
    | some stored =>
      have hmem : (key, leafHash key (domainHeadValue stored.2)) ∈ c.entries :=
        mem_entries.mpr ⟨stored.1, stored.2, hget, rfl⟩
      have := find?_eq_none.mp hfind _ hmem
      simp at this

theorem root_eq_treeRoot : c.root = treeRoot (leafOf c.entries) SMT_DEPTH 0 :=
  subtreeRoot_eq_root le_rfl (entries_range c)

/-- **Completeness.**  The commitment's own proofs verify, for members and non-members. -/
theorem verify_proof (d : DomainId) : (c.proof d).verify = .ok () := by
  have hplace := key_div_depth (domainHeadKey d)
  have hsiblings : (c.proof d).siblings
      = siblings keccak256 branchPreimage (leafOf c.entries)
          (domainHeadKey d).toNat SMT_DEPTH 0 :=
    proofSiblings_eq_siblings le_rfl (hplace ▸ entries_range c)
  have hlen : (c.proof d).siblings.length = SMT_DEPTH := by
    rw [hsiblings, length_siblings]
  rw [verify_eq_ok_iff, climbPath_eq_climb _ _ _ _ (by rw [hlen]; rfl)]
  refine ⟨hlen, ?_⟩
  change climb keccak256 branchPreimage (domainHeadKey d).toNat
    (placeDigest (domainHeadKey d) (c.headAt (domainHeadKey d))) 0 (c.proof d).siblings = c.root
  rw [hsiblings, ← leafOf_entries, climb_siblings, hplace, root_eq_treeRoot]
  rfl

/-! ## The map behind the places -/

theorem commit_concat (ops : List HeadOp) (op : HeadOp) :
    commit (ops ++ [op]) = op.apply (commit ops) := by
  simp [commit]

theorem heads_apply (op : HeadOp) (c : DomainHeadsCommitment) (key : B256) :
    (op.apply c).heads[key]? =
      if domainHeadKey op.domainId = key then op.head.map (op.domainId, ·) else c.heads[key]? := by
  cases op with
  | insert d head =>
    by_cases h : domainHeadKey d = key <;>
      simp [HeadOp.apply, DomainHeadsCommitment.insert, Std.ExtTreeMap.getElem?_insert,
        HeadOp.domainId, HeadOp.head, h]
  | remove d =>
    by_cases h : domainHeadKey d = key <;>
      simp [HeadOp.apply, DomainHeadsCommitment.remove, Std.ExtTreeMap.getElem?_erase,
        HeadOp.domainId, HeadOp.head, h]

variable {ops : List HeadOp}

theorem commit_heads_key {key : B256} {d : DomainId} {head : DomainHead}
    (h : (commit ops).heads[key]? = some (d, head)) :
    key = domainHeadKey d ∧ ∃ op ∈ ops, op.domainId = d := by
  induction ops using reverseRecOn with
  | nil => simp [commit, DomainHeadsCommitment.new] at h
  | append_singleton ops op ih =>
    rw [commit_concat, heads_apply] at h
    by_cases hkey : domainHeadKey op.domainId = key
    · rw [if_pos hkey, Option.map_eq_some_iff] at h
      obtain ⟨_, -, hpair⟩ := h
      obtain ⟨rfl, rfl⟩ := Prod.mk.inj hpair
      exact ⟨hkey.symm, op, by simp, rfl⟩
    · rw [if_neg hkey] at h
      obtain ⟨hk, op', hop, hd⟩ := ih h
      exact ⟨hk, op', by simp [hop], hd⟩

/-- **The commitment holds the map.**  If no domain named so far collides with `d`, the
entry at the key of `d` is the head the history left `d` with. -/
theorem heads_commit {d : DomainId}
    (hinj : Set.InjOn keccak256 (insert (keyPreimage d) (keyPreimages ops))) :
    (commit ops).headAt (domainHeadKey d) = entry ops d := by
  unfold DomainHeadsCommitment.headAt
  induction ops using reverseRecOn with
  | nil => simp [commit, DomainHeadsCommitment.new, entry]
  | append_singleton ops op ih =>
    have hsub : insert (keyPreimage d) (keyPreimages ops) ⊆
        insert (keyPreimage d) (keyPreimages (ops ++ [op])) := by
      refine Set.insert_subset_insert ?_
      rintro x ⟨op', hop, rfl⟩
      exact ⟨op', by simp [hop], rfl⟩
    have hkey : domainHeadKey op.domainId = domainHeadKey d ↔ op.domainId = d := by
      refine ⟨fun h => keyPreimage_inj (hinj ?_ (by simp) h), fun h => by rw [h]⟩
      exact .inr ⟨op, by simp, rfl⟩
    rw [commit_concat, heads_apply, entry_concat, HeadOp.update]
    by_cases hd : op.domainId = d
    · subst hd
      simp
    · rw [if_neg (fun h => hd (hkey.mp h)), Function.update_of_ne (Ne.symm hd)]
      exact ih (hinj.mono hsub)

/-- **Soundness.**  A proof that verifies against the commitment's root carries the head
stored at the place of its domain. -/
theorem value_eq_headAt {p : DomainHeadProof}
    (hinj : Set.InjOn keccak256 (commitPreimages ops ∪ proofPreimages p))
    (hverify : p.verify = .ok ()) (hroot : p.root = (commit ops).root) :
    p.value = (commit ops).headAt (domainHeadKey p.domainId) := by
  obtain ⟨hlen, hclimb⟩ := (verify_eq_ok_iff p).mp hverify
  have hplace := key_div_depth (domainHeadKey p.domainId)
  rw [climbPath_eq_climb _ _ _ _ (by rw [hlen]; rfl), hroot, root_eq_treeRoot] at hclimb
  have hdigest : placeDigest (domainHeadKey p.domainId) p.value
      = leafOf (commit ops).entries (domainHeadKey p.domainId).toNat := by
    refine climb_sound keccak256 branchPreimage branchPreimage_inj _ _ _ p.siblings 0
      (hinj.mono ?_) (by rw [hlen, hplace]; exact hclimb)
    rw [hlen, hplace]
    exact Set.union_subset_union (fun x hx => .inr hx) (fun x hx => .inr hx)
  rw [leafOf_entries] at hdigest
  refine placeDigest_inj (hinj.mono ?_) hdigest
  rintro x (hx | hx)
  · exact .inr (.inl (.inr hx))
  · exact .inl (.inl (.inr ⟨_, hx⟩))

/-- **Binding.**  Equal roots hold equal heads at every place. -/
theorem headAt_eq_of_root_eq {ops' : List HeadOp}
    (hinj : Set.InjOn keccak256 (commitPreimages ops ∪ commitPreimages ops'))
    (hroot : (commit ops).root = (commit ops').root) (key : B256) :
    (commit ops).headAt key = (commit ops').headAt key := by
  have hdigest : leafOf (commit ops).entries key.toNat = leafOf
      (commit ops').entries key.toNat := by
    rw [root_eq_treeRoot, root_eq_treeRoot] at hroot
    refine root_binding keccak256 branchPreimage branchPreimage_inj _ _ SMT_DEPTH 0 0
      (hinj.mono ?_) hroot key.toNat (key_div_depth key)
    exact Set.union_subset_union (fun x hx => .inr hx) (fun x hx => .inr hx)
  rw [leafOf_entries, leafOf_entries] at hdigest
  refine placeDigest_inj (hinj.mono ?_) hdigest
  rintro x (hx | hx)
  · exact .inl (.inl (.inr ⟨_, hx⟩))
  · exact .inr (.inl (.inr ⟨_, hx⟩))

theorem commit_eq_of_headAt_eq {ops' : List HeadOp}
    (hinj : Set.InjOn keccak256 (keyPreimages ops ∪ keyPreimages ops'))
    (hhead : ∀ key, (commit ops).headAt key = (commit ops').headAt key) :
    commit ops = commit ops' := by
  have hget : ∀ key : B256, (commit ops).heads[key]? = (commit ops').heads[key]? := by
    intro key
    have hkey := hhead key
    unfold DomainHeadsCommitment.headAt at hkey
    cases h : (commit ops).heads[key]? with
    | none =>
      rw [h] at hkey
      exact (Option.map_eq_none_iff.mp hkey.symm).symm
    | some stored =>
      cases h' : (commit ops').heads[key]? with
      | none => simp [h, h'] at hkey
      | some stored' =>
        obtain ⟨d, head⟩ := stored
        obtain ⟨d', head'⟩ := stored'
        obtain ⟨hk, op, hop, hd⟩ := commit_heads_key h
        obtain ⟨hk', op', hop', hd'⟩ := commit_heads_key h'
        have hdomain : d = d' := by
          refine keyPreimage_inj (hinj (.inl ⟨op, hop, by rw [hd]⟩)
            (.inr ⟨op', hop', by rw [hd']⟩) ?_)
          exact hk.symm.trans hk'
        have hhead : head = head' := by simpa [h, h'] using hkey
        rw [hdomain, hhead]
  have hmaps : (commit ops).heads = (commit ops').heads := Std.ExtTreeMap.ext_getElem? hget
  cases hc : commit ops
  cases hc' : commit ops'
  simp_all

/-- **The domain-head commitment is complete, sound and binding.**  For every history:
each of the commitment's proofs verifies; whatever proof verifies against its root tells
what the history left that domain with; and a history with the same root left the same
commitment and the same map. -/
theorem domain_heads_commitment (ops : List HeadOp) :
    (∀ d, ((commit ops).proof d).verify = .ok ()) ∧
    (∀ p : DomainHeadProof, Set.InjOn keccak256 (commitPreimages ops ∪ proofPreimages p) →
      p.verify = .ok () → p.root = (commit ops).root → p.value = entry ops p.domainId) ∧
    (∀ ops', Set.InjOn keccak256 (commitPreimages ops ∪ commitPreimages ops') →
      (commit ops).root = (commit ops').root →
        commit ops = commit ops' ∧ entry ops = entry ops') := by
  refine ⟨verify_proof _, ?_, ?_⟩
  · intro p hinj hverify hroot
    rw [value_eq_headAt hinj hverify hroot]
    refine heads_commit (hinj.mono ?_)
    refine Set.insert_subset (.inr (.inl (.inl rfl))) fun x hx => .inl (.inl (.inl hx))
  · intro ops' hinj hroot
    have hkeys : Set.InjOn keccak256 (keyPreimages ops ∪ keyPreimages ops') :=
      hinj.mono (Set.union_subset_union (fun x hx => .inl (.inl hx)) (fun x hx => .inl (.inl hx)))
    have hcommit := commit_eq_of_headAt_eq hkeys (headAt_eq_of_root_eq hinj hroot)
    refine ⟨hcommit, funext fun d => ?_⟩
    by_cases hnamed : keyPreimage d ∈ keyPreimages ops ∪ keyPreimages ops'
    · rw [← heads_commit (hkeys.mono (Set.insert_subset hnamed Set.subset_union_left)),
        ← heads_commit (hkeys.mono (Set.insert_subset hnamed Set.subset_union_right)), hcommit]
    · rw [entry_eq_none fun op hop hd => hnamed (.inl ⟨op, hop, by rw [hd]⟩),
        entry_eq_none fun op hop hd => hnamed (.inr ⟨op, hop, by rw [hd]⟩)]

/-- **Order does not matter.**  Histories that leave the same heads build the same commitment. -/
theorem commit_eq_of_entry_eq (ops ops' : List HeadOp)
    (hinj : Set.InjOn keccak256 (keyPreimages ops ∪ keyPreimages ops'))
    (hentry : entry ops = entry ops') : commit ops = commit ops' := by
  have hnamed : ∀ d, keyPreimage d ∈ keyPreimages ops ∪ keyPreimages ops' →
      (commit ops).headAt (domainHeadKey d) = (commit ops').headAt (domainHeadKey d) := by
    intro d hd
    rw [heads_commit (hinj.mono (Set.insert_subset hd Set.subset_union_left)),
      heads_commit (hinj.mono (Set.insert_subset hd Set.subset_union_right)), hentry]
  refine commit_eq_of_headAt_eq hinj fun key => ?_
  rcases h : (commit ops).heads[key]? with _ | ⟨d, head⟩
  · rcases h' : (commit ops').heads[key]? with _ | ⟨d, head⟩
    · rw [DomainHeadsCommitment.headAt, DomainHeadsCommitment.headAt, h, h']
    · obtain ⟨rfl, op, hop, rfl⟩ := commit_heads_key h'
      exact hnamed _ (.inr ⟨op, hop, rfl⟩)
  · obtain ⟨rfl, op, hop, rfl⟩ := commit_heads_key h
    exact hnamed _ (.inl ⟨op, hop, rfl⟩)

theorem proofPreimages_proof_subset (ops : List HeadOp) (d : DomainId) :
    proofPreimages ((commit ops).proof d) ⊆ insert (keyPreimage d) (commitPreimages ops) := by
  have hplace := key_div_depth (domainHeadKey d)
  have hsiblings : ((commit ops).proof d).siblings
      = siblings keccak256 branchPreimage (leafOf (commit ops).entries)
          (domainHeadKey d).toNat SMT_DEPTH 0 :=
    proofSiblings_eq_siblings le_rfl (hplace ▸ entries_range _)
  rintro x ((hx | hx) | hx)
  · exact .inl hx
  · exact .inr (.inl (.inr ⟨_, hx⟩))
  · refine .inr (.inr ?_)
    have hnodes := climbPreimages_siblings_subset keccak256 branchPreimage
      (leafOf (commit ops).entries) (domainHeadKey d).toNat SMT_DEPTH 0
    rw [hplace, leafOf_entries, ← hsiblings] at hnodes
    exact hnodes hx

end

/-! ## A tree with one entry -/

/-- A stand-in hash that reads the depth of a node and whether one of its children is occupied.
Of a node at depth `d` it makes `2 * d`, and one more if an entry is below the node. -/
@[reducible] def parityHash : Keccak where
  keccak256 x :=
    if x.length = 85 then
      BitVec.ofNat 256 (2 * BigEndian.beNat ((x.drop 19).take 2) +
        (BigEndian.beNat ((x.drop 21).take 32) + BigEndian.beNat (x.drop 53)) % 2)
    else if x.length = 18 then 512
    else if x.length = 82 then 513
    else BitVec.ofNat 256 (1000 * x.length + BigEndian.beNat (x.drop 24))

theorem parityHash_branch {depth : Nat} (hdepth : depth < 256) (l r : B256) :
    parityHash.keccak256 (branchPreimage depth l r)
      = BitVec.ofNat 256 (2 * depth + (l.toNat + r.toNat) % 2) := by
  have htag : BRANCH_TAG.length = 19 := by decide
  have hlen : (branchPreimage depth l r).length = 85 := by simp [branchPreimage, htag]
  have hdrop : (branchPreimage depth l r).drop 19
      = toBytes (BitVec.ofNat 16 depth) ++ (toBytes l ++ toBytes r) := by
    simp only [branchPreimage, append_assoc]
    exact drop_left' htag
  have hfield : ((branchPreimage depth l r).drop 19).take 2 = toBytes (BitVec.ofNat 16 depth) := by
    rw [hdrop, take_left' (by simp)]
  have hleft : ((branchPreimage depth l r).drop 21).take 32 = toBytes l := by
    rw [show 21 = 19 + 2 from rfl, ← drop_drop, hdrop, drop_left' (by simp), take_left' (by simp)]
  have hright : (branchPreimage depth l r).drop 53 = toBytes r := by
    rw [show 53 = 19 + 2 + 32 from rfl, ← drop_drop, ← drop_drop, hdrop, drop_left' (by simp),
      drop_left' (by simp)]
  have hdepth' : (BitVec.ofNat 16 depth).toNat = depth := by
    rw [BitVec.toNat_ofNat]
    omega
  change (if (branchPreimage depth l r).length = 85 then _ else _ : B256) = _
  rw [if_pos hlen, hfield, hleft, hright, beNat_toBytes (by decide), beNat_toBytes (by decide),
    beNat_toBytes (by decide), hdepth']

/-- The history that leaves one head. -/
def oneHead : List HeadOp := [.insert 7 ⟨1, 2⟩]

/-- The leaves of its tree. -/
def oneLeaf : Nat → B256 := letI := parityHash; leafOf (commit oneHead).entries

theorem oneLeaf_eq (i : Nat) :
    oneLeaf i = BitVec.ofNat 256 (2 * 256 + if 56007 = i then 1 else 0) := by
  let _ := parityHash
  have hentries : (commit oneHead).entries = [(56007, 513)] := by decide +kernel
  rw [oneLeaf, leafOf, hentries, find?_cons, find?_nil]
  by_cases hi : 56007 = i
  · subst hi
    rfl
  · have hne : ((56007 : B256).toNat == i) = false := by simpa using hi
    rw [hne, if_neg hi]
    rfl

/-- The digest of a node tells its depth and whether the entry is below it. -/
theorem root_oneLeaf (h d i : Nat) (hd : d + h = 256) :
    root parityHash.keccak256 branchPreimage oneLeaf h d i
      = BitVec.ofNat 256 (2 * d + if 56007 / 2 ^ h = i then 1 else 0) := by
  induction h generalizing d i with
  | zero =>
    obtain rfl : d = 256 := by omega
    rw [root, oneLeaf_eq, pow_zero, Nat.div_one]
  | succ h ih =>
    rw [root, ih (d + 1) _ (by omega), ih (d + 1) _ (by omega), parityHash_branch (by omega),
      BitVec.toNat_ofNat, BitVec.toNat_ofNat, pow_succ 2 h, ← Nat.div_div_eq_div_mul]
    congr 1
    generalize 56007 / 2 ^ h = k
    split_ifs <;> omega

/-- What is hashed for the head and for the keys of its domain and of another one. -/
def headPreimages : List Bytes :=
  [emptyLeafPreimage, keyPreimage 7, keyPreimage 9, valuePreimage ⟨1, 2⟩, leafPreimage 56007 90002]

def onePreimages : Set Bytes :=
  {x | x ∈ headPreimages} ∪ nodePreimages parityHash.keccak256 branchPreimage oneLeaf SMT_DEPTH 0 0

/-- The node over `j` at a depth, and what becomes of it. -/
theorem exists_of_oneLeaf {x : Bytes}
    (hx : x ∈ nodePreimages parityHash.keccak256 branchPreimage oneLeaf SMT_DEPTH 0 0) :
    ∃ d < 256, ∃ j, x = branchPreimage d
        (BitVec.ofNat 256 (2 * (d + 1) + if 56007 / 2 ^ (255 - d) = 2 * j then 1 else 0))
        (BitVec.ofNat 256 (2 * (d + 1) + if 56007 / 2 ^ (255 - d) = 2 * j + 1 then 1 else 0)) ∧
      (parityHash.keccak256 x).toNat = 2 * d + if 56007 / 2 ^ (255 - d) / 2 = j then 1 else 0 := by
  obtain ⟨d, j, _, hlt, rfl⟩ := mem_nodePreimages _ _ hx
  have hlt : d < 256 := hlt.trans_eq (Nat.zero_add SMT_DEPTH)
  have hheight : 0 + SMT_DEPTH - (d + 1) = 255 - d := by
    change 0 + 256 - (d + 1) = _
    omega
  rw [hheight, root_oneLeaf _ _ _ (by omega), root_oneLeaf _ _ _ (by omega), parityHash_branch hlt,
    BitVec.toNat_ofNat, BitVec.toNat_ofNat, BitVec.toNat_ofNat]
  refine ⟨d, hlt, j, rfl, ?_⟩
  generalize 56007 / 2 ^ (255 - d) = k
  split_ifs <;> omega

theorem parityHash_injOn : Set.InjOn parityHash.keccak256 onePreimages := by
  have hheads : ∀ x ∈ headPreimages, 512 ≤ (parityHash.keccak256 x).toNat ∧
      ∀ y ∈ headPreimages, parityHash.keccak256 x = parityHash.keccak256 y → x = y := by
    decide +kernel
  rintro x (hx | hx) y (hy | hy) hxy
  · exact (hheads x hx).2 y hy hxy
  · obtain ⟨d, hd, j, _, hhash⟩ := exists_of_oneLeaf hy
    have hlarge := (hheads x hx).1
    rw [hxy, hhash] at hlarge
    split_ifs at hlarge <;> omega
  · obtain ⟨d, hd, j, _, hhash⟩ := exists_of_oneLeaf hx
    have hlarge := (hheads y hy).1
    rw [← hxy, hhash] at hlarge
    split_ifs at hlarge <;> omega
  · obtain ⟨d, _, j, rfl, hhash⟩ := exists_of_oneLeaf hx
    obtain ⟨d', _, j', rfl, hhash'⟩ := exists_of_oneLeaf hy
    rw [hxy, hhash'] at hhash
    obtain rfl : d = d' := by split_ifs at hhash <;> omega
    -- At one depth only one node has the entry below it, and all others are the same.
    generalize 56007 / 2 ^ (255 - d) = k at *
    by_cases hj : k / 2 = j
    · obtain rfl : j = j' := by split_ifs at hhash <;> omega
      rfl
    · have hj' : k / 2 ≠ j' := by
        intro hj'
        rw [if_pos hj', if_neg hj] at hhash
        omega
      rw [if_neg (by omega), if_neg (by omega), if_neg (by omega), if_neg (by omega)]

theorem commit_eq_of_entry_eq_swapped : letI := parityHash
    commit [.insert 7 ⟨1, 2⟩, .insert 9 ⟨3, 4⟩] = commit [.insert 9 ⟨3, 4⟩, .insert 7 ⟨1, 2⟩] := by
  let _ := parityHash
  refine commit_eq_of_entry_eq _ _ (parityHash_injOn.mono ?_)
    (Function.update_comm (by decide) _ _ _)
  rintro x (⟨op, hop, rfl⟩ | ⟨op, hop, rfl⟩) <;> rcases hop with _ | ⟨_, _ | ⟨_, _ | _⟩⟩ <;>
    exact .inl (by simp [headPreimages, HeadOp.domainId])

/-- A history with the same head left, and another domain removed again. -/
def oneLeft : List HeadOp := [.insert 7 ⟨1, 2⟩, .insert 9 ⟨3, 4⟩, .remove 9]

theorem heads_oneHead (key : B256) : letI := parityHash
    (commit oneHead).heads[key]? = if 56007 = key then some (7, ⟨1, 2⟩) else none := by
  let _ := parityHash
  have hkey : domainHeadKey 7 = 56007 := by decide +kernel
  refine (heads_apply (.insert 7 ⟨1, 2⟩) .new key).trans ?_
  change (if domainHeadKey 7 = key then _ else _) = _
  rw [hkey]
  simp [HeadOp.domainId, HeadOp.head, DomainHeadsCommitment.new]

theorem commit_oneLeft : letI := parityHash; commit oneLeft = commit oneHead := by
  let _ := parityHash
  have hkey : domainHeadKey 9 = 56009 := by decide +kernel
  have hheads : (commit oneLeft).heads = (commit oneHead).heads := by
    apply Std.ExtTreeMap.ext_getElem?
    intro key
    refine (heads_apply (.remove 9) (HeadOp.apply (commit oneHead) (.insert 9 ⟨3, 4⟩)) key).trans ?_
    rw [heads_apply, heads_oneHead]
    change (if domainHeadKey 9 = key then none else if domainHeadKey 9 = key then _ else _) = _
    rw [hkey]
    by_cases h9 : 56009 = key
    · rw [if_pos h9, if_neg (h9 ▸ by decide)]
    · rw [if_neg h9, if_neg h9]
  cases h : commit oneLeft
  cases h' : commit oneHead
  simp_all

theorem commitPreimages_subset {ops : List HeadOp}
    (hops : ∀ op ∈ ops, op.domainId = 7 ∨ op.domainId = 9)
    (hcommit : letI := parityHash; commit ops = commit oneHead) :
    letI := parityHash; commitPreimages ops ⊆ onePreimages := by
  let _ := parityHash
  rintro x ((⟨op, hop, rfl⟩ | ⟨key, hx⟩) | hx)
  · rcases hops op hop with h | h <;> exact .inl (by simp [headPreimages, h])
  · have hvalue : domainHeadValue ⟨1, 2⟩ = 90002 := by decide +kernel
    rw [hcommit, DomainHeadsCommitment.headAt, heads_oneHead] at hx
    split_ifs at hx with h
    · subst h
      rw [Option.map_some, placePreimages, hvalue] at hx
      exact .inl (by simpa [headPreimages] using .inr (.inr (.inr hx)))
    · exact .inl (by simp [headPreimages, show x = emptyLeafPreimage from hx])
  · rw [hcommit] at hx
    exact .inr hx

/-- The theorem at a tree with one head: the proofs of its domain and of another one, and
two histories that lead to it. -/
theorem domain_heads_commitment_one_head : letI := parityHash
    ((commit oneLeft).proof 7).value = some ⟨1, 2⟩ ∧
      ((commit oneLeft).proof 7).value = entry oneLeft 7 ∧
      ((commit oneLeft).proof 9).value = entry oneLeft 9 ∧
      commit oneLeft = commit oneHead ∧ entry oneLeft = entry oneHead := by
  let _ := parityHash
  have hpre := @commitPreimages_subset oneLeft (by decide) commit_oneLeft
  have hpre' := @commitPreimages_subset oneHead (by decide) rfl
  obtain ⟨hcomplete, hsound, hbinding⟩ := domain_heads_commitment oneLeft
  have hproof : ∀ d, keyPreimage d ∈ onePreimages →
      ((commit oneLeft).proof d).value = entry oneLeft d := by
    intro d hd
    refine hsound _ (parityHash_injOn.mono (Set.union_subset hpre ?_)) (hcomplete d) rfl
    exact (proofPreimages_proof_subset _ _).trans (Set.insert_subset hd hpre)
  have hseven := hproof 7 (.inl (by simp [headPreimages]))
  exact ⟨hseven, hseven, hproof 9 (.inl (by simp [headPreimages])),
    hbinding oneHead (parityHash_injOn.mono (Set.union_subset hpre hpre')) (by rw [commit_oneLeft])⟩

end Arbor
