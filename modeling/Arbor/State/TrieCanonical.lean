import Arbor.Lib.Panic
import Arbor.State.TrieStore

/-!
# Canonical lists, nodes and leaves

The reader of lists ends without a panic and accepts exactly canonical lists
(`rlp_list_canonical`).  Every node that `buildNode` returns is read back as the path, value and
children it was written from (`node_encoding_invertible`), and account and storage leaves have
one encoding each (`leaves_canonical`).
-/

namespace Arbor

open Result BigEndian Panic Rlp List

namespace Trie

variable {input : Bytes}

/-! ## Lists

The reader once more, with every subtraction, addition and slice that could panic. -/

/-- One more digit of a length, in checked arithmetic. -/
def pushDigit (length : Nat) (byte : Byte) : Except StateError Nat := do
  rejectIf (2 ^ 64 ≤ length * 256) (.malformedRlp "length overflow")
  rejectIf (2 ^ 64 ≤ length * 256 + byte.toNat) (.malformedRlp "length overflow")
  return length * 256 + byte.toNat

def decodeRlpLengthGuarded (input : Bytes) (lengthBytes : Nat) : ExceptT StateError Option Nat := do
  panicUnless (1 + lengthBytes < 2 ^ 64)
  step (rejectIf (input.length < 1 + lengthBytes) (.malformedRlp "truncated length"))
  let bytes := (input.drop 1).take lengthBytes
  step (rejectIf (bytes.head? = some 0 ∨ 8 < lengthBytes) (.malformedRlp "non-canonical length"))
  step (bytes.foldlM pushDigit 0)

/-- A header whose length is in its first byte, counted from a base. -/
def shortHeaderGuarded (list : Bool) (base first : Nat) :
    ExceptT StateError Option (Bool × Nat × Nat) := do
  panicUnless (base ≤ first)
  return (list, 1, first - base)

/-- A header whose first byte says how long its length is. -/
def longHeaderGuarded (list : Bool) (base : Nat) (what : String) (input : Bytes) (first : Nat) :
    ExceptT StateError Option (Bool × Nat × Nat) := do
  panicUnless (base ≤ first)
  let length ← decodeRlpLengthGuarded input (first - base)
  step (rejectIf (length < 56) (.malformedRlp what))
  panicUnless (1 + (first - base) < 2 ^ 64)
  return (list, 1 + (first - base), length)

def decodeRlpHeaderGuarded (input : Bytes) (first : Nat) :
    ExceptT StateError Option (Bool × Nat × Nat) :=
  if first < 0x80 then pure (false, 0, 1)
  else if first < 0xb8 then shortHeaderGuarded false 0x80 first
  else if first < 0xc0 then longHeaderGuarded false 0xb7 "non-minimal long string" input first
  else if first < 0xf8 then shortHeaderGuarded true 0xc0 first
  else longHeaderGuarded true 0xf7 "non-minimal long list" input first

def decodeRlpItemGuarded (input : Bytes) : ExceptT StateError Option RlpItem :=
  match input.head? with
  | none => step (.error (.malformedRlp "truncated item"))
  | some first => do
    let (list, offset, length) ← decodeRlpHeaderGuarded input first.toNat
    step (rejectIf (2 ^ 64 ≤ offset + length) (.malformedRlp "length overflow"))
    step (rejectIf (input.length < offset + length) (.malformedRlp "truncated payload"))
    let raw := input.take (offset + length)
    panicUnless (offset ≤ raw.length)
    let payload := raw.drop offset
    step (rejectIf (first = 0x81 ∧ (payload.head?.any fun byte => byte.toNat < 0x80) = true)
      (.malformedRlp "non-minimal single byte"))
    return ⟨raw, payload, list⟩

/-- The loop over a payload; with more rounds than the payload has bytes it would not end. -/
def decodeRlpItemsGuarded : Nat → Bytes → ExceptT StateError Option (List RlpItem)
  | _, [] => pure []
  | 0, _ :: _ => ExceptT.mk none
  | fuel + 1, byte :: rest => do
    let item ← decodeRlpItemGuarded (byte :: rest)
    panicUnless (item.raw.length ≤ (byte :: rest).length)
    let items ← decodeRlpItemsGuarded fuel ((byte :: rest).drop item.raw.length)
    return item :: items

def decodeRlpListGuarded (input : Bytes) : ExceptT StateError Option (List RlpItem) := do
  let top ← decodeRlpItemGuarded input
  step (rejectIf (top.list = false ∨ top.raw.length ≠ input.length)
    (.malformedRlp "expected one exact list"))
  decodeRlpItemsGuarded top.payload.length top.payload

theorem foldlM_pushDigit {bytes : Bytes} (h : bytes.length ≤ 8) :
    bytes.foldlM pushDigit 0 = .ok (beNat bytes) := by
  induction bytes using reverseRecOn with
  | nil => rfl
  | append_singleton bytes byte ih =>
    have hlt := beNat_lt (bytes ++ [byte])
    have hpow : 256 ^ (bytes ++ [byte]).length ≤ 256 ^ 8 := Nat.pow_le_pow_right (by decide) h
    rw [length_append, length_singleton] at h
    rw [beNat_concat] at hlt ⊢
    rw [foldlM_append, ih (by omega), ok_bind, foldlM_cons, pushDigit,
      rejectIf_neg (by omega), ok_bind, rejectIf_neg (by omega)]
    rfl

theorem agrees_decodeRlpLength {k : Nat} (hk : k ≤ 8) :
    Agrees (decodeRlpLengthGuarded input k) (decodeRlpLength input k) := by
  refine Agrees.guard (by omega) (Agrees.step fun _ _ => Agrees.step fun _ _ => ?_)
  rw [foldlM_pushDigit ((length_take_le _ _).trans hk)]
  exact Agrees.pure _

theorem agrees_decodeRlpHeader (code : Byte) :
    Agrees (decodeRlpHeaderGuarded input code.toNat) (decodeRlpHeader input code.toNat) := by
  unfold decodeRlpHeaderGuarded decodeRlpHeader
  split
  · exact Agrees.pure _
  split
  · exact Agrees.guard (by omega) (Agrees.pure _)
  split
  · refine Agrees.guard (by omega) (Agrees.bind (agrees_decodeRlpLength (by omega)) fun _ _ => ?_)
    exact Agrees.step fun _ _ => Agrees.guard (by omega) (Agrees.pure _)
  split
  · exact Agrees.guard (by omega) (Agrees.pure _)
  · refine Agrees.guard (by omega) (Agrees.bind (agrees_decodeRlpLength (by omega)) fun _ _ => ?_)
    exact Agrees.step fun _ _ => Agrees.guard (by omega) (Agrees.pure _)

theorem agrees_decodeRlpItem (input : Bytes) :
    Agrees (decodeRlpItemGuarded input) (decodeRlpItem input) := by
  cases input with
  | nil => rfl
  | cons code tail =>
    refine Agrees.bind (agrees_decodeRlpHeader code) fun header _ => ?_
    refine Agrees.step fun _ _ => Agrees.step fun _ hlong => ?_
    rw [rejectIf_eq_ok] at hlong
    refine Agrees.guard ?_ (Agrees.step fun _ _ => Agrees.pure _)
    rw [length_take]
    omega

theorem agrees_decodeRlpItems {fuel : Nat} {payload : Bytes} (hfuel : payload.length ≤ fuel) :
    Agrees (decodeRlpItemsGuarded fuel payload) (decodeRlpItems fuel payload) := by
  induction fuel generalizing payload with
  | zero =>
    obtain rfl := length_eq_zero_iff.mp (Nat.le_zero.mp hfuel)
    rfl
  | succ fuel ih =>
    cases payload with
    | nil => rfl
    | cons byte rest =>
      refine Agrees.bind (agrees_decodeRlpItem _) fun item hitem => ?_
      obtain ⟨_, hne, hfront⟩ := canonical_of_decodeRlpItem hitem
      have hpos := length_pos_iff.mpr hne
      refine Agrees.guard hfront.length_le (Agrees.bind (ih ?_) fun _ _ => Agrees.pure _)
      rw [length_drop]
      omega

theorem readsItem_canonical {item : RlpItem} (h : item.raw = item.canonical)
    (hlen : item.raw.length < 2 ^ 63) : ReadsItem item.raw item := by
  obtain ⟨raw, payload, list⟩ := item
  cases list with
  | true =>
    change raw = encodeList payload at h
    subst h
    rw [encodeList, length_append] at hlen
    exact readsItem_encodeList (by rw [PAYLOAD_LIMIT]; omega)
  | false =>
    change raw = encodeString payload at h
    subst h
    have hlt := (Tree.length_le_encodeString payload).trans_lt hlen
    exact readsItem_encodeString payload (by rw [PAYLOAD_LIMIT]; omega)

/-- **The reader of lists accepts exactly canonical lists**: their payload is made up of the
fields, each in the one encoding of its payload.  It ends without a panic on every input. -/
theorem rlp_list_canonical (input : Bytes) :
    Agrees (decodeRlpListGuarded input) (decodeRlpList input) ∧
      (input.length < 2 ^ 63 → ∀ fields, decodeRlpList input = .ok fields ↔
        (∀ field ∈ fields, field.raw = field.canonical) ∧
          input = encodeList (fields.flatMap RlpItem.raw)) := by
  refine ⟨?_, fun hlen fields => ⟨canonical_of_decodeRlpList, ?_⟩⟩
  · refine Agrees.bind (agrees_decodeRlpItem input) fun top _ => ?_
    exact Agrees.step fun _ _ => agrees_decodeRlpItems le_rfl
  · rintro ⟨hall, rfl⟩
    rw [encodeList, length_append] at hlen
    have htop : decodeRlpItem (encodeList (fields.flatMap RlpItem.raw) ++ []) = _ :=
      decodeRlpItem_encodeList (by rw [PAYLOAD_LIMIT]; omega) []
    rw [append_nil] at htop
    rw [decodeRlpList, htop, ok_bind, rejectIf_neg (by simp), ok_bind]
    refine decodeRlpItems_flatten (forall₂_map_left_iff.mpr (forall₂_same.mpr ?_)) le_rfl
    intro field hfield
    have hle := length_raw_le hfield
    exact readsItem_canonical (hall field hfield) (by omega)

/-! ## Nodes -/

section Nodes

variable [Keccak] {fuel depth : Nat} {entries : List Entry} {nodes : NodeStore}
  {result : BuiltNode × NodeStore}

/-- The path of a leaf or an extension is not empty. -/
def Tree.Pathed : Tree → Prop
  | .leaf path _ => path ≠ []
  | .extension path _ => path ≠ []
  | _ => True

theorem treeNode_ne_empty (h : buildNode fuel entries depth nodes = .ok result) :
    treeNode fuel entries depth ≠ .empty := by
  cases fuel with
  | zero => cases h
  | succ fuel =>
    rcases entries with _ | ⟨first, _ | ⟨second, rest⟩⟩
    · unfold buildNode at h
      split at h <;> cases h
    · simp [treeNode]
    · rw [treeNode]
      split <;> simp

/-- The child of an extension has been built. -/
theorem child_ne_empty (h : buildNode fuel entries depth nodes = .ok result) :
    ∀ path child, treeNode fuel entries depth = .extension path child → child ≠ .empty := by
  intro path child htree
  cases fuel with
  | zero => cases h
  | succ fuel =>
    rcases entries with _ | ⟨first, _ | ⟨second, rest⟩⟩
    · cases htree
    · cases htree
    · rw [treeNode] at htree
      rw [buildNode] at h
      by_cases hcommon : 0 < commonPrefix first ((second :: rest).getLast (cons_ne_nil _ _)) depth
      · simp only [if_pos hcommon, Tree.extension.injEq] at h htree
        split at h
        · cases h
        obtain ⟨_, hchild, _⟩ := bind_eq_ok.mp h
        rw [← htree.2]
        exact treeNode_ne_empty hchild
      · simp only [if_neg hcommon, reduceCtorEq] at htree

/-- **Node encodings are invertible**: compact paths both ways, and what `buildNode` returns for
a node with a path is read back as that node.  An embedded child is one of fewer than 32
bytes. -/
theorem node_encoding_invertible :
    (∀ path leaf, compactDecode (compactEncode path leaf) = .ok (path, leaf)) ∧
    (∀ bytes path leaf, compactDecode bytes = .ok (path, leaf) → compactEncode path leaf = bytes) ∧
    ∀ fuel entries depth nodes built stored,
      buildNode fuel entries depth nodes = .ok (built, stored) → built.encoded.length < 2 ^ 63 →
      (treeNode fuel entries depth).Pathed →
      decodeNode built.encoded = .ok (treeNode fuel entries depth).decoded := by
  refine ⟨compactDecode_compactEncode, fun _ _ _ => compactEncode_of_compactDecode, ?_⟩
  intro fuel entries depth nodes built stored h hsize hpath
  have hne := treeNode_ne_empty h
  have hchild := child_ne_empty h
  cases buildNode_eq_ok h
  generalize treeNode fuel entries depth = t at hsize hpath hne hchild ⊢
  have hlen : (t.items.flatMap EncodedItem.encode).length < PAYLOAD_LIMIT := by
    dsimp only at hsize
    rw [Tree.encode_eq_encodeItems hne, encodeItems, encodeList, length_append] at hsize
    rw [PAYLOAD_LIMIT]
    omega
  cases t with
  | empty => exact absurd rfl hne
  | leaf path value => exact Tree.decodeNode_leafItems hpath hlen
  | extension path child =>
    have hread := Tree.readsChild_reference child
    rw [Tree.child_eq_some (hchild path child rfl)] at hread
    exact Tree.decodeNode_extensionItems hpath hread hlen
  | branch children =>
    exact Tree.decodeNode_branchItems (Tree.readsChildren children) (by simp) hlen

end Nodes

end Trie

/-! ## Leaves -/

variable {bytes : Bytes}

theorem decodeUint_eq_ok {w : Nat} (hw : 8 ∣ w) {overflow : String} {x : BitVec w}
    (h : decodeUint w overflow bytes = .ok x) : encodeString bytes = encodeUint x := by
  obtain ⟨hhead, h⟩ := check_bind_eq_ok.mp h
  obtain ⟨hshort, h⟩ := check_bind_eq_ok.mp h
  cases h
  rw [rejectIf_eq_ok] at hhead hshort
  have hpad : leftPad (w / 8) bytes = .ok (beNat bytes) := by
    rw [leftPad, if_neg hshort, if_neg hhead]
  obtain ⟨hdigits, hlt⟩ := digits_of_leftPad hpad
  rw [pow_256, Nat.mul_div_cancel' hw] at hlt
  rw [encodeUint, BitVec.toNat_ofNat, Nat.mod_eq_of_lt hlt, ← hdigits]

theorem decodeHash_eq_ok {field : String} {x : B256}
    (h : decodeHash field bytes = .ok x) : bytes = toBytes x := by
  obtain ⟨hlength, h⟩ := check_bind_eq_ok.mp h
  cases h
  rw [rejectIf_eq_ok, not_not] at hlength
  exact (toBytes_ofBytes (by omega)).symm

theorem encodeAccount_of_decodeAccount {account : Account}
    (h : decodeAccount bytes = .ok account) : encodeAccount account = bytes := by
  obtain ⟨fields, hfields, h⟩ := bind_eq_ok.mp h
  obtain ⟨hall, hbytes⟩ := Trie.canonical_of_decodeRlpList hfields
  rw [hbytes]
  split at h
  · rename_i nonce balance storageRoot codeHash
    obtain ⟨hkinds, h⟩ := check_bind_eq_ok.mp h
    obtain ⟨_, hnonce, h⟩ := bind_eq_ok.mp h
    obtain ⟨_, hbalance, h⟩ := bind_eq_ok.mp h
    obtain ⟨_, hroot, h⟩ := bind_eq_ok.mp h
    obtain ⟨_, hcode, h⟩ := bind_eq_ok.mp h
    cases h
    rw [rejectIf_eq_ok, not_or, not_or, not_or] at hkinds
    obtain ⟨_, _, _, _⟩ := hkinds
    have hraw : ∀ field ∈ [nonce, balance, storageRoot, codeHash],
        field.raw = encodeString field.payload := by
      intro field hmem
      rw [hall field hmem, Trie.RlpItem.canonical, if_neg]
      simp only [mem_cons, not_mem_nil, or_false] at hmem
      rcases hmem with rfl | rfl | rfl | rfl <;> assumption
    simp only [forall_mem_cons] at hraw
    obtain ⟨hrawNonce, hrawBalance, hrawRoot, hrawCode, _⟩ := hraw
    simp only [encodeAccount, flatMap_cons, flatMap_nil, append_nil, hrawNonce,
      hrawBalance, hrawRoot, hrawCode, decodeUint_eq_ok (by decide) hnonce,
      decodeUint_eq_ok (by decide) hbalance, decodeHash_eq_ok hroot, decodeHash_eq_ok hcode,
      append_assoc]
  · cases h

/-- **Leaves are canonical**: accounts and nonzero words have one encoding each, and nothing
else is accepted. -/
theorem leaves_canonical : (∀ account, decodeAccount (encodeAccount account) = .ok account) ∧
    (∀ bytes account, decodeAccount bytes = .ok account → encodeAccount account = bytes) ∧
    (∀ word, (storageTrieValue word = none ↔ word = 0) ∧
      ∀ bytes, storageTrieValue word = some bytes → decodeStorageTrieValue bytes = .ok word) ∧
    ∀ bytes word, decodeStorageTrieValue bytes = .ok word →
      word ≠ 0 ∧ storageTrieValue word = some bytes := by
  refine ⟨decodeAccount_encodeAccount, fun _ _ => encodeAccount_of_decodeAccount,
    fun word => ⟨by simp [storageTrieValue], fun bytes hbytes => ?_⟩, fun bytes word h => ?_⟩
  · unfold storageTrieValue at hbytes
    split at hbytes
    · cases hbytes
    · cases hbytes
      exact decodeStorageTrieValue_encodeUint (by assumption)
  · unfold decodeStorageTrieValue at h
    split at h
    · cases h
    · rename_i value remaining hrun
      obtain ⟨hend, h⟩ := check_bind_eq_ok.mp h
      obtain ⟨hne, h⟩ := check_bind_eq_ok.mp h
      cases h
      rw [rejectIf_eq_ok] at hne hend
      obtain ⟨_, rfl, rfl⟩ := consumes_uint (by decide) hrun
      rw [storageTrieValue, if_neg hne, not_not.mp hend, append_nil]
      exact ⟨hne, rfl⟩

end Arbor
