import Mathlib.Data.Fintype.Fin
import Arbor.State.TrieDecode

/-!
# The trie as a tree

The nodes of a built trie form a tree of leaves, extensions and branches.  This module
gives the tree its encoding, the entries below a path and the encodings it consists of,
and shows that an encoded node is read back as the node it is (`decodeNode_encode`).
Under a hash without collisions the encoding determines the tree (`encode_inj`).
-/

namespace Arbor

open Result BigEndian List Rlp

namespace Trie

inductive Tree where
  | empty
  | leaf (path : List Nibble) (value : Bytes)
  | extension (path : List Nibble) (child : Tree)
  | branch (children : Fin 16 → Tree)

namespace Tree

/-- The nibble a branch's child stands for. -/
def nibble (i : Fin 16) : Nibble := BitVec.ofNat 4 i

def entries : Tree → List Nibble → List Entry
  | empty, _ => []
  | leaf path value, above => [(above ++ path, value)]
  | extension path child, above => child.entries (above ++ path)
  | branch children, above =>
    (List.finRange 16).flatMap fun i => (children i).entries (above ++ [nibble i])

/-- No vector of bytes has more: its capacity is an `isize`. -/
def VALUE_LIMIT : Nat := 2 ^ 63

/-- What a built tree of keys with `n` nibbles satisfies: extension paths are not empty, and
every leaf holds at least the last `tail` nibbles of its key. -/
def Valid (tail : Nat) : Nat → Tree → Prop
  | _, empty => True
  | n, leaf path value => tail ≤ path.length ∧ path.length = n ∧ n ≤ 64 ∧ value.length < VALUE_LIMIT
  | n, extension path child =>
    path ≠ [] ∧ path.length ≤ n ∧ n ≤ 64 ∧ child ≠ empty ∧ child.Valid tail (n - path.length)
  | n, branch children =>
    0 < n ∧ n ≤ 64 ∧ (∃ i, children i ≠ empty) ∧ ∀ i, (children i).Valid tail (n - 1)

theorem length_encodeString_le (payload : Bytes) :
    (encodeString payload).length ≤ 9 + payload.length := by
  have hle := (length_encodeLength_le 0x80 payload.length).2
  unfold encodeString
  split
  · rename_i byte
    split
    · simp
    · exact Nat.add_le_add_right hle 1
  · rw [length_append]
    omega

theorem length_le_encodeString (payload : Bytes) :
    payload.length ≤ (encodeString payload).length := by
  unfold encodeString
  split
  · split <;> simp
  · simp

variable {path : List Nibble}

theorem decodeNode_short {leaf : Bool} {second : EncodedItem} {item : RlpItem}
    (hitem : ReadsItem second.encode item)
    (hlen : ([EncodedItem.bytes (compactEncode path leaf), second].flatMap
      EncodedItem.encode).length < PAYLOAD_LIMIT) :
    decodeNode (encodeItems [.bytes (compactEncode path leaf), second])
      = decodeShort ⟨encodeString (compactEncode path leaf), compactEncode path leaf, false⟩
          item := by
  have hpath : (compactEncode path leaf).length < PAYLOAD_LIMIT := by
    have hle := length_le_encodeString (compactEncode path leaf)
    simp only [flatMap_cons, length_append, EncodedItem.encode] at hlen
    omega
  have hitems : Forall₂ (fun bytes item => ReadsItem bytes.encode item)
      [EncodedItem.bytes (compactEncode path leaf), second]
      [⟨encodeString (compactEncode path leaf), compactEncode path leaf, false⟩, item] :=
    .cons (readsItem_encodeString _ hpath) (.cons hitem .nil)
  rw [decodeNode, decodeRlpList_encodeItems hitems hlen, ok_bind]

theorem readsItem_bytes {payload : Bytes} (hlen : payload.length < PAYLOAD_LIMIT) :
    ReadsItem (EncodedItem.bytes payload).encode ⟨encodeString payload, payload, false⟩ :=
  readsItem_encodeString payload hlen

theorem decodeNode_leafItems {value : Bytes} (hpath : path ≠ [])
    (hlen : ([EncodedItem.bytes (compactEncode path true), .bytes value].flatMap
      EncodedItem.encode).length < PAYLOAD_LIMIT) :
    decodeNode (encodeItems [.bytes (compactEncode path true), .bytes value])
      = .ok (.leaf path value) := by
  have hvalue : value.length < PAYLOAD_LIMIT := by
    have hle := length_le_encodeString value
    simp only [flatMap_cons, length_append, EncodedItem.encode] at hlen
    omega
  rw [decodeNode_short (readsItem_bytes hvalue) hlen, decodeShort]
  simp [compactDecode_compactEncode, hpath]

/-- An item that is read as a reference to a child, or to none. -/
def ReadsChild (encoded : EncodedItem) (child : Option ChildReference) : Prop :=
  ∃ item, ReadsItem encoded.encode item ∧ decodeChild item = .ok child

theorem decodeNode_extensionItems {second : EncodedItem}
    {child : ChildReference} (hpath : path ≠ []) (hchild : ReadsChild second (some child))
    (hlen : ([EncodedItem.bytes (compactEncode path false), second].flatMap
      EncodedItem.encode).length < PAYLOAD_LIMIT) :
    decodeNode (encodeItems [.bytes (compactEncode path false), second])
      = .ok (.extension path child) := by
  obtain ⟨item, hitem, hread⟩ := hchild
  rw [decodeNode_short hitem hlen, decodeShort]
  simp [compactDecode_compactEncode, hpath, hread]

variable {children : List (Option ChildReference)} {encoded : List EncodedItem}

/-- Items that are read as children, each by itself. -/
theorem exists_readsItems_children (h : Forall₂ ReadsChild encoded children) :
    ∃ items, Forall₂ (fun bytes item => ReadsItem bytes.encode item) encoded items ∧
      mapAll decodeChild items = .ok children := by
  induction h with
  | nil => exact ⟨[], .nil, rfl⟩
  | cons hchild _ ih =>
    obtain ⟨item, hitem, hread⟩ := hchild
    obtain ⟨items, hitems, hreads⟩ := ih
    exact ⟨item :: items, .cons hitem hitems, by rw [mapAll, hread, ok_bind, hreads]; rfl⟩

theorem decodeNode_branchItems (h : Forall₂ ReadsChild encoded children)
    (hcount : encoded.length = 16)
    (hlen : ((encoded ++ [EncodedItem.bytes []]).flatMap EncodedItem.encode).length
      < PAYLOAD_LIMIT) :
    decodeNode (encodeItems (encoded ++ [.bytes []])) = .ok (.branch children) := by
  obtain ⟨items, hitems, hreads⟩ := exists_readsItems_children h
  have hlast : ReadsItem (EncodedItem.bytes []).encode _ := readsItem_bytes (by decide)
  have hlength : items.length = 16 := hitems.length_eq.symm.trans hcount
  rw [decodeNode, decodeRlpList_encodeItems (rel_append hitems (.cons hlast .nil)) hlen, ok_bind]
  split
  · rename_i hshort
    have htwo := congrArg length hshort
    rw [length_append, hlength] at htwo
    cases htwo
  · rw [take_left' hlength, hreads, length_append, hlength]
    simp [getLastD_eq_getLast?]

/-- How a child is referred to once it is read. -/
def builtReference (child : BuiltNode) : ChildReference :=
  if child.encoded.length < 32 then .embedded child.encoded else .hash child.hash

/-- The reference to a node is read back. -/
theorem readsChild_childItem {child : BuiltNode} {items : List EncodedItem}
    (h : child.encoded = encodeItems items) :
    ReadsChild (childItem child) (some (builtReference child)) := by
  unfold childItem builtReference
  by_cases hshort : child.encoded.length < 32
  · rw [if_pos hshort, if_pos hshort]
    rw [h] at hshort ⊢
    have hlong := hshort
    rw [encodeItems, encodeList, length_append] at hlong
    refine ⟨_, readsItem_encodeList (by rw [PAYLOAD_LIMIT]; omega), ?_⟩
    exact if_neg (Nat.not_le.mpr hshort)
  · rw [if_neg hshort, if_neg hshort]
    have hwidth : (toBytes child.hash).length = 32 := length_toBytes _
    have hnonempty : toBytes child.hash ≠ [] := ne_nil_of_length_pos (by omega)
    refine ⟨_, readsItem_bytes (by rw [hwidth]; decide), ?_⟩
    rw [decodeChild, if_neg (by simp), if_neg hnonempty, if_pos hwidth, ofBytes_toBytes (by decide)]

section Encoding

variable [Keccak]

variable {tail n : Nat}

/-- How a parent refers to an encoded child. -/
def reference (encoded : Bytes) : EncodedItem := childItem ⟨encoded, keccak256 encoded⟩

def encode : Tree → Bytes
  | empty => Rlp.encodeString []
  | leaf path value => encodeItems [.bytes (compactEncode path true), .bytes value]
  | extension path child =>
    encodeItems [.bytes (compactEncode path false), reference child.encode]
  | branch children =>
    encodeItems (((List.finRange 16).map fun i => reference (children i).encode) ++ [.bytes []])

def nodes : Tree → List Bytes
  | empty => []
  | leaf path value => [(leaf path value).encode]
  | extension path child => child.nodes ++ [(extension path child).encode]
  | branch children =>
    ((List.finRange 16).flatMap fun i => (children i).nodes) ++ [(branch children).encode]

/-- The encodings that the nodes below the root are found by, in the order of a walk. -/
def followed : Tree → List Bytes
  | empty => []
  | leaf _ _ => []
  | extension _ child => (if child.encode.length < 32 then [] else [child.encode]) ++ child.followed
  | branch children => (List.finRange 16).flatMap fun i =>
    (if (children i).encode.length < 32 then [] else [(children i).encode]) ++ (children i).followed

/-- The same with the root, if it is not embedded. -/
def reached (t : Tree) : List Bytes :=
  (if t.encode.length < 32 then [] else [t.encode]) ++ t.followed

theorem followed_branch (children : Fin 16 → Tree) :
    (branch children).followed = (finRange 16).flatMap fun i => (children i).reached := rfl

def childReference (t : Tree) : ChildReference :=
  if t.encode.length < 32 then .embedded t.encode else .hash (keccak256 t.encode)

def child : Tree → Option ChildReference
  | empty => none
  | t => some t.childReference

def decoded : Tree → DecodedNode
  | empty => .branch []
  | leaf path value => .leaf path value
  | extension path child => .extension path child.childReference
  | branch children => .branch ((List.finRange 16).map fun i => (children i).child)

/-! ## Reading nodes back -/

theorem length_reference_le (encoded : Bytes) : (reference encoded).encode.length ≤ 41 := by
  unfold reference childItem
  split
  · rename_i hshort
    exact le_of_lt (lt_of_lt_of_le hshort (by decide))
  · have hle := length_encodeString_le (toBytes (keccak256 encoded))
    rwa [length_toBytes] at hle

def items : Tree → List EncodedItem
  | empty => []
  | leaf path value => [.bytes (compactEncode path true), .bytes value]
  | extension path child => [.bytes (compactEncode path false), reference child.encode]
  | branch children =>
    ((List.finRange 16).map fun i => reference (children i).encode) ++ [.bytes []]

variable {t : Tree}

theorem encode_eq_encodeItems (hne : t ≠ empty) : t.encode = encodeItems t.items := by
  cases t with
  | empty => exact absurd rfl hne
  | leaf path value => rfl
  | extension path child => rfl
  | branch children => rfl

/-- The payload of a node is far below the reader's limit. -/
theorem length_items_lt (hvalid : t.Valid tail n) :
    (t.items.flatMap EncodedItem.encode).length < PAYLOAD_LIMIT := by
  cases t with
  | empty => exact Nat.lt_of_lt_of_le (Nat.two_pow_pos 63) (Nat.le_add_right _ _)
  | leaf path value =>
    obtain ⟨_, hlength, hsize, hvalue⟩ := hvalid
    have hpath := length_encodeString_le (compactEncode path true)
    have hval := length_encodeString_le value
    rw [length_compactEncode] at hpath
    simp only [items, flatMap_cons, flatMap_nil, append_nil, length_append,
      EncodedItem.encode, PAYLOAD_LIMIT]
    unfold VALUE_LIMIT at hvalue
    omega
  | extension path child =>
    obtain ⟨_, hlength, hsize, _, _⟩ := hvalid
    have hpath := length_encodeString_le (compactEncode path false)
    have href := length_reference_le child.encode
    rw [length_compactEncode] at hpath
    simp only [items, flatMap_cons, flatMap_nil, append_nil, length_append,
      EncodedItem.encode, PAYLOAD_LIMIT]
    change _ + (reference child.encode).encode.length < _
    omega
  | branch children =>
    have hsum : ∀ l : List (Fin 16),
        ((l.map fun i => reference (children i).encode).flatMap EncodedItem.encode).length
          ≤ 41 * l.length := by
      intro l
      induction l with
      | nil => simp
      | cons i l ih =>
        have href := length_reference_le (children i).encode
        rw [map_cons, flatMap_cons, length_append, length_cons]
        omega
    have hall := hsum (finRange 16)
    have hlast : (encodeString []).length ≤ 9 := length_encodeString_le []
    rw [length_finRange] at hall
    rw [items, flatMap_append, length_append]
    simp only [flatMap_cons, flatMap_nil, append_nil, EncodedItem.encode, PAYLOAD_LIMIT]
    omega

theorem encode_empty : empty.encode = [0x80] := rfl

theorem child_eq_some (hne : t ≠ empty) : t.child = some t.childReference := by
  cases t with
  | empty => exact absurd rfl hne
  | leaf path value => rfl
  | extension path child => rfl
  | branch children => rfl

/-- How a child is read in its parent. -/
theorem readsChild_reference (t : Tree) : ReadsChild (reference t.encode) t.child := by
  by_cases hempty : t = empty
  · rw [hempty]
    exact ⟨_, readsItem_encodeString [] (by decide), rfl⟩
  · rw [child_eq_some hempty]
    exact readsChild_childItem (encode_eq_encodeItems hempty)

theorem readsChildren (children : Fin 16 → Tree) :
    Forall₂ ReadsChild ((finRange 16).map fun i => reference (children i).encode)
      ((finRange 16).map fun i => (children i).child) := by
  rw [forall₂_map_left_iff, forall₂_map_right_iff, forall₂_same]
  exact fun i _ => readsChild_reference (children i)

/-- Every item of a node is read by itself. -/
theorem exists_readsItems (hvalid : t.Valid tail n) :
    ∃ items, Forall₂ (fun bytes item => ReadsItem bytes.encode item) t.items items := by
  have hlen := length_items_lt hvalid
  cases t with
  | empty => exact ⟨[], .nil⟩
  | leaf path value =>
    have hpath := length_le_encodeString (compactEncode path true)
    have hvalue := length_le_encodeString value
    simp only [items, flatMap_cons, flatMap_nil, append_nil, length_append,
      EncodedItem.encode] at hlen
    exact ⟨_, .cons (readsItem_encodeString _ (by omega))
      (.cons (readsItem_encodeString _ (by omega)) .nil)⟩
  | extension path child =>
    have hpath := length_le_encodeString (compactEncode path false)
    obtain ⟨item, hitem, _⟩ := readsChild_reference child
    simp only [items, flatMap_cons, flatMap_nil, append_nil, length_append,
      EncodedItem.encode] at hlen
    exact ⟨_, .cons (readsItem_encodeString _ (by omega)) (.cons hitem .nil)⟩
  | branch children =>
    obtain ⟨items, hitems, _⟩ := exists_readsItems_children (readsChildren children)
    exact ⟨_, rel_append hitems (.cons (readsItem_bytes (by decide)) .nil)⟩

theorem decodeNode_leaf (htail : 0 < tail) {path : List Nibble} {value : Bytes}
    (hvalid : (leaf path value).Valid tail n) :
    decodeNode (leaf path value).encode = .ok (.leaf path value) :=
  decodeNode_leafItems (ne_nil_of_length_pos (htail.trans_le hvalid.1)) (length_items_lt hvalid)

theorem decodeNode_extension {path : List Nibble} {child : Tree}
    (hvalid : (extension path child).Valid tail n) :
    decodeNode (extension path child).encode = .ok (.extension path child.childReference) := by
  have hpayload := length_items_lt hvalid
  obtain ⟨hpath, _, _, hne, _⟩ := hvalid
  have hread := readsChild_reference child
  rw [child_eq_some hne] at hread
  exact decodeNode_extensionItems hpath hread hpayload

theorem decodeNode_branch {children : Fin 16 → Tree} (hvalid : (branch children).Valid tail n) :
    decodeNode (branch children).encode
      = .ok (.branch ((finRange 16).map fun i => (children i).child)) :=
  decodeNode_branchItems (readsChildren children) (by simp) (length_items_lt hvalid)

/-- **Nodes are read back**, if every leaf has a path: the reader refuses an empty one. -/
theorem decodeNode_encode (htail : 0 < tail) (hvalid : t.Valid tail n) (hne : t ≠ empty) :
    decodeNode t.encode = .ok t.decoded := by
  cases t with
  | empty => exact absurd rfl hne
  | leaf path value => exact decodeNode_leaf htail hvalid
  | extension path child => exact decodeNode_extension hvalid
  | branch children => exact decodeNode_branch hvalid

theorem decodeNode_empty :
    decodeNode empty.encode = .error (.malformedRlp "expected one exact list") :=
  rfl

/-! ## Encodings determine trees -/

theorem items_inj {tail' m : Nat} {u : Tree} (ht : t.Valid tail n) (hu : u.Valid tail' m)
    (htne : t ≠ empty) (hune : u ≠ empty) (h : t.encode = u.encode) :
    t.items.map EncodedItem.encode = u.items.map EncodedItem.encode := by
  have hread : ∀ {tail n : Nat} {t : Tree}, t.Valid tail n → t ≠ empty →
      ∃ items, decodeRlpList t.encode = .ok items ∧
        items.map RlpItem.raw = t.items.map EncodedItem.encode := by
    intro tail n t hvalid hne
    obtain ⟨items, hitems⟩ := exists_readsItems hvalid
    refine ⟨items, ?_, ?_⟩
    · rw [encode_eq_encodeItems hne]
      exact decodeRlpList_encodeItems hitems (length_items_lt hvalid)
    · exact map_raw_eq hitems
  obtain ⟨items, hdecode, hraw⟩ := hread ht htne
  obtain ⟨items', hdecode', hraw'⟩ := hread hu hune
  rw [h, hdecode'] at hdecode
  rw [← hraw, ← hraw', Except.ok.inj hdecode]

theorem reference_inj {P : Set Bytes} (hP : Set.InjOn keccak256 P) {u : Tree}
    (ht : ∀ e ∈ t.reached, e ∈ P) (hu : ∀ e ∈ u.reached, e ∈ P)
    (h : (reference t.encode).encode = (reference u.encode).encode) : t.encode = u.encode := by
  have hraw : ∀ e : Bytes, e.length < 32 → (reference e).encode = e := by
    intro e hshort
    rw [reference, childItem, if_pos hshort, EncodedItem.encode]
  have hhash : ∀ e : Bytes, ¬e.length < 32 →
      (reference e).encode = encodeString (toBytes (keccak256 e)) := by
    intro e hlong
    rw [reference, childItem, if_neg hlong, EncodedItem.encode]
  -- a hash makes 33 bytes, so it is not taken for an embedded node
  have hwide : ∀ e : Bytes, 32 ≤ (encodeString (toBytes (keccak256 e))).length := by
    intro e
    have hle := length_le_encodeString (toBytes (keccak256 e))
    rwa [length_toBytes] at hle
  have hlimit : ∀ e : Bytes, (toBytes (keccak256 e)).length < PAYLOAD_LIMIT := by
    intro e
    rw [length_toBytes]
    decide
  by_cases hshort : t.encode.length < 32
  · by_cases hother : u.encode.length < 32
    · rwa [hraw _ hshort, hraw _ hother] at h
    · rw [hraw _ hshort, hhash _ hother] at h
      rw [h] at hshort
      exact absurd hshort (Nat.not_lt.mpr (hwide _))
  · by_cases hother : u.encode.length < 32
    · rw [hhash _ hshort, hraw _ hother] at h
      rw [← h] at hother
      exact absurd hother (Nat.not_lt.mpr (hwide _))
    · rw [hhash _ hshort, hhash _ hother] at h
      have htP : t.encode ∈ P := ht _ (by simp [reached, hshort])
      have huP : u.encode ∈ P := hu _ (by simp [reached, hother])
      exact hP htP huP (toBytes_injective (by decide) (encodeString_inj (hlimit _) (hlimit _) h))

theorem mem_reached_of_mem_followed {e : Bytes} (h : e ∈ t.followed) : e ∈ t.reached :=
  mem_append_right _ h

theorem mem_followed_branch {children : Fin 16 → Tree} {i : Fin 16} {e : Bytes}
    (h : e ∈ (children i).reached) : e ∈ (branch children).followed := by
  rw [followed_branch, mem_flatMap]
  exact ⟨i, mem_finRange i, h⟩

/-- The empty string is not the encoding of a node. -/
theorem eq_empty_of_encode (hvalid : t.Valid tail n) (h : t.encode = empty.encode) : t = empty := by
  by_contra hne
  obtain ⟨items, hitems⟩ := exists_readsItems hvalid
  have hread := decodeRlpList_encodeItems hitems (length_items_lt hvalid)
  rw [← encode_eq_encodeItems hne, h] at hread
  cases hread

theorem encode_inj {P : Set Bytes} (hP : Set.InjOn keccak256 P) :
    ∀ {u : Tree} {tail tail' n m : Nat}, t.Valid tail n → u.Valid tail' m →
      (∀ e ∈ t.followed, e ∈ P) → (∀ e ∈ u.followed, e ∈ P) → t.encode = u.encode → t = u := by
  induction t with
  | empty =>
    intro u tail tail' n m _ hu _ _ h
    exact (eq_empty_of_encode hu h.symm).symm
  | leaf path value =>
    intro u tail tail' n m ht hu _ _ h
    have hpath : path.length ≤ 64 := ht.2.1 ▸ ht.2.2.1
    cases u with
    | empty => exact eq_empty_of_encode ht h
    | leaf path' value' =>
      have hpath' : path'.length ≤ 64 := hu.2.1 ▸ hu.2.2.1
      have hitems := items_inj ht hu nofun nofun h
      obtain ⟨hfirst, hrest⟩ := cons.inj hitems
      have hvalues : value.length < PAYLOAD_LIMIT ∧ value'.length < PAYLOAD_LIMIT :=
        ⟨lt_trans ht.2.2.2 (by decide), lt_trans hu.2.2.2 (by decide)⟩
      rw [encodeString_inj hvalues.1 hvalues.2 (cons.inj hrest).1,
        (compactEncode_inj (encodeString_inj (length_compactEncode_lt hpath _)
          (length_compactEncode_lt hpath' _) hfirst)).1]
    | extension path' child' =>
      have hpath' : path'.length ≤ 64 := le_trans hu.2.1 hu.2.2.1
      have hitems := items_inj ht hu nofun nofun h
      have hflag := (compactEncode_inj (encodeString_inj (length_compactEncode_lt hpath _)
        (length_compactEncode_lt hpath' _) (cons.inj hitems).1)).2
      cases hflag
    | branch children' =>
      have hcount := congrArg length (items_inj ht hu nofun nofun h)
      simp [items] at hcount
  | extension path child ih =>
    intro u tail tail' n m ht hu htP huP h
    have hpath : path.length ≤ 64 := le_trans ht.2.1 ht.2.2.1
    cases u with
    | empty => exact eq_empty_of_encode ht h
    | leaf path' value' =>
      have hpath' : path'.length ≤ 64 := hu.2.1 ▸ hu.2.2.1
      have hitems := items_inj ht hu nofun nofun h
      have hflag := (compactEncode_inj (encodeString_inj (length_compactEncode_lt hpath _)
        (length_compactEncode_lt hpath' _) (cons.inj hitems).1)).2
      cases hflag
    | extension path' child' =>
      have hpath' : path'.length ≤ 64 := le_trans hu.2.1 hu.2.2.1
      obtain ⟨hfirst, hrest⟩ := cons.inj (items_inj ht hu nofun nofun h)
      have hencode := reference_inj hP htP huP (cons.inj hrest).1
      have hchild : child = child' :=
        ih ht.2.2.2.2 hu.2.2.2.2 (fun e he => htP e (mem_reached_of_mem_followed he))
          (fun e he => huP e (mem_reached_of_mem_followed he)) hencode
      rw [hchild, (compactEncode_inj (encodeString_inj (length_compactEncode_lt hpath _)
        (length_compactEncode_lt hpath' _) hfirst)).1]
    | branch children' =>
      have hcount := congrArg length (items_inj ht hu nofun nofun h)
      simp [items] at hcount
  | branch children ih =>
    intro u tail tail' n m ht hu htP huP h
    cases u with
    | empty => exact eq_empty_of_encode ht h
    | leaf path' value' =>
      have hcount := congrArg length (items_inj ht hu nofun nofun h)
      simp [items] at hcount
    | extension path' child' =>
      have hcount := congrArg length (items_inj ht hu nofun nofun h)
      simp [items] at hcount
    | branch children' =>
      have hitems := items_inj ht hu nofun nofun h
      rw [items, items, map_append, map_append] at hitems
      have hrefs := append_cancel_right hitems
      rw [map_map, map_map] at hrefs
      congr 1
      funext i
      have hti : ∀ e ∈ (children i).reached, e ∈ P := fun e he => htP e (mem_followed_branch he)
      have hui : ∀ e ∈ (children' i).reached, e ∈ P := fun e he => huP e (mem_followed_branch he)
      have hencode := reference_inj hP hti hui
        (map_inj_left.mp hrefs i (mem_finRange i))
      exact ih i (ht.2.2.2 i) (hu.2.2.2 i)
        (fun e he => hti e (mem_reached_of_mem_followed he))
        (fun e he => hui e (mem_reached_of_mem_followed he)) hencode

end Encoding

end Tree

end Trie

end Arbor
