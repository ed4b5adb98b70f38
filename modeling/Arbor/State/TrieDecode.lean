import Arbor.State.Trie

/-!
# Reading encoded items back

The trie has an RLP reader of its own.  It returns every item that `encodeItems` wrote,
with its bytes (`decodeRlpList_encodeItems`), and accepts nothing but canonical items
(`canonical_of_decodeRlpList`); the same holds of compact paths.
-/

namespace Arbor

open Result BigEndian Rlp List

namespace Trie

variable {n : Nat} {payload : Bytes} {items : List RlpItem}

/-! ## Items -/

theorem decodeRlpLength_digits (hn : n < 256 ^ 8) (code : Byte) (tail : Bytes) :
    decodeRlpLength (code :: (digits 8 n ++ tail)) (digits 8 n).length = .ok n := by
  have hle := length_digits_le 8 n
  have hbytes : ((code :: (digits 8 n ++ tail)).drop 1).take (digits 8 n).length
      = digits 8 n := by
    rw [drop_one, tail_cons, take_left']
    rfl
  have hlong : ¬(code :: (digits 8 n ++ tail)).length < 1 + (digits 8 n).length := by
    rw [length_cons, length_append]
    omega
  have hcanonical : ¬((digits 8 n).head? = some 0 ∨ 8 < (digits 8 n).length) := by
    rw [not_or]
    exact ⟨head?_digits_ne_zero 8 n, by omega⟩
  rw [decodeRlpLength, rejectIf_neg hlong, ok_bind]
  simp only [hbytes]
  rw [rejectIf_neg hcanonical, ok_bind, beNat_digits hn]
  rfl

variable (list : Bool)

theorem decodeRlpHeader_short (hn : n < 56) (input : Bytes) :
    decodeRlpHeader input (baseCode list + n) = .ok (list, 1, n) := by
  unfold decodeRlpHeader
  cases list with
  | true =>
    have hbase : baseCode true = 0xc0 := rfl
    rw [hbase, if_neg (by omega), if_neg (by omega), if_neg (by omega), if_pos (by omega),
      Nat.add_sub_cancel_left]
  | false =>
    have hbase : baseCode false = 0x80 := rfl
    rw [hbase, if_neg (by omega), if_pos (by omega), Nat.add_sub_cancel_left]

theorem decodeRlpHeader_long (hbig : 56 ≤ n) (hn : n < 256 ^ 8) (code : Byte)
    (tail : Bytes) : decodeRlpHeader (code :: (digits 8 n ++ tail))
        (baseCode list + 55 + (digits 8 n).length)
      = .ok (list, 1 + (digits 8 n).length, n) := by
  have hle := length_digits_le 8 n
  have hpos : 0 < (digits 8 n).length :=
    length_pos_iff.mpr (digits_ne_nil hn (by omega))
  have hlength := decodeRlpLength_digits hn code tail
  have hminimal : ¬n < 56 := by omega
  unfold decodeRlpHeader
  cases list with
  | true =>
    have hbase : baseCode true + 55 = 0xf7 := rfl
    rw [hbase, if_neg (by omega), if_neg (by omega), if_neg (by omega), if_neg (by omega),
      Nat.add_sub_cancel_left, hlength, ok_bind, rejectIf_neg hminimal, ok_bind]
    rfl
  | false =>
    have hbase : baseCode false + 55 = 0xb7 := rfl
    rw [hbase, if_neg (by omega), if_neg (by omega), if_pos (by omega),
      Nat.add_sub_cancel_left, hlength, ok_bind, rejectIf_neg hminimal, ok_bind]
    rfl

theorem length_encodeLength_le (base n : Nat) :
    0 < (encodeLength base n).length ∧ (encodeLength base n).length ≤ 9 := by
  have hle := length_digits_le 8 n
  unfold encodeLength
  split
  · simp
  · rw [length_cons]
    omega

theorem decodeRlpHeader_encodeLength (hn : n < 256 ^ 8) (tail : Bytes) :
    ∃ code rest, encodeLength (baseCode list) n = code :: rest ∧
      decodeRlpHeader (code :: (rest ++ tail)) code.toNat
        = .ok (list, (encodeLength (baseCode list) n).length, n) ∧
      (code = 0x81 → list = false ∧ n = 1) := by
  have hle := length_digits_le 8 n
  have hbase : (list = true ∧ baseCode list = 0xc0) ∨
      (list = false ∧ baseCode list = 0x80) := by
    cases list
    · exact Or.inr ⟨rfl, rfl⟩
    · exact Or.inl ⟨rfl, rfl⟩
  unfold encodeLength
  by_cases hshort : n < 56
  · have hcode : (BitVec.ofNat 8 (baseCode list + n)).toNat = baseCode list + n :=
      toNat_code (by omega)
    rw [if_pos hshort]
    refine ⟨_, [], rfl, ?_, ?_⟩
    · rw [hcode]
      exact decodeRlpHeader_short list hshort _
    · intro h81
      have hnat : baseCode list + n = 0x81 := hcode ▸ congrArg BitVec.toNat h81
      rcases hbase with ⟨_, hlist⟩ | ⟨hstring, hlist⟩
      · omega
      · exact ⟨hstring, by omega⟩
  · have hcode : (BitVec.ofNat 8 (baseCode list + 55 + (digits 8 n).length)).toNat
        = baseCode list + 55 + (digits 8 n).length :=
      toNat_code (by omega)
    rw [if_neg hshort]
    refine ⟨_, digits 8 n, rfl, ?_, ?_⟩
    · rw [hcode, length_cons, Nat.add_comm (digits 8 n).length 1]
      exact decodeRlpHeader_long list (by omega) hn _ tail
    · intro h81
      have hnat : baseCode list + 55 + (digits 8 n).length = 0x81 :=
        hcode ▸ congrArg BitVec.toNat h81
      omega

/-- Payloads the reader takes: a vector of bytes has fewer than `2 ^ 63`, and the rest is
room for what a node adds to a value. -/
def PAYLOAD_LIMIT : Nat := 2 ^ 63 + 2 ^ 10

section

variable (hlen : payload.length < PAYLOAD_LIMIT)
include hlen

theorem decodeRlpItem_encodeLength
    (hsingle : list = false → ∀ byte, payload = [byte] → 0x80 ≤ byte.toNat) (rest : Bytes) :
    decodeRlpItem (encodeLength (baseCode list) payload.length ++ payload ++ rest)
      = .ok ⟨encodeLength (baseCode list) payload.length ++ payload, payload, list⟩ := by
  have hlimit : payload.length < 2 ^ 63 + 2 ^ 10 := hlen
  obtain ⟨code, tail, hcode, hheader, h81⟩ :=
    decodeRlpHeader_encodeLength list (show payload.length < 256 ^ 8 by omega) (payload ++ rest)
  have hshort := length_encodeLength_le (baseCode list) payload.length
  have hinput : encodeLength (baseCode list) payload.length ++ payload ++ rest
      = code :: (tail ++ (payload ++ rest)) := by
    rw [hcode, append_assoc]
    rfl
  have hraw : (code :: (tail ++ (payload ++ rest))).take
      ((encodeLength (baseCode list) payload.length).length + payload.length)
      = encodeLength (baseCode list) payload.length ++ payload := by
    rw [← hinput, ← length_append, take_left']
    rfl
  have hoverflow : ¬2 ^ 64 ≤ (encodeLength (baseCode list) payload.length).length
      + payload.length := by omega
  have htruncated : ¬(code :: (tail ++ (payload ++ rest))).length
      < (encodeLength (baseCode list) payload.length).length + payload.length := by
    rw [← hinput, length_append, length_append]
    omega
  have hminimal : ¬(code = 0x81 ∧ (payload.head?.any fun byte => byte.toNat < 0x80) = true) := by
    intro h
    obtain ⟨hcode81, hhead⟩ := h
    obtain ⟨hstring, hone⟩ := h81 hcode81
    obtain ⟨byte, hbyte⟩ := length_eq_one_iff.mp hone
    have hbig := hsingle hstring byte hbyte
    rw [hbyte] at hhead
    simp at hhead
    omega
  rw [hinput, decodeRlpItem, head?_cons]
  simp only [hheader, ok_bind, hraw, drop_left, rejectIf_neg hoverflow,
    rejectIf_neg htruncated, rejectIf_neg hminimal, pure_eq]

/-- **Strings.**  An encoded string is read back with its bytes. -/
theorem decodeRlpItem_encodeString (rest : Bytes) : decodeRlpItem (encodeString payload ++ rest)
      = .ok ⟨encodeString payload, payload, false⟩ := by
  unfold encodeString
  split
  · rename_i byte
    by_cases hbyte : byte.toNat < 0x80
    · have h81 : ¬byte = 129#8 := by
        intro h
        rw [h] at hbyte
        exact absurd hbyte (by decide)
      rw [if_pos hbyte, decodeRlpItem, singleton_append, head?_cons]
      simp [decodeRlpHeader, hbyte, h81]
    · rw [if_neg hbyte]
      refine decodeRlpItem_encodeLength false hlen (fun _ other hother => ?_) rest
      obtain rfl : byte = other := by simpa using hother
      omega
  · rename_i hne
    exact decodeRlpItem_encodeLength false hlen (fun _ byte hbyte => absurd hbyte (hne byte)) rest

/-- **Lists.** -/
theorem decodeRlpItem_encodeList (rest : Bytes) :
    decodeRlpItem (encodeList payload ++ rest) = .ok ⟨encodeList payload, payload, true⟩ :=
  decodeRlpItem_encodeLength true hlen nofun rest

end

/-- Bytes that are read as one item, whatever follows. -/
structure ReadsItem (encoded : Bytes) (item : RlpItem) : Prop where
  nonempty : encoded ≠ []
  raw : item.raw = encoded
  reads : ∀ rest, decodeRlpItem (encoded ++ rest) = .ok item

theorem encodeLength_ne_nil (base n : Nat) : encodeLength base n ≠ [] :=
  ne_nil_of_length_pos (length_encodeLength_le base n).1

theorem readsItem_encodeString (payload : Bytes) (hlen : payload.length < PAYLOAD_LIMIT) :
    ReadsItem (encodeString payload) ⟨encodeString payload, payload, false⟩ := by
  refine ⟨?_, rfl, decodeRlpItem_encodeString hlen⟩
  unfold encodeString
  split
  · split
    · simp
    · simp
  · simp [encodeLength_ne_nil]

theorem readsItem_encodeList (hlen : payload.length < PAYLOAD_LIMIT) :
    ReadsItem (encodeList payload) ⟨encodeList payload, payload, true⟩ :=
  ⟨by simp [encodeList, listHeader, encodeLength_ne_nil], rfl, decodeRlpItem_encodeList hlen⟩

theorem encodeString_inj {a b : Bytes} (ha : a.length < PAYLOAD_LIMIT)
    (hb : b.length < PAYLOAD_LIMIT) (h : encodeString a = encodeString b) : a = b := by
  have hread := decodeRlpItem_encodeString ha []
  rw [h, decodeRlpItem_encodeString hb] at hread
  cases hread
  rfl

variable {encoded : List EncodedItem}

theorem map_raw_eq (h : Forall₂ (fun bytes item => ReadsItem bytes.encode item) encoded items) :
    items.map RlpItem.raw = encoded.map EncodedItem.encode := by
  induction h with
  | nil => rfl
  | cons hitem _ ih => rw [map_cons, map_cons, hitem.raw, ih]

/-- A sequence of items is read back in order. -/
theorem decodeRlpItems_flatten {encoded : List Bytes} (h : Forall₂ ReadsItem encoded items) :
    ∀ {fuel : Nat}, encoded.flatten.length ≤ fuel →
      decodeRlpItems fuel encoded.flatten = .ok items := by
  induction h with
  | nil =>
    intro fuel _
    cases fuel <;> rfl
  | @cons bytes item rest items hread _ ih =>
    intro fuel hfuel
    rw [flatten_cons, length_append] at hfuel
    have hpos : 0 < bytes.length := length_pos_iff.mpr hread.nonempty
    cases fuel with
    | zero => omega
    | succ fuel =>
      obtain ⟨byte, tail, hbytes⟩ := exists_cons_of_ne_nil hread.nonempty
      have hitem := hread.reads rest.flatten
      have hdrop : (bytes ++ rest.flatten).drop item.raw.length = rest.flatten := by
        rw [hread.raw, drop_left]
      rw [flatten_cons]
      rw [hbytes, cons_append] at hitem hdrop ⊢
      simp only [decodeRlpItems, hitem, ok_bind, hdrop]
      rw [ih (by omega)]
      rfl

/-- **Lists of items** are read back exactly. -/
theorem decodeRlpList_encodeItems
    (h : Forall₂ (fun bytes item => ReadsItem bytes.encode item) encoded items)
    (hlen : (encoded.flatMap EncodedItem.encode).length < PAYLOAD_LIMIT) :
    decodeRlpList (encodeItems encoded) = .ok items := by
  have htop := decodeRlpItem_encodeList hlen []
  rw [append_nil] at htop
  have hitems : decodeRlpItems (encoded.flatMap EncodedItem.encode).length
      (encoded.flatMap EncodedItem.encode) = .ok items := by
    exact decodeRlpItems_flatten (forall₂_map_left_iff.mpr h) le_rfl
  rw [decodeRlpList, encodeItems, htop, ok_bind, rejectIf_neg (by simp), ok_bind, hitems]

/-- A list of strings is read back as its strings. -/
theorem decodeRlpList_strings {payloads : List Bytes}
    (hlen : (payloads.flatMap encodeString).length < PAYLOAD_LIMIT)
    (hshort : ∀ payload ∈ payloads, payload.length < PAYLOAD_LIMIT) :
    decodeRlpList (encodeList (payloads.flatMap encodeString))
      = .ok (payloads.map fun payload => ⟨encodeString payload, payload, false⟩) := by
  have hitems : Forall₂ (fun bytes item => ReadsItem bytes.encode item)
      (payloads.map EncodedItem.bytes)
      (payloads.map fun payload => ⟨encodeString payload, payload, false⟩) := by
    rw [forall₂_map_left_iff, forall₂_map_right_iff, forall₂_same]
    exact fun payload hmem => readsItem_encodeString payload (hshort payload hmem)
  have hlist := decodeRlpList_encodeItems hitems
  rw [encodeItems, flatMap_map] at hlist
  exact hlist hlen

/-! ## Only canonical items are accepted -/

section Accepted

variable {input : Bytes} {item : RlpItem}

/-- The canonical encoding of an item: its payload behind the shortest length. -/
def RlpItem.canonical (item : RlpItem) : Bytes :=
  if item.list then Rlp.encodeList item.payload else Rlp.encodeString item.payload

theorem decodeRlpLength_eq_ok {k : Nat} (h : decodeRlpLength input k = .ok n) :
    (input.drop 1).take k = digits 8 n ∧ (digits 8 n).length = k := by
  obtain ⟨hlong, h⟩ := check_bind_eq_ok.mp h
  obtain ⟨hcanonical, h⟩ := check_bind_eq_ok.mp h
  cases h
  rw [rejectIf_eq_ok] at hlong hcanonical
  rw [not_or, not_lt] at hcanonical
  have hlength : ((input.drop 1).take k).length = k := by
    rw [length_take, length_drop]
    omega
  have hpad : leftPad 8 ((input.drop 1).take k) = .ok (beNat ((input.drop 1).take k)) := by
    rw [leftPad, hlength, if_neg (by omega), if_neg hcanonical.1]
  have hdigits := (digits_of_leftPad hpad).1
  exact ⟨hdigits, hdigits ▸ hlength⟩

theorem decodeRlpHeader_eq_ok {code : Byte} {tail : Bytes} {list : Bool} {offset : Nat}
    (h : decodeRlpHeader (code :: tail) code.toNat = .ok (list, offset, n)) :
    (code.toNat < 0x80 ∧ list = false ∧ offset = 0 ∧ n = 1) ∨
      (code :: tail).take offset = encodeLength (baseCode list) n ∧ 0 < offset ∧
        (list = false → n = 1 → code = 0x81) := by
  have hshort : ∀ {list : Bool} {n : Nat}, n < 56 → code.toNat = baseCode list + n →
      (code :: tail).take 1 = encodeLength (baseCode list) n := by
    intro list n hn hcode
    rw [encodeLength, if_pos hn, ofNat_code hcode]
    rfl
  have hlong : ∀ {list : Bool} {k n : Nat}, ¬n < 56 → code.toNat = baseCode list + 55 + k →
      decodeRlpLength (code :: tail) k = .ok n →
      (code :: tail).take (1 + k) = encodeLength (baseCode list) n := by
    intro list k n hn hcode hlength
    obtain ⟨hdigits, hk⟩ := decodeRlpLength_eq_ok hlength
    rw [encodeLength, if_neg hn, hk, ofNat_code hcode, Nat.add_comm, take_succ_cons, ← hdigits]
    rfl
  have hstring : baseCode false = 0x80 := rfl
  have hlist : baseCode true = 0xc0 := rfl
  unfold decodeRlpHeader at h
  split at h
  · simp only [Except.ok.injEq, Prod.mk.injEq] at h
    obtain ⟨rfl, rfl, rfl⟩ := h
    exact .inl ⟨by assumption, rfl, rfl, rfl⟩
  split at h
  · simp only [Except.ok.injEq, Prod.mk.injEq] at h
    obtain ⟨rfl, rfl, rfl⟩ := h
    refine .inr ⟨hshort (by omega) (by omega), Nat.one_pos, fun _ hone => ?_⟩
    exact BitVec.eq_of_toNat_eq (show code.toNat = 0x81 by omega)
  split at h
  · obtain ⟨length, hlength, h⟩ := bind_eq_ok.mp h
    obtain ⟨hminimal, h⟩ := check_bind_eq_ok.mp h
    simp only [pure_eq, Except.ok.injEq, Prod.mk.injEq] at h
    obtain ⟨rfl, rfl, rfl⟩ := h
    rw [rejectIf_eq_ok] at hminimal
    exact .inr ⟨hlong hminimal (by omega) hlength, by omega, fun _ hone => by omega⟩
  split at h
  · simp only [Except.ok.injEq, Prod.mk.injEq] at h
    obtain ⟨rfl, rfl, rfl⟩ := h
    exact .inr ⟨hshort (by omega) (by omega), Nat.one_pos, fun hkind => by cases hkind⟩
  · obtain ⟨length, hlength, h⟩ := bind_eq_ok.mp h
    obtain ⟨hminimal, h⟩ := check_bind_eq_ok.mp h
    simp only [pure_eq, Except.ok.injEq, Prod.mk.injEq] at h
    obtain ⟨rfl, rfl, rfl⟩ := h
    rw [rejectIf_eq_ok] at hminimal
    exact .inr ⟨hlong hminimal (by omega) hlength, by omega, fun hkind => by cases hkind⟩

/-- **An accepted item** is canonical, and stands at the front of the input. -/
theorem canonical_of_decodeRlpItem (h : decodeRlpItem input = .ok item) :
    item.raw = item.canonical ∧ item.raw ≠ [] ∧ item.raw <+: input := by
  unfold decodeRlpItem at h
  split at h
  · cases h
  rename_i code hcode
  obtain ⟨tail, rfl⟩ := head?_eq_some_iff.mp hcode
  obtain ⟨⟨list, offset, n⟩, hheader, h⟩ := bind_eq_ok.mp h
  obtain ⟨_, h⟩ := check_bind_eq_ok.mp h
  obtain ⟨hlong, h⟩ := check_bind_eq_ok.mp h
  obtain ⟨hsingle, h⟩ := check_bind_eq_ok.mp h
  cases h
  rw [rejectIf_eq_ok] at hlong hsingle
  have hraw := (take_append_drop offset ((code :: tail).take (offset + n))).symm
  rw [take_take, min_eq_left (Nat.le_add_right _ _)] at hraw
  have hlength : (((code :: tail).take (offset + n)).drop offset).length = n := by
    rw [length_drop, length_take]
    omega
  generalize ((code :: tail).take (offset + n)).drop offset = payload at hraw hlength hsingle ⊢
  subst hlength
  rcases decodeRlpHeader_eq_ok hheader with ⟨hbyte, rfl, rfl, hone⟩ | ⟨hfront, hpos, hone⟩
  · rw [hone] at hraw ⊢
    obtain rfl : [code] = payload := hraw
    exact ⟨(if_pos hbyte).symm, cons_ne_nil _ _, ⟨tail, rfl⟩⟩
  refine ⟨?_, fun hnil => ?_, take_prefix _ _⟩
  · change _ = if list then Rlp.encodeList payload else Rlp.encodeString payload
    rw [hfront] at hraw
    cases list with
    | true => exact hraw
    | false =>
      refine hraw.trans (encodeString_of_big fun hshort => ?_).symm
      obtain ⟨byte, rfl⟩ := length_eq_one_iff.mp hshort
      have hcode := hone rfl hshort
      exact ⟨byte, [], rfl, not_lt.mp fun hlow => hsingle ⟨hcode, decide_eq_true hlow⟩⟩
  · have hzero := congrArg length (hraw.symm.trans hnil)
    rw [length_append, hfront] at hzero
    have hheaderPos := (length_encodeLength_le (baseCode list) payload.length).1
    rw [length_nil] at hzero
    omega

/-- **Accepted items** are canonical and make up the payload. -/
theorem canonical_of_decodeRlpItems {fuel : Nat} (hfuel : payload.length ≤ fuel)
    (h : decodeRlpItems fuel payload = .ok items) :
    payload = items.flatMap RlpItem.raw ∧ ∀ item ∈ items, item.raw = item.canonical := by
  induction fuel generalizing payload items with
  | zero =>
    obtain rfl := length_eq_zero_iff.mp (Nat.le_zero.mp hfuel)
    cases h
    exact ⟨rfl, by simp⟩
  | succ fuel ih =>
    cases payload with
    | nil =>
      cases h
      exact ⟨rfl, by simp⟩
    | cons byte rest =>
      obtain ⟨item, hitem, h⟩ := bind_eq_ok.mp h
      obtain ⟨others, hothers, h⟩ := bind_eq_ok.mp h
      cases h
      obtain ⟨hcanonical, hne, tail, htail⟩ := canonical_of_decodeRlpItem hitem
      have hpos := length_pos_iff.mpr hne
      have hlength := congrArg length htail
      rw [length_append] at hlength
      rw [← htail, drop_left] at hothers
      obtain ⟨hflat, hall⟩ := ih (by omega) hothers
      rw [flatMap_cons, ← hflat]
      exact ⟨htail.symm, forall_mem_cons.mpr ⟨hcanonical, hall⟩⟩

/-- **An accepted list** is the canonical list of its fields, which are canonical. -/
theorem canonical_of_decodeRlpList (h : decodeRlpList input = .ok items) :
    (∀ item ∈ items, item.raw = item.canonical) ∧
      input = Rlp.encodeList (items.flatMap RlpItem.raw) := by
  obtain ⟨top, htop, h⟩ := bind_eq_ok.mp h
  obtain ⟨hexact, h⟩ := check_bind_eq_ok.mp h
  rw [rejectIf_eq_ok, not_or, not_not, Bool.not_eq_false] at hexact
  obtain ⟨hcanonical, _, hfront⟩ := canonical_of_decodeRlpItem htop
  obtain ⟨hflat, hall⟩ := canonical_of_decodeRlpItems le_rfl h
  rw [RlpItem.canonical, if_pos hexact.1, hflat] at hcanonical
  rw [← hcanonical]
  exact ⟨hall, (hfront.eq_of_length hexact.2).symm⟩

theorem length_raw_le (h : item ∈ items) : item.raw.length ≤ (items.flatMap RlpItem.raw).length :=
  (sublist_flatten_of_mem (mem_map_of_mem h)).length_le

end Accepted

/-! ## Compact paths -/

theorem compactDecode_join (leaf odd : Bool) (nibble : Nibble) (rest : Bytes)
    (hpad : odd = false → nibble = 0) :
    compactDecode (Nibbles.join (compactFlag leaf odd) nibble :: rest)
      = .ok ((if odd then [nibble] else []) ++ Nibbles.unpack rest, leaf) := by
  have hflag : ¬3 < (compactFlag leaf odd).toNat := by
    cases leaf <;> cases odd <;> decide
  have hodd : (compactFlag leaf odd = 1 ∨ compactFlag leaf odd = 3) ↔ odd = true := by
    cases leaf <;> cases odd <;> decide
  have hleaf : decide (compactFlag leaf odd = 2 ∨ compactFlag leaf odd = 3) = leaf := by
    cases leaf <;> cases odd <;> decide
  have hpadding : ¬(¬odd = true ∧ nibble ≠ 0) := by
    intro h
    exact h.2 (hpad (by simpa using h.1))
  simp only [compactDecode, Nibbles.high_join, Nibbles.low_join, hodd, hleaf, rejectIf_neg hflag,
    rejectIf_neg hpadding, ok_bind, pure_eq]

/-- **Compact paths are read back.** -/
theorem compactDecode_compactEncode (path : List Nibble) (leaf : Bool) :
    compactDecode (compactEncode path leaf) = .ok (path, leaf) := by
  unfold compactEncode
  by_cases hodd : path.length % 2 = 1
  · rw [if_pos hodd]
    cases path with
    | nil => simp at hodd
    | cons nibble rest =>
      have heven : 2 ∣ rest.length := by
        rw [length_cons] at hodd
        omega
      rw [Nibbles.pack, compactDecode_join leaf true nibble _ (by simp), Nibbles.unpack_pack heven]
      rfl
  · rw [if_neg hodd, Nibbles.pack, compactDecode_join leaf false 0 _ (fun _ => rfl),
      Nibbles.unpack_pack (by omega)]
    rfl

theorem eq_compactFlag : ∀ flag : Nibble, ¬3 < flag.toNat →
    flag = compactFlag (decide (flag = 2 ∨ flag = 3)) (decide (flag = 1 ∨ flag = 3)) := by
  decide

variable {path : List Nibble}

/-- **Only compact encodings are accepted.** -/
theorem compactEncode_of_compactDecode {bytes : Bytes} {leaf : Bool}
    (h : compactDecode bytes = .ok (path, leaf)) : compactEncode path leaf = bytes := by
  cases bytes with
  | nil => cases h
  | cons first rest =>
    obtain ⟨hflag, h⟩ := check_bind_eq_ok.mp h
    obtain ⟨hpadding, h⟩ := check_bind_eq_ok.mp h
    cases h
    rw [rejectIf_eq_ok] at hflag hpadding
    have hhigh := eq_compactFlag _ hflag
    unfold compactEncode
    by_cases hodd : Nibbles.high first = 1 ∨ Nibbles.high first = 3
    · rw [decide_eq_true hodd] at hhigh
      rw [if_pos hodd, if_pos (by simp), ← hhigh, singleton_append, Nibbles.pack,
        Nibbles.join_high_low, Nibbles.pack_unpack]
    · have hlow : Nibbles.low first = 0 := not_not.mp fun hne => hpadding ⟨hodd, hne⟩
      rw [decide_eq_false hodd] at hhigh
      rw [if_neg hodd, if_neg (by simp), ← hhigh, nil_append, Nibbles.pack, ← hlow,
        Nibbles.join_high_low, Nibbles.pack_unpack]

theorem compactEncode_inj {path' : List Nibble} {leaf leaf' : Bool}
    (h : compactEncode path leaf = compactEncode path' leaf') : path = path' ∧ leaf = leaf' := by
  have hread := compactDecode_compactEncode path leaf
  rw [h, compactDecode_compactEncode] at hread
  cases hread
  exact ⟨rfl, rfl⟩

theorem length_compactEncode (path : List Nibble) (leaf : Bool) :
    (compactEncode path leaf).length = path.length / 2 + 1 := by
  unfold compactEncode
  split
  · rw [Nibbles.length_pack, length_cons]
    omega
  · rw [Nibbles.length_pack, length_cons, length_cons]
    omega

theorem length_compactEncode_lt (hpath : path.length ≤ 64) (leaf : Bool) :
    (compactEncode path leaf).length < PAYLOAD_LIMIT := by
  rw [length_compactEncode, PAYLOAD_LIMIT]
  omega

end Trie

end Arbor
