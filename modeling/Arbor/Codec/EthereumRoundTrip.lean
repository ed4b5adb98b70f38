import Arbor.Crypto

/-!
# Reading envelopes back

The parts of an envelope are read back one by one, lists through their own payloads, so an
encoded transaction decodes to itself (`decodeEip1559_encodeEip1559`).  The envelope's own
limit keeps every length within the eight bytes of a header.  Conversely the decoder
accepts nothing but encodings (`encodeEip1559_of_decodeEip1559`), so the hash of a decoded
transaction is that of the bytes received.
-/

namespace Arbor

open Result Reader Rlp List

namespace Ethereum

variable {α : Type}

variable {bytes payload : Bytes} {w : Nat} {r : Reader CodecError α}
  {transaction : Eip1559Transaction} {Q : Bytes → α → Prop}

theorem reads_rlp {r : Reader Error α} {a : α} (h : Reads r bytes a) : Reads (rlp r) bytes a := by
  intro rest
  change (r.run (bytes ++ rest)).mapError _ = _
  rw [h rest]
  rfl

theorem reads_fixed (hw : 8 ∣ w) (hsmall : w ≤ 256) (x : BitVec w) :
    Reads (fixed w) (encodeFixed x) x := by
  have hlength := length_toBytes x
  have hlen : (toBytes x).length < 256 ^ 8 := by omega
  refine (reads_string hlen).finally ?_
  refine (reads_failIf (not_not.mpr hlength)).after ?_
  rw [ofBytes_toBytes hw]
  exact reads_pure x

variable (field : String)

theorem reads_listPayload (hlen : payload.length < 256 ^ 8) :
    Reads (listPayload field) (encodeList payload) payload := by
  intro rest
  have hheader := run_header true hlen (fun h => by cases h) rest
  have hrlp : (rlp header).run (encodeList payload ++ rest)
      = .ok (⟨true, payload.length⟩, payload ++ rest) := by
    change (header.run (encodeLength 0xc0 payload.length ++ payload ++ rest)).mapError _ = _
    rw [append_assoc]
    change header.run (encodeLength 0xc0 payload.length ++ (payload ++ rest)) = _ at hheader
    rw [hheader]
    rfl
  rw [listPayload, StateT.run_bind, hrlp, ok_bind]
  exact run_take rfl _ _

theorem reads_within {a : α} (h : r.run payload = .ok (a, [])) : Reads (within payload r) [] a := by
  refine (reads_lift h).after ?_
  exact (reads_failIf (by simp)).after (reads_pure a)

/-- Items are read up to the end of their payload. -/
theorem run_items (limit : Nat) {encode : α → Bytes} {values : List α}
    (hnonempty : ∀ value ∈ values, encode value ≠ [])
    (hread : ∀ value ∈ values, Reads r (encode value) value) : ∀ n, values.length ≤ n →
      (items field limit r n).run (values.flatMap encode) = .ok (values, []) := by
  induction values with
  | nil =>
    intro n _
    cases n <;> rfl
  | cons value values ih =>
    intro n hn
    obtain ⟨n, rfl⟩ : ∃ m, n = m + 1 := ⟨n - 1, by simp at hn; omega⟩
    have hrest := ih (fun other hother => hnonempty other (mem_cons_of_mem _ hother))
      (fun other hother => hread other (mem_cons_of_mem _ hother)) n (by simpa using hn)
    have hfirst := hread value mem_cons_self (values.flatMap encode)
    have hne : encode value ++ values.flatMap encode ≠ [] :=
      append_ne_nil_of_left_ne_nil (hnonempty value mem_cons_self) _
    rw [flatMap_cons]
    change (if encode value ++ values.flatMap encode = [] then _ else _) = _
    rw [if_neg hne, StateT.run_bind, hfirst, ok_bind, StateT.run_bind, hrest]
    rfl

theorem encodeString_ne_nil (bytes : Bytes) : encodeString bytes ≠ [] := by
  have hlength : ∀ base n, encodeLength base n ≠ [] := by
    intro base n
    unfold encodeLength
    split <;> simp
  unfold encodeString
  split
  · split <;> simp
  · exact append_ne_nil_of_left_ne_nil (hlength _ _) _

theorem length_le_encodeList (payload : Bytes) : payload.length ≤ (encodeList payload).length := by
  rw [encodeList, length_append]
  omega

theorem length_le_flatMap {β : Type} (encode : β → Bytes) {values : List β} {value : β}
    (h : value ∈ values) : (encode value).length ≤ (values.flatMap encode).length := by
  rw [length_flatMap]
  exact single_le_sum (fun _ _ => Nat.zero_le _) _ (mem_map.mpr ⟨value, h, rfl⟩)

/-! ## Fields -/

theorem encodeList_ne_nil (payload : Bytes) : encodeList payload ≠ [] := by
  have hheader : listHeader payload.length ≠ [] := by
    unfold listHeader encodeLength
    split <;> simp
  exact append_ne_nil_of_left_ne_nil hheader _

theorem reads_readAccessListItem {item : AccessListItem}
    (hkeys : item.storageKeys.length ≤ MAX_ACCESS_LIST_STORAGE_KEYS)
    (hlen : (encodeAccessListItem item).length < 256 ^ 8) :
    Reads readAccessListItem (encodeAccessListItem item) item := by
  unfold encodeAccessListItem at hlen ⊢
  have hpayload := lt_of_le_of_lt (length_le_encodeList _) hlen
  have hlist : (item.storageKeys.flatMap encodeFixed).length < 256 ^ 8 := by
    refine lt_of_le_of_lt ((length_le_encodeList _).trans ?_) hpayload
    rw [length_append]
    omega
  have hparts : Reads (do
      let address ← rlp (fixed 160)
      let keys ← listPayload "EIP-1559 storage-key list"
      return (address, keys))
      (encodeFixed item.address ++ encodeList (item.storageKeys.flatMap encodeFixed))
      (item.address, item.storageKeys.flatMap encodeFixed) :=
    (reads_rlp (reads_fixed (by decide) (by decide) _)).bind
      ((reads_listPayload _ hlist).finally (reads_pure _))
  have hrun := hparts []
  rw [append_nil] at hrun
  refine (reads_listPayload _ hpayload).finally ((reads_within hrun).after ?_)
  refine (reads_within ?_).after (reads_pure _)
  exact run_items _ _ (fun key _ => encodeString_ne_nil _)
    (fun key _ => reads_rlp (reads_fixed (by decide) (by decide) key)) _ hkeys

theorem reads_readAccessList {accessList : List AccessListItem}
    (hcount : accessList.length ≤ MAX_ACCESS_LIST_ADDRESSES)
    (hkeys : ∀ item ∈ accessList, item.storageKeys.length ≤ MAX_ACCESS_LIST_STORAGE_KEYS)
    (hlen : (encodeAccessList accessList).length < 256 ^ 8) :
    Reads readAccessList (encodeAccessList accessList) accessList := by
  unfold encodeAccessList at hlen ⊢
  have hpayload := lt_of_le_of_lt (length_le_encodeList _) hlen
  refine (reads_listPayload _ hpayload).finally (reads_within ?_)
  refine run_items _ _ (fun item _ => encodeList_ne_nil _) (fun item hitem => ?_) _ hcount
  exact reads_readAccessListItem (hkeys item hitem)
    (lt_of_le_of_lt (length_le_flatMap encodeAccessListItem hitem) hpayload)

theorem reads_readRecipient (recipient : Option Address) :
    Reads readRecipient (encodeRecipient recipient) recipient := by
  cases recipient with
  | none =>
    have hempty : Reads string (encodeString []) [] := reads_string (by simp)
    exact (reads_rlp hempty).finally (reads_pure none)
  | some address =>
    have hlength : (toBytes address).length = 20 := length_toBytes address
    have hstring : Reads string (encodeString (toBytes address)) (toBytes address) :=
      reads_string (by omega)
    refine (reads_rlp hstring).finally ?_
    rw [ofBytes_toBytes (by decide)]
    exact reads_pure (some address)

theorem reads_readBool (value : Bool) :
    Reads (readBool field) (encodeUint (boolByte value)) value := by
  refine (reads_rlp (reads_uint (by decide) (by decide) _)).finally ?_
  cases value
  · exact reads_pure false
  · exact reads_pure true

/-- The length of every field, by that of the whole. -/
theorem reads_readFields (hcount : transaction.accessList.length ≤ MAX_ACCESS_LIST_ADDRESSES)
    (hkeys : ∀ item ∈ transaction.accessList, item.storageKeys.length ≤
      MAX_ACCESS_LIST_STORAGE_KEYS) (hinput : transaction.input.length < 256 ^ 8)
    (haccess : (encodeAccessList transaction.accessList).length < 256 ^ 8) :
    Reads readFields (encodeFields transaction true) transaction := by
  simp only [encodeFields, if_true, append_assoc]
  iterate 5 refine (reads_rlp (reads_uint (by decide) (by decide) _)).bind ?_
  refine (reads_readRecipient _).bind ?_
  refine (reads_rlp (reads_uint (by decide) (by decide) _)).bind ?_
  refine (reads_rlp (reads_string hinput)).bind ?_
  refine (reads_readAccessList hcount hkeys haccess).bind ?_
  refine (reads_readBool _ _).bind ?_
  refine (reads_rlp (reads_uint (by decide) (by decide) _)).bind ?_
  exact (reads_rlp (reads_uint (by decide) (by decide) _)).finally (reads_pure _)

theorem validate_eq_ok {signed : Bool} (h : validate transaction signed = .ok ()) :
    transaction.input.length ≤ inputLimit transaction ∧
      transaction.accessList.length ≤ MAX_ACCESS_LIST_ADDRESSES ∧
      ∀ item ∈ transaction.accessList, item.storageKeys.length ≤ MAX_ACCESS_LIST_STORAGE_KEYS := by
  obtain ⟨_, h⟩ := check_bind_eq_ok.mp h
  obtain ⟨_, h⟩ := check_bind_eq_ok.mp h
  obtain ⟨hinput, h⟩ := check_bind_eq_ok.mp h
  obtain ⟨hcount, h⟩ := check_bind_eq_ok.mp h
  obtain ⟨hkeys, _⟩ := check_bind_eq_ok.mp h
  rw [Canonical.checkLimit_eq_ok] at hinput hcount
  rw [checkAll_eq_ok] at hkeys
  exact ⟨hinput, hcount, fun item hitem => Canonical.checkLimit_eq_ok.mp (hkeys item hitem)⟩

/-- **Round trip.**  An encoded transaction decodes to itself. -/
theorem decodeEip1559_encodeEip1559 (h : encodeEip1559 transaction = .ok bytes) :
    decodeEip1559 bytes = .ok transaction := by
  obtain ⟨hvalid, h⟩ := check_bind_eq_ok.mp h
  obtain ⟨hsize, h⟩ := check_bind_eq_ok.mp h
  cases h
  rw [rejectIf_eq_ok, not_lt, length_cons] at hsize
  obtain ⟨hinput, hcount, hkeys⟩ := validate_eq_ok hvalid
  have hfields : (encodeFields transaction true).length < 256 ^ 8 := by
    have hle := length_le_encodeList (encodeFields transaction true)
    unfold MAX_TRANSACTION_ENVELOPE_BYTES at hsize
    omega
  have haccess : (encodeAccessList transaction.accessList).length < 256 ^ 8 := by
    refine lt_of_le_of_lt ?_ hfields
    simp only [encodeFields, length_append]
    omega
  have hcalldata : transaction.input.length < 256 ^ 8 := by
    refine lt_of_le_of_lt hinput ?_
    unfold inputLimit
    split <;> decide
  have hpayload := reads_listPayload "EIP-1559 payload" hfields []
  have hread := reads_readFields hcount hkeys hcalldata haccess []
  rw [append_nil] at hpayload hread
  unfold decodeEip1559
  refine check_bind_eq_ok.mpr ⟨rejectIf_eq_ok.mpr (not_lt.mpr ?_), ?_⟩
  · rw [length_cons]
    exact hsize
  refine check_bind_eq_ok.mpr ⟨rejectIf_eq_ok.mpr (by simp), ?_⟩
  refine bind_eq_ok.mpr ⟨_, hpayload, check_bind_eq_ok.mpr ⟨rejectIf_eq_ok.mpr (by simp), ?_⟩⟩
  refine bind_eq_ok.mpr ⟨_, hread, check_bind_eq_ok.mpr ⟨rejectIf_eq_ok.mpr (by simp), ?_⟩⟩
  exact check_bind_eq_ok.mpr ⟨hvalid, rfl⟩

/-! ## Only encodings are accepted -/

theorem consumes_rlp {r : Reader Error α} (h : Consumes r Q) : Consumes (rlp r) Q := by
  intro input a rest hrun
  exact h (mapError_eq_ok.mp hrun)

theorem consumes_fixed (hw : 8 ∣ w) : Consumes (fixed w) fun bytes x => bytes = encodeFixed x := by
  refine (consumes_string.mono ?_).bind
  rintro _ value rfl
  refine Consumes.bind (consumes_failIf fun hlen => consumes_pure ?_)
  rw [encodeFixed, toBytes_ofBytes (by omega), append_nil, append_nil]

theorem consumes_listPayload :
    Consumes (listPayload field) fun bytes payload => bytes = encodeList payload := by
  intro input payload rest hrun
  obtain ⟨h, middle, hheader, hrun⟩ := bind_accepts hrun
  obtain ⟨_, last, hkind, htake⟩ := bind_accepts hrun
  obtain ⟨hlist, rfl⟩ := failIf_accepts hkind
  obtain ⟨payload, rfl, rfl, hlen⟩ := consumes_take _ _ htake
  rcases header_eq_ok (mapError_eq_ok.mp hheader) with
    ⟨_, _, _, _, rfl, _⟩ | ⟨code, tail, rfl, hof, _⟩
  · exact absurd rfl hlist
  · have hkind : h.list = true := by simpa using hlist
    refine ⟨_, by rw [hof, ← append_assoc], ?_⟩
    change _ = encodeList payload
    rw [hkind, ← hlen]
    rfl

/-- A payload read to its end. -/
theorem consumes_within {P : Bytes → α → Prop} (hr : Consumes r P) (h : ∀ a, P payload a → Q [] a) :
    Consumes (within payload r) Q := by
  refine Consumes.bind (consumes_lift ?_)
  rintro ⟨a, rest⟩ hrun
  refine Consumes.bind (consumes_failIf fun hend => consumes_pure ?_)
  obtain ⟨bytes, rfl, hP⟩ := hr hrun
  obtain rfl : rest = [] := not_not.mp hend
  rw [append_nil] at h
  exact h a hP

theorem consumes_items (limit : Nat) {encode : α → Bytes} {P : α → Prop}
    (h : Consumes r fun bytes a => bytes = encode a ∧ P a) (n : Nat) :
    Consumes (items field limit r n) fun bytes values =>
      bytes = values.flatMap encode ∧ values.length ≤ n ∧ ∀ value ∈ values, P value := by
  induction n with
  | zero =>
    intro input values rest hrun
    change (if input = [] then _ else _) = _ at hrun
    split at hrun
    · rename_i hempty
      cases hrun
      exact ⟨[], hempty, rfl, le_rfl, fun _ hmem => absurd hmem not_mem_nil⟩
    · cases hrun
  | succ n ih =>
    -- The loop's body: one more item, then the others.
    have hbody : Consumes (do
        let item ← r
        let rest ← items field limit r n
        return item :: rest) fun bytes values => bytes = values.flatMap encode ∧
          values.length ≤ n + 1 ∧ ∀ value ∈ values, P value := by
      refine (h.mono ?_).bind
      rintro _ value ⟨rfl, hvalue⟩
      refine (ih.mono ?_).bind
      rintro _ values ⟨rfl, hlen, hall⟩
      refine consumes_pure ⟨by rw [append_nil, flatMap_cons], Nat.succ_le_succ hlen, ?_⟩
      exact forall_mem_cons.mpr ⟨hvalue, hall⟩
    intro input values rest hrun
    change (if input = [] then _ else _) = _ at hrun
    split at hrun
    · rename_i hempty
      cases hrun
      exact ⟨[], hempty, rfl, Nat.zero_le _, fun _ hmem => absurd hmem not_mem_nil⟩
    · exact hbody hrun

theorem consumes_readAccessListItem :
    Consumes readAccessListItem fun bytes item => bytes = encodeAccessListItem item ∧
      item.storageKeys.length ≤ MAX_ACCESS_LIST_STORAGE_KEYS := by
  have hparts : Consumes (do
      let address ← rlp (fixed 160)
      let keys ← listPayload "EIP-1559 storage-key list"
      return (address, keys))
      fun bytes parts => bytes = encodeFixed parts.1 ++ encodeList parts.2 := by
    refine ((consumes_rlp (consumes_fixed (by decide))).mono ?_).bind
    rintro _ address rfl
    refine ((consumes_listPayload _).mono ?_).bind
    rintro _ keys rfl
    exact consumes_pure (by rw [append_nil])
  have hkey : Consumes (rlp (fixed 256)) fun bytes key => bytes = encodeFixed key ∧ True :=
    (consumes_rlp (consumes_fixed (by decide))).mono fun _ _ h => ⟨h, trivial⟩
  refine ((consumes_listPayload _).mono ?_).bind
  rintro _ payload rfl
  refine Consumes.bind (consumes_within hparts ?_)
  rintro ⟨address, keys⟩ rfl
  refine Consumes.bind (consumes_within (consumes_items _ _ hkey _) ?_)
  rintro storageKeys ⟨rfl, hlen, _⟩
  refine consumes_pure ⟨?_, hlen⟩
  simp only [encodeAccessListItem, append_nil]

theorem consumes_readAccessList :
    Consumes readAccessList fun bytes accessList => bytes = encodeAccessList accessList := by
  refine ((consumes_listPayload _).mono ?_).bind
  rintro _ payload rfl
  refine consumes_within (consumes_items _ _ consumes_readAccessListItem _) ?_
  rintro accessList ⟨rfl, _, _⟩
  rw [encodeAccessList, append_nil]

theorem consumes_readRecipient :
    Consumes readRecipient fun bytes recipient => bytes = encodeRecipient recipient := by
  refine ((consumes_rlp consumes_string).mono ?_).bind
  rintro _ value rfl
  split
  · rename_i hempty
    rw [length_eq_zero_iff] at hempty
    exact consumes_pure (by rw [hempty]; rfl)
  · split
    · rename_i hlen
      refine consumes_pure ?_
      rw [encodeRecipient, encodeFixed, toBytes_ofBytes (by omega), append_nil]
    · exact consumes_throw

theorem consumes_readBool :
    Consumes (readBool field) fun bytes value => bytes = encodeUint (boolByte value) := by
  refine ((consumes_rlp (consumes_uint (by decide))).mono ?_).bind
  rintro _ value rfl
  split
  · rename_i hzero
    exact consumes_pure (by rw [hzero]; rfl)
  · split
    · rename_i hone
      exact consumes_pure (by rw [hone]; rfl)
    · exact consumes_throw

/-- **Only canonical integers are accepted.** -/
theorem consumes_uint (hw : 8 ∣ w) {f : BitVec w → Reader CodecError α}
    (h : ∀ x, Consumes (f x) fun bytes a => Q (Rlp.encodeUint x ++ bytes) a) :
    Consumes (rlp (Rlp.uint w) >>= f) Q := by
  refine ((consumes_rlp (Rlp.consumes_uint hw)).mono ?_).bind
  rintro _ x rfl
  exact h x

theorem consumes_readFields :
    Consumes readFields fun bytes transaction => bytes = encodeFields transaction true := by
  unfold readFields
  iterate 5 refine consumes_uint (by decide) fun _ => ?_
  refine (consumes_readRecipient.mono ?_).bind
  rintro _ recipient rfl
  refine consumes_uint (by decide) fun value => ?_
  refine ((consumes_rlp consumes_string).mono ?_).bind
  rintro _ input rfl
  refine (consumes_readAccessList.mono ?_).bind
  rintro _ accessList rfl
  refine ((consumes_readBool _).mono ?_).bind
  rintro _ yParity rfl
  iterate 2 refine consumes_uint (by decide) fun _ => ?_
  refine consumes_pure ?_
  simp only [encodeFields, if_true, append_assoc, append_nil]

/-- **Only encodings are accepted.**  A decoded transaction encodes to the bytes it was
decoded from. -/
theorem encodeEip1559_of_decodeEip1559 (h : decodeEip1559 bytes = .ok transaction) :
    encodeEip1559 transaction = .ok bytes := by
  have hvalid := validate_of_decode h
  obtain ⟨hsize, h⟩ := check_bind_eq_ok.mp h
  cases bytes with
  | nil => cases h
  | cons transactionType body =>
    obtain ⟨htype, h⟩ := check_bind_eq_ok.mp h
    obtain ⟨⟨fields, outer⟩, hlist, h⟩ := bind_eq_ok.mp h
    obtain ⟨houter, h⟩ := check_bind_eq_ok.mp h
    obtain ⟨⟨decoded, rest⟩, hfields, h⟩ := bind_eq_ok.mp h
    obtain ⟨hrest, h⟩ := check_bind_eq_ok.mp h
    obtain ⟨_, h⟩ := check_bind_eq_ok.mp h
    cases h
    obtain rfl : transactionType = EIP_1559_TX_TYPE := not_not.mp (rejectIf_eq_ok.mp htype)
    obtain rfl : outer = [] := not_not.mp (rejectIf_eq_ok.mp houter)
    obtain rfl : rest = [] := not_not.mp (rejectIf_eq_ok.mp hrest)
    obtain ⟨_, rfl, rfl⟩ := consumes_listPayload _ hlist
    obtain ⟨_, rfl, rfl⟩ := consumes_readFields hfields
    rw [append_nil, append_nil] at hsize ⊢
    exact check_bind_eq_ok.mpr ⟨hvalid, check_bind_eq_ok.mpr ⟨hsize, rfl⟩⟩

/-- **Envelopes are not malleable.**  A transaction has one envelope, and the hash of a
decoded transaction is that of the bytes it was decoded from. -/
theorem envelope_codec [Keccak] : (∀ (transaction : Eip1559Transaction) (bytes : Bytes),
      encodeEip1559 transaction = .ok bytes → decodeEip1559 bytes = .ok transaction) ∧
    ∀ (bytes : Bytes) (transaction : Eip1559Transaction), decodeEip1559 bytes = .ok transaction →
      encodeEip1559 transaction = .ok bytes ∧
        Crypto.eip1559TransactionHash transaction = .ok (keccak256 bytes) := by
  refine ⟨fun _ _ => decodeEip1559_encodeEip1559, fun bytes transaction hdecode => ?_⟩
  have hencode := encodeEip1559_of_decodeEip1559 hdecode
  refine ⟨hencode, ?_⟩
  rw [Crypto.eip1559TransactionHash, hencode]
  rfl

/-! ## Sizes -/

theorem length_encodeLength_le (base n : Nat) : (encodeLength base n).length ≤ 9 := by
  have hdigits := length_digits_le 8 n
  unfold encodeLength
  split
  · simp
  · rw [length_cons]
    omega

theorem length_encodeString_le (bytes : Bytes) :
    (encodeString bytes).length ≤ bytes.length + 9 := by
  have hheader := length_encodeLength_le 0x80
  unfold encodeString
  split
  · split
    · simp
    · have hone := hheader 1
      rw [length_append]
      simp only [length_cons, length_nil]
      omega
  · have hlong := hheader bytes.length
    rw [length_append]
    omega

theorem length_encodeUint_le (x : BitVec w) : (encodeUint x).length ≤ w / 8 + 9 :=
  (length_encodeString_le _).trans (Nat.add_le_add_right (length_digits_le _ _) 9)

end Ethereum

end Arbor
