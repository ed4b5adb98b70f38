import Arbor.Lib.Wire

/-!
# Recursive length prefix encoding

The canonical encoding of byte strings, unsigned integers and lists used by Ethereum.
A byte below `0x80` stands for itself; any other string is preceded by its length, in
the first byte when it is below 56 and else in as few bytes as it takes; a list is the
concatenation of its items behind such a length.  Integers are strings of their
digits in base 256 without leading zeros.

The readers accept canonical encodings only, with the error a library of that format
reports; `reads_string` and `reads_uint` are the round trips, `consumes_string` and
`consumes_uint` say that nothing else is accepted.
-/

namespace Rlp

open BigEndian Reader Result List

variable {width n : Nat} {input payload rest bytes : Bytes} {list : Bool} {code : Byte}

inductive Error where
  | overflow
  | leadingZero
  | inputTooShort
  | nonCanonicalSingleByte
  | nonCanonicalSize
  | unexpectedLength
  | unexpectedString
  | unexpectedList
  deriving DecidableEq

def Error.display : Error → String
  | overflow => "overflow"
  | leadingZero => "leading zero"
  | inputTooShort => "input too short"
  | nonCanonicalSingleByte => "non-canonical single byte"
  | nonCanonicalSize => "non-canonical size"
  | unexpectedLength => "unexpected length"
  | unexpectedString => "unexpected string"
  | unexpectedList => "unexpected list"

/-! ## Encoding -/

/-- The digits of a number below `256 ^ width` in base 256, without leading zeros. -/
def digits (width n : Nat) : Bytes := (beBytes width n).dropWhile (· == 0)

/-- A length, behind the code `base` of its kind. -/
def encodeLength (base n : Nat) : Bytes :=
  if n < 56 then [BitVec.ofNat 8 (base + n)]
  else BitVec.ofNat 8 (base + 55 + (digits 8 n).length) :: digits 8 n

def encodeString (bytes : Bytes) : Bytes :=
  match bytes with
  | [byte] => if byte.toNat < 0x80 then [byte] else encodeLength 0x80 1 ++ [byte]
  | bytes => encodeLength 0x80 bytes.length ++ bytes

/-- A list header for a payload of `n` bytes. -/
def listHeader (n : Nat) : Bytes := encodeLength 0xc0 n

/-- A list with the given concatenation of encoded items. -/
def encodeList (payload : Bytes) : Bytes := listHeader payload.length ++ payload

def encodeUint {w : Nat} (x : BitVec w) : Bytes := encodeString (digits (w / 8) x.toNat)

/-! ## Reading -/

structure Header where
  list : Bool
  payloadLength : Nat
  deriving DecidableEq

def peek : Reader Error Byte := fun input =>
  match input with
  | [] => .error .inputTooShort
  | byte :: _ => .ok (byte, input)

/-- Fails unless `n` more bytes are there. -/
def need (n : Nat) : Reader Error Unit := fun input =>
  if input.length < n then .error .inputTooShort else .ok ((), input)

/-- A number of at most `width` bytes without leading zeros. -/
def leftPad (width : Nat) (bytes : Bytes) : Except Error Nat :=
  if width < bytes.length then .error .overflow
  else if bytes.head? = some 0 then .error .leadingZero
  else .ok (beNat bytes)

/-- A length of 56 or more, in `n` bytes. -/
def longLength (n : Nat) : Reader Error Nat := do
  let bytes ← take .inputTooShort n
  let length ← StateT.lift (leftPad 8 bytes)
  failIf (length < 56) .nonCanonicalSize
  return length

/-- A string of one byte has a code of its own only from `0x80` on. -/
def checkSingle (code : Nat) : Reader Error Unit :=
  if code = 0x81 then do
    let next ← peek
    failIf (next.toNat < 0x80) .nonCanonicalSingleByte
  else pure ()

/-- What follows the code byte of a header. -/
def afterCode (code : Nat) : Reader Error Header :=
  if code < 0xb8 then do
    checkSingle code
    need (code - 0x80)
    return ⟨false, code - 0x80⟩
  else if code < 0xc0 then do
    let length ← longLength (code - 0xb7)
    need length
    return ⟨false, length⟩
  else if code < 0xf8 then do
    need (code - 0xc0)
    return ⟨true, code - 0xc0⟩
  else do
    let length ← longLength (code - 0xf7)
    need length
    return ⟨true, length⟩

/-- An item's header.  A single byte below `0x80` is its own payload and stays in place. -/
def header : Reader Error Header := do
  let byte ← peek
  if byte.toNat < 0x80 then
    return ⟨false, 1⟩
  else do
    let _ ← take .inputTooShort 1
    afterCode byte.toNat

def string : Reader Error Bytes := do
  let h ← header
  failIf (h.list = true) .unexpectedList
  take .inputTooShort h.payloadLength

/-- An unsigned integer of `w` bits. -/
def uint (w : Nat) : Reader Error (BitVec w) := do
  let bytes ← string
  let n ← StateT.lift (leftPad (w / 8) bytes)
  return BitVec.ofNat w n

/-- A string of exactly `w` bits. -/
def fixed (w : Nat) : Reader Error (BitVec w) := do
  let bytes ← string
  failIf (bytes.length ≠ w / 8) .unexpectedLength
  return ofBytes w bytes

/-! ## Round trips -/

theorem length_digits_le (width n : Nat) : (digits width n).length ≤ width := by
  have h := (dropWhile_sublist (· == 0) (l := beBytes width n)).length_le
  rwa [length_beBytes] at h

theorem head?_digits_ne_zero (width n : Nat) : (digits width n).head? ≠ some 0 := by
  intro h
  have hne : digits width n ≠ [] := by
    intro hnil
    rw [hnil] at h
    cases h
  have hhead : ((digits width n).head hne == 0) = false := head_dropWhile_not _ hne
  rw [head?_eq_some_head hne] at h
  rw [Option.some.inj h] at hhead
  cases hhead

theorem beNat_append (a b : Bytes) : beNat (a ++ b) = beNat a * 256 ^ b.length + beNat b := by
  induction b using reverseRecOn with
  | nil => simp
  | append_singleton b byte ih =>
    rw [← append_assoc, beNat_concat, ih, beNat_concat, length_append,
      length_singleton, pow_succ, Nat.add_mul, Nat.mul_assoc, Nat.add_assoc]

theorem beNat_dropWhile (bytes : Bytes) : beNat (bytes.dropWhile (· == 0)) = beNat bytes := by
  induction bytes with
  | nil => rfl
  | cons byte bytes ih =>
    by_cases h : byte = 0
    · have hzero : beNat (byte :: bytes) = beNat bytes := by
        have happend := beNat_append [byte] bytes
        simp only [h, singleton_append] at happend ⊢
        simp [beNat]
      rw [dropWhile_cons_of_pos (by simp [h]), ih, hzero]
    · rw [dropWhile_cons_of_neg (by rw [beq_iff_eq]; exact h)]

theorem beNat_digits (hn : n < 256 ^ width) : beNat (digits width n) = n := by
  rw [digits, beNat_dropWhile, beNat_beBytes_of_lt hn]

theorem digits_ne_nil (hn : n < 256 ^ width) (hpos : 0 < n) : digits width n ≠ [] := by
  intro h
  have hnat := beNat_digits hn
  rw [h] at hnat
  simp at hnat
  omega

theorem leftPad_digits (hn : n < 256 ^ width) : leftPad width (digits width n) = .ok n := by
  have hlen := length_digits_le width n
  unfold leftPad
  rw [if_neg (by omega), if_neg (head?_digits_ne_zero width n), beNat_digits hn]

theorem reads_longLength (hbig : 56 ≤ n) (hn : n < 256 ^ 8) :
    Reads (longLength (digits 8 n).length) (digits 8 n) n := by
  refine (reads_take rfl _).finally ?_
  refine (reads_lift (leftPad_digits hn)).after ?_
  exact (reads_failIf (by omega)).after (reads_pure n)

theorem run_peek (byte : Byte) (rest : Bytes) :
    peek.run (byte :: rest) = .ok (byte, byte :: rest) := rfl

theorem run_need (h : n ≤ input.length) : (need n).run input = .ok ((), input) := by
  show (if input.length < n then _ else _) = _
  rw [if_neg (by omega)]

theorem run_checkSingle {code : Nat}
    (h : code = 0x81 → ∃ byte rest, input = byte :: rest ∧ 0x80 ≤ byte.toNat) :
    (checkSingle code).run input = .ok ((), input) := by
  unfold checkSingle
  by_cases hcode : code = 0x81
  · obtain ⟨byte, rest, rfl, hbyte⟩ := h hcode
    rw [if_pos hcode, StateT.run_bind]
    have hpass : ¬byte.toNat < 0x80 := by omega
    exact reads_failIf hpass (byte :: rest)
  · rw [if_neg hcode]
    rfl

theorem toNat_code (h : n < 256) : (BitVec.ofNat 8 n).toNat = n := by
  exact Nat.mod_eq_of_lt h

/-- The code a kind of item counts its length from. -/
def baseCode (list : Bool) : Nat := if list then 0xc0 else 0x80

theorem run_afterCode_short (hlen : payload.length < 56)
    (hsingle : list = false → ∀ byte, payload = [byte] → 0x80 ≤ byte.toNat) :
    (afterCode (baseCode list + payload.length)).run (payload ++ rest)
      = .ok (⟨list, payload.length⟩, payload ++ rest) := by
  have hneed : (need payload.length).run (payload ++ rest) = .ok ((), payload ++ rest) :=
    run_need (by simp)
  cases list with
  | true =>
    have hcode : baseCode true + payload.length - 0xc0 = payload.length := by simp [baseCode]
    unfold afterCode
    rw [if_neg (by simp [baseCode]; omega), if_neg (by simp [baseCode]),
      if_pos (by simp [baseCode]; omega), hcode, StateT.run_bind, hneed]
    rfl
  | false =>
    have hcode : baseCode false + payload.length - 0x80 = payload.length := by simp [baseCode]
    have hcheck : (checkSingle (baseCode false + payload.length)).run (payload ++ rest)
        = .ok ((), payload ++ rest) := by
      refine run_checkSingle fun h81 => ?_
      have hone : payload.length = 1 := by simp [baseCode] at h81; omega
      obtain ⟨byte, hbyte⟩ := length_eq_one_iff.mp hone
      exact ⟨byte, rest, by simp [hbyte], hsingle rfl byte hbyte⟩
    unfold afterCode
    rw [if_pos (by simp [baseCode]; omega), hcode, StateT.run_bind, hcheck, Result.ok_bind,
      StateT.run_bind, hneed]
    rfl

theorem run_afterCode_long (hbig : 56 ≤ payload.length) (hlen : payload.length < 256 ^ 8) :
    (afterCode (baseCode list + 55 + (digits 8 payload.length).length)).run
        (digits 8 payload.length ++ (payload ++ rest))
      = .ok (⟨list, payload.length⟩, payload ++ rest) := by
  have hneed : (need payload.length).run (payload ++ rest) = .ok ((), payload ++ rest) :=
    run_need (by simp)
  have hle := length_digits_le 8 payload.length
  have hpos : 0 < (digits 8 payload.length).length :=
    length_pos_iff.mpr (digits_ne_nil hlen (by omega))
  have hlength := reads_longLength hbig hlen (payload ++ rest)
  cases list with
  | true =>
    have hcode : baseCode true + 55 + (digits 8 payload.length).length - 0xf7
        = (digits 8 payload.length).length := by simp [baseCode]
    unfold afterCode
    rw [if_neg (by simp [baseCode]; omega), if_neg (by simp [baseCode]; omega),
      if_neg (by simp [baseCode]; omega), hcode, StateT.run_bind, hlength, Result.ok_bind,
      StateT.run_bind, hneed]
    rfl
  | false =>
    have hcode : baseCode false + 55 + (digits 8 payload.length).length - 0xb7
        = (digits 8 payload.length).length := by simp [baseCode]
    unfold afterCode
    rw [if_neg (by simp [baseCode]; omega), if_pos (by simp [baseCode]; omega), hcode,
      StateT.run_bind, hlength, Result.ok_bind, StateT.run_bind, hneed]
    rfl

theorem run_header_code {byte : Byte} (hcode : 0x80 ≤ byte.toNat) (rest : Bytes) :
    header.run (byte :: rest) = (afterCode byte.toNat).run rest := by
  have hneg : ¬byte.toNat < 0x80 := by omega
  rw [header, StateT.run_bind, run_peek, Result.ok_bind, if_neg hneg]
  rfl

theorem run_header (list : Bool) (hlen : payload.length < 256 ^ 8)
    (hsingle : list = false → ∀ byte, payload = [byte] → 0x80 ≤ byte.toNat) (rest : Bytes) :
    header.run (encodeLength (baseCode list) payload.length ++ (payload ++ rest))
      = .ok (⟨list, payload.length⟩, payload ++ rest) := by
  have hbase : baseCode list ≤ 0xc0 ∧ 0x80 ≤ baseCode list := by
    cases list <;> simp [baseCode]
  have hle := length_digits_le 8 payload.length
  unfold encodeLength
  by_cases hshort : payload.length < 56
  · have hcode := toNat_code (n := baseCode list + payload.length) (by omega)
    rw [if_pos hshort, singleton_append, run_header_code (by omega), hcode]
    exact run_afterCode_short hshort hsingle
  · have hcode := toNat_code (n := baseCode list + 55 + (digits 8 payload.length).length)
      (by omega)
    rw [if_neg hshort, cons_append, run_header_code (by omega), hcode]
    exact run_afterCode_long (by omega) hlen

/-- **Strings are read back.** -/
theorem reads_string (hlen : bytes.length < 256 ^ 8) : Reads string (encodeString bytes) bytes := by
  have hpayload : ∀ rest, (∀ byte, bytes = [byte] → 0x80 ≤ byte.toNat) →
      string.run (encodeLength 0x80 bytes.length ++ (bytes ++ rest)) = .ok (bytes, rest) := by
    intro rest hsingle
    have hheader := run_header false hlen (fun _ => hsingle) rest
    rw [string, StateT.run_bind]
    rw [show baseCode false = 0x80 from rfl] at hheader
    rw [hheader, Result.ok_bind]
    exact run_take rfl _ _
  intro rest
  unfold encodeString
  split
  · rename_i byte
    by_cases hbyte : byte.toNat < 0x80
    · have hheader : header.run ([byte] ++ rest) = .ok (⟨false, 1⟩, [byte] ++ rest) := by
        rw [header, StateT.run_bind, singleton_append, run_peek, Result.ok_bind, if_pos hbyte]
        rfl
      have hone : [byte].length = 1 := rfl
      rw [if_pos hbyte, string, StateT.run_bind, hheader, Result.ok_bind]
      exact run_take hone .inputTooShort _
    · rw [if_neg hbyte]
      refine hpayload rest fun other hother => ?_
      obtain rfl : byte = other := by simpa using hother
      omega
  · rename_i hne
    rw [append_assoc]
    exact hpayload rest fun byte hb => absurd hb (hne byte)

/-- **Integers are read back.** -/
theorem reads_uint {w : Nat} (hw : 8 ∣ w) (hsmall : w ≤ 256) (x : BitVec w) :
    Reads (uint w) (encodeUint x) x := by
  obtain ⟨k, rfl⟩ := hw
  have hk : 8 * k / 8 = k := by omega
  have hx : x.toNat < 256 ^ (8 * k / 8) := by
    have hlt := x.isLt
    rw [hk, pow_256]
    exact hlt
  have hlen : (digits (8 * k / 8) x.toNat).length < 256 ^ 8 := by
    have hle := length_digits_le (8 * k / 8) x.toNat
    omega
  have hpad : leftPad (8 * k / 8) (digits (8 * k / 8) x.toNat) = .ok x.toNat :=
    leftPad_digits hx
  have hlast : Reads (pure (BitVec.ofNat (8 * k) x.toNat) : Reader Error _) [] x := by
    rw [BitVec.ofNat_toNat, BitVec.setWidth_eq]
    exact reads_pure x
  exact (reads_string hlen).finally ((reads_lift hpad).after hlast)

/-! ## Only canonical encodings are accepted -/

theorem beBytes_of_zero (n : Nat) : beBytes n 0 = replicate n 0 := by
  induction n with
  | zero => rfl
  | succ n ih => rw [beBytes_succ, ih, replicate_succ']; rfl

theorem digits_of_leftPad (h : leftPad width bytes = .ok n) :
    bytes = digits width n ∧ n < 256 ^ width := by
  unfold leftPad at h
  split at h
  · cases h
  split at h
  · cases h
  rename_i hlen hhead
  cases h
  obtain ⟨pad, rfl⟩ : ∃ pad, width = pad + bytes.length := ⟨width - bytes.length, by omega⟩
  have hlt := beNat_lt bytes
  constructor
  · have hdrop : (replicate pad (0 : Byte) ++ bytes).dropWhile (· == 0) = bytes := by
      induction pad with
      | zero =>
        cases bytes with
        | nil => rfl
        | cons byte bytes =>
          have hne : byte ≠ 0 := fun hzero => hhead (by rw [hzero]; rfl)
          exact dropWhile_cons_of_neg (by rwa [beq_iff_eq])
      | succ pad ih =>
        exact ih (by omega)
    rw [digits, beBytes_add, Nat.div_eq_of_lt hlt, beBytes_of_zero, beBytes_beNat, hdrop]
  · exact lt_of_lt_of_le hlt (Nat.pow_le_pow_right (by decide) (by omega))

theorem consumes_longLength (k : Nat) : Consumes (longLength k) fun bytes n =>
      bytes = digits 8 n ∧ bytes.length = k ∧ 56 ≤ n ∧ n < 256 ^ 8 := by
  refine ((consumes_take _ _).mono ?_).bind
  rintro bytes _ ⟨rfl, hlen⟩
  refine Consumes.bind (consumes_lift fun n hpad => ?_)
  refine Consumes.bind (consumes_failIf fun hbig => consumes_pure ?_)
  obtain ⟨hdigits, hlt⟩ := digits_of_leftPad hpad
  simp only [append_nil]
  exact ⟨hdigits, hlen, by omega, hlt⟩

theorem need_eq_ok {u : Unit} (h : (need n).run input = .ok (u, rest)) : rest = input := by
  change (if input.length < n then _ else _) = _ at h
  split at h
  · cases h
  · cases h
    rfl

theorem need_then_eq_ok {h h' : Header}
    (hrun : (need n >>= fun _ => pure h').run input = .ok (h, rest)) : h = h' ∧ rest = input := by
  obtain ⟨_, last, hneed, hend⟩ := bind_accepts hrun
  obtain rfl := need_eq_ok hneed
  obtain ⟨rfl, rfl⟩ := pure_accepts hend
  exact ⟨rfl, rfl⟩

theorem checkSingle_eq_ok {code : Nat} {u : Unit}
    (h : (checkSingle code).run input = .ok (u, rest)) :
    rest = input ∧ (code = 0x81 → ∃ byte tail, input = byte :: tail ∧ 0x80 ≤ byte.toNat) := by
  unfold checkSingle at h
  split at h
  · cases input with
    | nil => cases h
    | cons byte tail =>
      obtain ⟨hbyte, hrest⟩ := failIf_accepts h
      exact ⟨hrest, fun _ => ⟨byte, tail, rfl, not_lt.mp hbyte⟩⟩
  · rename_i hcode
    cases h
    exact ⟨rfl, fun h81 => absurd h81 hcode⟩

/-- What a header read behind its code byte says about the input. -/
def HeaderOf (code : Byte) (input : Bytes) (h : Header) (rest : Bytes) : Prop :=
  code :: input = encodeLength (baseCode h.list) h.payloadLength ++ rest ∧
    (h.list = false → h.payloadLength = 1 → ∃ byte tail, rest = byte :: tail ∧ 0x80 ≤ byte.toNat)

theorem ofNat_code (h : code.toNat = n) : BitVec.ofNat 8 n = code := by
  rw [← h, BitVec.ofNat_toNat, BitVec.setWidth_eq]

theorem headerOf_short (hn : n < 56) (hcode : code.toNat = baseCode list + n)
    (hsingle : list = false → n = 1 → ∃ byte tail, input = byte :: tail ∧ 0x80 ≤ byte.toNat) :
    HeaderOf code input ⟨list, n⟩ input := by
  refine ⟨?_, hsingle⟩
  rw [encodeLength, if_pos hn, ofNat_code hcode]
  rfl

theorem headerOf_long {k : Nat} (hcode : code.toNat = baseCode list + 55 + k)
    (hlong : (longLength k).run input = .ok (n, rest)) : HeaderOf code input ⟨list, n⟩ rest := by
  obtain ⟨_, rfl, rfl, rfl, hbig, _⟩ := consumes_longLength k hlong
  have hne : n ≠ 1 := by omega
  refine ⟨?_, fun _ hone => absurd hone hne⟩
  change code :: (digits 8 n ++ rest) = encodeLength (baseCode list) n ++ rest
  rw [encodeLength, if_neg (by omega), ofNat_code hcode]
  rfl

theorem headerOf_afterCode {h : Header} (hcode : 0x80 ≤ code.toNat)
    (hrun : (afterCode code.toNat).run input = .ok (h, rest)) : HeaderOf code input h rest := by
  have hstring : baseCode false = 0x80 := rfl
  have hlist : baseCode true = 0xc0 := rfl
  unfold afterCode at hrun
  split at hrun
  · obtain ⟨_, middle, hcheck, hafter⟩ := bind_accepts hrun
    obtain ⟨rfl, hsingle⟩ := checkSingle_eq_ok hcheck
    obtain ⟨rfl, rfl⟩ := need_then_eq_ok hafter
    exact headerOf_short (by omega) (by omega) fun _ hone => hsingle (by omega)
  split at hrun
  · obtain ⟨n, middle, hlong, hafter⟩ := bind_accepts hrun
    obtain ⟨rfl, rfl⟩ := need_then_eq_ok hafter
    exact headerOf_long (by omega) hlong
  split at hrun
  · obtain ⟨rfl, rfl⟩ := need_then_eq_ok hrun
    exact headerOf_short (by omega) (by omega) fun h => by cases h
  · obtain ⟨n, middle, hlong, hafter⟩ := bind_accepts hrun
    obtain ⟨rfl, rfl⟩ := need_then_eq_ok hafter
    exact headerOf_long (by omega) hlong

theorem header_eq_ok {h : Header} (hrun : header.run input = .ok (h, rest)) :
    (∃ byte tail, input = byte :: tail ∧ rest = input ∧ h = ⟨false, 1⟩ ∧ byte.toNat < 0x80) ∨
      ∃ code tail, input = code :: tail ∧ HeaderOf code tail h rest := by
  cases input with
  | nil => cases hrun
  | cons byte tail =>
    by_cases hbyte : byte.toNat < 0x80
    · rw [header, StateT.run_bind, run_peek, ok_bind, if_pos hbyte] at hrun
      cases hrun
      exact .inl ⟨byte, tail, rfl, rfl, rfl, hbyte⟩
    · rw [run_header_code (by omega)] at hrun
      exact .inr ⟨byte, tail, rfl, headerOf_afterCode (by omega) hrun⟩

theorem encodeString_of_big
    (h : bytes.length = 1 → ∃ byte tail, bytes = byte :: tail ∧ 0x80 ≤ byte.toNat) :
    encodeString bytes = encodeLength 0x80 bytes.length ++ bytes := by
  unfold encodeString
  split
  · obtain ⟨byte, tail, hcons, hbig⟩ := h rfl
    obtain ⟨rfl, _⟩ := cons.inj hcons
    rw [if_neg (by omega)]
    rfl
  · rfl

/-- **Only canonical strings are accepted.** -/
theorem consumes_string : Consumes string fun bytes value => bytes = encodeString value := by
  intro input value rest hrun
  obtain ⟨h, middle, hheader, hrun⟩ := bind_accepts hrun
  obtain ⟨_, last, hkind, htake⟩ := bind_accepts hrun
  obtain ⟨hstring, rfl⟩ := failIf_accepts hkind
  obtain ⟨value, rfl, rfl, hlen⟩ := consumes_take _ _ htake
  rcases header_eq_ok hheader with ⟨byte, tail, hinput, rfl, rfl, hbyte⟩
    | ⟨code, tail, rfl, hof, hsingle⟩
  · obtain ⟨other, rfl⟩ := length_eq_one_iff.mp hlen
    obtain ⟨rfl, _⟩ := cons.inj hinput
    exact ⟨[other], rfl, (if_pos hbyte).symm⟩
  · have hlist : h.list = false := Bool.eq_false_iff.mpr hstring
    refine ⟨_, by rw [hof, ← append_assoc], ?_⟩
    have hbyte : value.length = 1 → ∃ byte tail, value = byte :: tail ∧ 0x80 ≤ byte.toNat := by
      intro hone
      obtain ⟨byte, tail, hcons, hbig⟩ := hsingle hlist (hlen.symm.trans hone)
      obtain ⟨other, rfl⟩ := length_eq_one_iff.mp hone
      obtain ⟨rfl, _⟩ := cons.inj hcons
      exact ⟨other, [], rfl, hbig⟩
    change _ = encodeString value
    rw [hlist, ← hlen, encodeString_of_big hbyte]
    rfl

/-- **Only canonical integers are accepted.** -/
theorem consumes_uint {w : Nat} (hw : 8 ∣ w) :
    Consumes (uint w) fun bytes x => bytes = encodeUint x := by
  refine (consumes_string.mono ?_).bind
  rintro _ digits rfl
  refine Consumes.bind (consumes_lift fun n hpad => consumes_pure ?_)
  obtain ⟨rfl, hlt⟩ := digits_of_leftPad hpad
  rw [pow_256, Nat.mul_div_cancel' hw] at hlt
  rw [encodeUint, BitVec.toNat_ofNat, Nat.mod_eq_of_lt hlt, append_nil, append_nil]

end Rlp
