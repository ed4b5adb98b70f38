import Mathlib.Data.Nat.ModEq
import Mathlib.Data.List.Induction
import Mathlib.Tactic.Positivity
import Std.Data.ExtTreeMap

/-!
# Byte strings and fixed-width big-endian words

A byte string is a list of 8-bit words.  `beBytes n x` writes the number `x` in
exactly `n` bytes, most significant byte first, dropping what does not fit;
`beNat` reads a byte string back as a number.  On `n` bytes the two are inverse
up to `256 ^ n`:

* `beNat_beBytes`, `beBytes_beNat`: the two round trips;
* `toBytes`, `ofBytes`: the same for a machine word of `8 * n` bits, where both
  round trips are exact;
* `toBytes_append_inj`: fixed-width words written one after the other can be
  told apart, which is what makes a concatenation of fields a faithful encoding.
-/

abbrev Byte := BitVec 8

abbrev Bytes := List Byte

-- named, so that every table of byte strings is sorted by one and the same order
instance instTransOrdBytes : Std.TransOrd Bytes := inferInstance
instance instLawfulEqOrdBytes : Std.LawfulEqOrd Bytes := inferInstance
instance instLawfulBEqBytes : LawfulBEq Bytes := inferInstance

namespace BigEndian

/-- The low `n` bytes of `x`, most significant first, before given bytes. -/
def beBytesOnto : Nat → Nat → Bytes → Bytes
  | 0, _, rest => rest
  | n + 1, x, rest => beBytesOnto n (x / 256) (BitVec.ofNat 8 x :: rest)

/-- The low `n` bytes of `x`, most significant first. -/
def beBytes (n x : Nat) : Bytes := beBytesOnto n x []

theorem beBytesOnto_eq (n x : Nat) (rest : Bytes) : beBytesOnto n x rest = beBytes n x ++ rest := by
  induction n generalizing x rest with
  | zero => rfl
  | succ n ih =>
    rw [beBytes, beBytesOnto, beBytesOnto, ih, ih _ [_], List.append_assoc]
    rfl

@[simp] theorem beBytes_zero (x : Nat) : beBytes 0 x = [] := rfl

theorem beBytes_succ (n x : Nat) : beBytes (n + 1) x = beBytes n (x / 256) ++ [BitVec.ofNat 8 x] :=
  beBytesOnto_eq n (x / 256) [BitVec.ofNat 8 x]

/-- The number a byte string spells in base 256. -/
def beNat (bytes : Bytes) : Nat :=
  bytes.foldl (fun acc byte => acc * 256 + byte.toNat) 0

@[simp] theorem length_beBytes (n x : Nat) : (beBytes n x).length = n := by
  induction n generalizing x with
  | zero => rfl
  | succ n ih => simp [beBytes_succ, ih]

@[simp] theorem beNat_nil : beNat [] = 0 := rfl

variable (bytes : Bytes)

@[simp] theorem beNat_concat (byte : Byte) :
    beNat (bytes ++ [byte]) = beNat bytes * 256 + byte.toNat := by
  simp [beNat]

/-- The first bytes of a number are those of its quotient. -/
theorem beBytes_add (m n x : Nat) : beBytes (m + n) x = beBytes m (x / 256 ^ n) ++ beBytes n x := by
  induction n generalizing x with
  | zero => simp
  | succ n ih =>
    rw [← Nat.add_assoc, beBytes_succ, ih, beBytes_succ, List.append_assoc,
      Nat.div_div_eq_div_mul, ← Nat.pow_succ']

theorem beNat_beBytes (n x : Nat) : beNat (beBytes n x) = x % 256 ^ n := by
  induction n generalizing x with
  | zero => simp [Nat.mod_one]
  | succ n ih =>
    have hsplit : x % 256 ^ (n + 1) = x / 256 % 256 ^ n * 256 + x % 256 := by
      rw [pow_succ', Nat.mod_mul, Nat.add_comm, Nat.mul_comm]
    simp [beBytes_succ, ih, hsplit]

/-- A number that fits is read back unchanged. -/
theorem beNat_beBytes_of_lt {n x : Nat} (hx : x < 256 ^ n) : beNat (beBytes n x) = x := by
  rw [beNat_beBytes, Nat.mod_eq_of_lt hx]

/-- Writing what was read restores the bytes. -/
theorem beBytes_beNat : beBytes bytes.length (beNat bytes) = bytes := by
  induction bytes using List.reverseRecOn with
  | nil => rfl
  | append_singleton bytes byte ih =>
    have hdiv : (beNat bytes * 256 + byte.toNat) / 256 = beNat bytes := by omega
    have hlow : BitVec.ofNat 8 (beNat bytes * 256 + byte.toNat) = byte := by
      apply BitVec.eq_of_toNat_eq
      rw [BitVec.toNat_ofNat]
      omega
    rw [List.length_append, List.length_singleton, beNat_concat, beBytes_succ, hdiv, hlow, ih]

theorem pow_256 (n : Nat) : 256 ^ n = 2 ^ (8 * n) := by
  rw [pow_mul]
  rfl

theorem beNat_lt : beNat bytes < 256 ^ bytes.length := by
  have h := beNat_beBytes bytes.length (beNat bytes)
  rw [beBytes_beNat] at h
  rw [h]
  exact Nat.mod_lt _ (by positivity)

/-- The byte at position `i` of an `n`-byte number. -/
theorem getElem?_beBytes {n i : Nat} (x : Nat) (hi : i < n) :
    (beBytes n x)[i]? = some (BitVec.ofNat 8 (x / 256 ^ (n - 1 - i))) := by
  induction n generalizing x with
  | zero => omega
  | succ n ih =>
    rcases Nat.lt_or_ge i n with h | h
    · have hexp : n + 1 - 1 - i = (n - 1 - i) + 1 := by omega
      rw [beBytes_succ, List.getElem?_append_left (by simpa using h), ih (x / 256) h, hexp,
        pow_succ',
        Nat.div_div_eq_div_mul]
    · obtain rfl : i = n := by omega
      simp [beBytes_succ]

end BigEndian

open BigEndian

def toBytes {w : Nat} (x : BitVec w) : Bytes := beBytes (w / 8) x.toNat

/-- The machine word big-endian bytes spell, truncated to the word size. -/
def ofBytes (w : Nat) (bytes : Bytes) : BitVec w := BitVec.ofNat w (beNat bytes)

variable {w : Nat}

@[simp] theorem length_toBytes (x : BitVec w) : (toBytes x).length = w / 8 :=
  length_beBytes _ _

/-- The byte at position `i` of a word, counted from the most significant. -/
def byteAt {w : Nat} (x : BitVec w) (i : Nat) : Byte := (toBytes x)[i]?.getD 0

theorem beNat_toBytes (hw : 8 ∣ w) (x : BitVec w) : beNat (toBytes x) = x.toNat := by
  rw [toBytes, beNat_beBytes, pow_256, Nat.mul_div_cancel' hw, Nat.mod_eq_of_lt x.isLt]

/-- A word of whole bytes is read back unchanged. -/
theorem ofBytes_toBytes (hw : 8 ∣ w) (x : BitVec w) : ofBytes w (toBytes x) = x := by
  rw [ofBytes, beNat_toBytes hw, BitVec.ofNat_toNat, BitVec.setWidth_eq]

/-- Bytes of the right number are written back unchanged. -/
theorem toBytes_ofBytes {bytes : Bytes} (hlen : 8 * bytes.length = w) :
    toBytes (ofBytes w bytes) = bytes := by
  subst hlen
  have hlt : beNat bytes < 2 ^ (8 * bytes.length) := by
    rw [← pow_256]
    exact beNat_lt bytes
  rw [toBytes, ofBytes, BitVec.toNat_ofNat, Nat.mod_eq_of_lt hlt,
    Nat.mul_div_cancel_left _ (by decide : 0 < 8), beBytes_beNat]

theorem toBytes_injective (hw : 8 ∣ w) : Function.Injective (toBytes : BitVec w → Bytes) := by
  intro x y h
  rw [← ofBytes_toBytes hw x, ← ofBytes_toBytes hw y, h]

/-- **Field separation.**  Words of one whole-byte width at the head of two equal
byte strings are equal, and so are the rests. -/
theorem toBytes_append_inj (hw : 8 ∣ w) {x y : BitVec w} {a b : Bytes}
    (h : toBytes x ++ a = toBytes y ++ b) : x = y ∧ a = b := by
  obtain ⟨hword, hrest⟩ := List.append_inj h (by simp)
  exact ⟨toBytes_injective hw hword, hrest⟩

/-- The bytes of a text of single-byte characters. -/
def ascii (text : String) : Bytes :=
  text.toList.map fun c => BitVec.ofNat 8 c.toNat

def utf8Bytes (text : String) : Bytes :=
  text.toByteArray.data.toList.map UInt8.toBitVec

def fromUtf8 (bytes : Bytes) : Option String :=
  String.fromUTF8? ⟨(bytes.map UInt8.ofBitVec).toArray⟩

theorem fromUtf8_utf8Bytes (text : String) : fromUtf8 (utf8Bytes text) = some text := by
  have hbytes : (⟨((utf8Bytes text).map UInt8.ofBitVec).toArray⟩ : ByteArray)
      = text.toByteArray := by
    simp [utf8Bytes, Function.comp_def]
  rw [fromUtf8, hbytes, String.fromUTF8?, dif_pos text.isValidUTF8]
  rfl

/-- Valid bytes are those of the text they spell. -/
theorem utf8Bytes_of_fromUtf8 {bytes : Bytes} {text : String} (h : fromUtf8 bytes = some text) :
    utf8Bytes text = bytes := by
  rw [fromUtf8, String.fromUTF8?] at h
  split at h
  · cases h
    simp [utf8Bytes, String.fromUTF8, Function.comp_def]
  · cases h
