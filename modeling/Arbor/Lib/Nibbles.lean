import Arbor.Lib.BigEndian

/-!
# Half bytes

A byte is a high and a low nibble, and an even number of nibbles is a byte string.
-/

abbrev Nibble := BitVec 4

namespace Nibbles

def high (byte : Byte) : Nibble := byte.extractLsb' 4 4
def low (byte : Byte) : Nibble := byte.extractLsb' 0 4

def join (hi lo : Nibble) : Byte := hi ++ lo

variable (byte : Byte)

@[simp] theorem join_high_low : join (high byte) (low byte) = byte := by
  revert byte
  decide

@[simp] theorem high_join : ∀ hi lo : Nibble, high (join hi lo) = hi := by decide

@[simp] theorem low_join : ∀ hi lo : Nibble, low (join hi lo) = lo := by decide

theorem toNat_high : (high byte).toNat = byte.toNat / 16 := by
  rw [high, BitVec.extractLsb'_toNat]
  omega

theorem toNat_low : (low byte).toNat = byte.toNat % 16 := by
  rw [low, BitVec.extractLsb'_toNat, Nat.shiftRight_zero]

def unpack : Bytes → List Nibble
  | [] => []
  | byte :: rest => high byte :: low byte :: unpack rest

/-- The bytes of nibbles taken in pairs; a last nibble alone is dropped. -/
def pack : List Nibble → Bytes
  | hi :: lo :: rest => join hi lo :: pack rest
  | _ => []

@[simp] theorem length_unpack (bytes : Bytes) : (unpack bytes).length = 2 * bytes.length := by
  induction bytes with
  | nil => rfl
  | cons byte rest ih =>
    rw [unpack, List.length_cons, List.length_cons, List.length_cons]
    omega

@[simp] theorem pack_unpack (bytes : Bytes) : pack (unpack bytes) = bytes := by
  induction bytes with
  | nil => rfl
  | cons byte rest ih => rw [unpack, pack, join_high_low, ih]

theorem unpack_pack : ∀ {path : List Nibble}, 2 ∣ path.length → unpack (pack path) = path
  | [], _ => rfl
  | [_], h => by
    rw [List.length_singleton] at h
    omega
  | hi :: lo :: rest, h => by
    have hrest : 2 ∣ rest.length := by
      rw [List.length_cons, List.length_cons] at h
      omega
    rw [pack, unpack, high_join, low_join, unpack_pack hrest]

theorem length_pack : ∀ path : List Nibble, (pack path).length = path.length / 2
  | [] => rfl
  | [_] => by
    rw [List.length_singleton]
    rfl
  | hi :: lo :: rest => by
    rw [pack, List.length_cons, length_pack rest, List.length_cons, List.length_cons]
    omega

theorem unpack_append (a b : Bytes) : unpack (a ++ b) = unpack a ++ unpack b := by
  induction a with
  | nil => rfl
  | cons byte a ih => simp [unpack, ih]

theorem unpack_injective : Function.Injective unpack := by
  intro a b h
  rw [← pack_unpack a, ← pack_unpack b, h]

end Nibbles
