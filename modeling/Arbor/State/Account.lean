import Arbor.State.Trie

/-!
# Accounts and the overlay of a commit

An account leaf is the list of nonce, balance, storage root and code hash.  A storage
leaf is a nonzero word; zero is the absence of a leaf.  An overlay collects leaf writes
over a snapshot and materialises them in one build.
-/

namespace Arbor

open Result BigEndian

structure Account where
  nonce : U64
  balance : U256
  storageRoot : B256
  codeHash : B256
  deriving DecidableEq

/-- An integer field of at most `w` bits without leading zeros. -/
def decodeUint (w : Nat) (overflow : String) (bytes : Bytes) : Except StateError (BitVec w) := do
  rejectIf (bytes.head? = some 0) (.malformedRlp "non-minimal integer")
  rejectIf (w / 8 < bytes.length) (.malformedRlp overflow)
  return BitVec.ofNat w (beNat bytes)

def decodeHash (field : String) (bytes : Bytes) : Except StateError B256 := do
  rejectIf (bytes.length ≠ 32) (.malformedRlp field)
  return ofBytes 256 bytes

def decodeAccount (input : Bytes) : Except StateError Account := do
  let fields ← Trie.decodeRlpList input
  match fields with
  | [nonce, balance, storageRoot, codeHash] => do
    rejectIf (nonce.list ∨ balance.list ∨ storageRoot.list ∨ codeHash.list)
      (.malformedRlp "account field layout")
    let nonce ← decodeUint 64 "u64 overflow" nonce.payload
    let balance ← decodeUint 256 "U256 overflow" balance.payload
    let storageRoot ← decodeHash "account storage root" storageRoot.payload
    let codeHash ← decodeHash "account code hash" codeHash.payload
    return { nonce, balance, storageRoot, codeHash }
  | _ => throw (.malformedRlp "account field layout")

def storageTrieValue (value : U256) : Option Bytes :=
  if value = 0 then none else some (Rlp.encodeUint value)

def decodeStorageTrieValue (input : Bytes) : Except StateError U256 :=
  match (Rlp.uint 256).run input with
  | .error _ => .error (.malformedRlp "storage value layout")
  | .ok (value, remaining) => do
    rejectIf (remaining ≠ []) (.malformedRlp "storage value trailing bytes")
    rejectIf (value = 0) (.malformedRlp "zero storage leaf")
    return value

/-- Storage words are read back. -/
theorem decodeStorageTrieValue_storageTrieValue {value : U256} (hne : value ≠ 0) :
    (storageTrieValue value).map decodeStorageTrieValue = some (.ok value) := by
  have hread := Rlp.reads_uint (by decide) (by decide) value []
  rw [List.append_nil] at hread
  rw [storageTrieValue, if_neg hne, Option.map_some, decodeStorageTrieValue, hread]
  have hend : ¬(([] : Bytes) ≠ []) := fun h => h rfl
  simp only [rejectIf_neg hend, rejectIf_neg hne, ok_bind, pure_eq]

section Accounts

variable [Keccak]

def KECCAK_EMPTY : B256 := keccak256 []

def Account.default : Account := ⟨0, 0, Trie.EMPTY_ROOT_HASH, KECCAK_EMPTY⟩

def Account.isEmpty (account : Account) : Bool :=
  account.nonce = 0 ∧ account.balance = 0 ∧ account.codeHash = KECCAK_EMPTY

def encodeAccount (account : Account) : Bytes :=
  Rlp.encodeList (Rlp.encodeUint account.nonce ++ Rlp.encodeUint account.balance ++
    Rlp.encodeString (toBytes account.storageRoot) ++ Rlp.encodeString (toBytes account.codeHash))

/-! ## Overlay -/

/-- Leaf writes over a base; `none` deletes. -/
structure StateOverlay where
  base : Leaves
  writes : BTreeMap B256 (Option Bytes)

namespace StateOverlay

def fromSnapshot (snapshot : TrieSnapshot) : StateOverlay := ⟨snapshot.leaves, ∅⟩

def setAccount (overlay : StateOverlay) (address : Address) (account : Account) : StateOverlay :=
  let value := if account.isEmpty then none else some (encodeAccount account)
  { overlay with writes := overlay.writes.insert (Trie.secureAccountKey address) value }

def deleteAccount (overlay : StateOverlay) (address : Address) : StateOverlay :=
  { overlay with writes := overlay.writes.insert (Trie.secureAccountKey address) none }

def applyWrite (leaves : Leaves) (write : B256 × Option Bytes) : Leaves :=
  match write.2 with
  | some value => leaves.insert write.1 value
  | none => leaves.erase write.1

def merged (overlay : StateOverlay) : Leaves := overlay.writes.toList.foldl applyWrite overlay.base

def commit (overlay : StateOverlay) : Except StateError TrieSnapshot := Trie.build overlay.merged

end StateOverlay

end Accounts

end Arbor
