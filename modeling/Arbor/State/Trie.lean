import Arbor.Lib.Nibbles
import Arbor.Lib.Rlp
import Arbor.Lib.Slice
import Arbor.State.Error

/-!
# The secure Merkle-Patricia trie

A snapshot is built from sorted leaves by one recursion over the nibbles of their
keys: a single leaf ends a path, a shared prefix becomes an extension, and the rest
splits into the sixteen children of a branch.  A node of fewer than 32 bytes stands
inside its parent, a longer one is referred to by its hash.  A stored root is walked
back to its leaves with every node checked against its hash, and no hash is followed
twice.
-/

namespace Arbor

open Result BigEndian

def SECURE_KEY_NIBBLES : Nat := 64

abbrev NodeStore := BTreeMap B256 Bytes

abbrev Leaves := BTreeMap B256 Bytes

structure TrieSnapshot where
  root : B256
  nodes : NodeStore
  leaves : Leaves
  deriving DecidableEq

namespace Trie

/-! ## Node encoding -/

inductive EncodedItem where
  | bytes (payload : Bytes)
  | raw (encoded : Bytes)

def EncodedItem.encode : EncodedItem → Bytes
  | .bytes payload => Rlp.encodeString payload
  | .raw encoded => encoded

def encodeItems (items : List EncodedItem) : Bytes :=
  Rlp.encodeList (items.flatMap EncodedItem.encode)

/-- The flag nibble: `2` for a leaf, plus one for an odd path. -/
def compactFlag (leaf odd : Bool) : Nibble :=
  match leaf, odd with
  | false, false => 0
  | false, true => 1
  | true, false => 2
  | true, true => 3

def compactEncode (path : List Nibble) (leaf : Bool) : Bytes :=
  if path.length % 2 = 1 then Nibbles.pack (compactFlag leaf true :: path)
  else Nibbles.pack (compactFlag leaf false :: 0 :: path)

def compactDecode (bytes : Bytes) : Except StateError (List Nibble × Bool) :=
  match bytes with
  | [] => .error (.invalidPath "empty compact path")
  | first :: rest => do
    let flag := Nibbles.high first
    rejectIf (3 < flag.toNat) (.invalidPath "compact flag")
    let odd := flag = 1 ∨ flag = 3
    rejectIf (¬odd ∧ Nibbles.low first ≠ 0) (.invalidPath "non-canonical compact padding")
    return ((if odd then [Nibbles.low first] else []) ++ Nibbles.unpack rest,
      decide (flag = 2 ∨ flag = 3))

def unpackNibbles (key : B256) : List Nibble := Nibbles.unpack (toBytes key)

def packNibbles (path : List Nibble) : Except StateError B256 := do
  rejectIf (path.length ≠ SECURE_KEY_NIBBLES) (.invalidPath "leaf is not a full secure key")
  return ofBytes 256 (Nibbles.pack path)

section Build

variable [Keccak]

def EMPTY_ROOT_HASH : B256 := keccak256 [0x80]

structure BuiltNode where
  encoded : Bytes
  hash : B256

def childItem (child : BuiltNode) : EncodedItem :=
  if child.encoded.length < 32 then .raw child.encoded else .bytes (toBytes child.hash)

abbrev Entry := List Nibble × Bytes

def commonPrefix (first last : Entry) (depth : Nat) : Nat :=
  (((first.1.drop depth).zip (last.1.drop depth)).takeWhile fun pair => pair.1 = pair.2).length

def nibbleAt (entry : Entry) (depth : Nat) : Nat :=
  (entry.1.getD depth 0).toNat

/-- The entries whose nibble at `depth` is `nibble`, by binary search. -/
def childRange (entries : List Entry) (depth nibble : Nat) : List Entry :=
  let start := partitionPoint (fun entry => decide (nibbleAt entry depth < nibble)) entries
  let last := partitionPoint (fun entry => decide (nibbleAt entry depth ≤ nibble)) entries
  (entries.take last).drop start

def store (nodes : NodeStore) (encoded : Bytes) : BuiltNode × NodeStore :=
  (⟨encoded, keccak256 encoded⟩, nodes.insert (keccak256 encoded) encoded)

/-- The children of a branch, in order; absent ones are empty strings. -/
def buildChildren (build : List Entry → NodeStore → Except StateError (BuiltNode × NodeStore))
    (entries : List Entry) (depth : Nat) :
    List Nat → NodeStore → Except StateError (List EncodedItem × NodeStore)
  | [], nodes => .ok ([], nodes)
  | nibble :: rest, nodes => do
    let range := childRange entries depth nibble
    let (item, nodes) ←
      if range = [] then pure (EncodedItem.bytes [], nodes)
      else do
        let (child, nodes) ← build range nodes
        pure (childItem child, nodes)
    let (items, nodes) ← buildChildren build entries depth rest nodes
    return (item :: items, nodes)

/-- The node over entries that agree before `depth`.  Every call goes deeper, so fuel
for 65 levels runs out only where the depth check fails. -/
def buildNode : Nat → List Entry → Nat → NodeStore → Except StateError (BuiltNode × NodeStore)
  | 0, _, _, _ => .error (.invalidPath "invalid recursive trie range")
  | fuel + 1, entries, depth, nodes =>
    if SECURE_KEY_NIBBLES < depth then .error (.invalidPath "invalid recursive trie range")
    else
      match entries with
      | [] => .error (.invalidPath "invalid recursive trie range")
      | [entry] =>
        .ok (store nodes (encodeItems
          [.bytes (compactEncode (entry.1.drop depth) true), .bytes entry.2]))
      | first :: second :: rest =>
        let common := commonPrefix first ((second :: rest).getLast (List.cons_ne_nil _ _)) depth
        if 0 < common then do
          let (child, nodes) ←
            buildNode fuel (first :: second :: rest) (depth + common) nodes
          return store nodes (encodeItems
            [.bytes (compactEncode ((first.1.drop depth).take common) false),
              childItem child])
        else do
          rejectIf (SECURE_KEY_NIBBLES ≤ depth) (.invalidPath "duplicate secure key")
          let (items, nodes) ← buildChildren
            (fun range nodes => buildNode fuel range (depth + 1) nodes)
            (first :: second :: rest) depth (List.range 16) nodes
          return store nodes (encodeItems (items ++ [.bytes []]))

def entriesOf (leaves : Leaves) : List Entry :=
  leaves.toList.map fun leaf => (unpackNibbles leaf.1, leaf.2)

/-- **Building.**  The snapshot of secure leaves. -/
def build (leaves : Leaves) : Except StateError TrieSnapshot :=
  if leaves.isEmpty then .ok ⟨EMPTY_ROOT_HASH, ∅, ∅⟩
  else do
    rejectIf (2 ^ 32 ≤ leaves.size) (.limitExceeded "secure trie leaves")
    let (root, nodes) ← buildNode (SECURE_KEY_NIBBLES + 2) (entriesOf leaves) 0 ∅
    return ⟨root.hash, nodes, leaves⟩

end Build

/-! ## Node decoding -/

structure RlpItem where
  raw : Bytes
  payload : Bytes
  list : Bool

def decodeRlpLength (input : Bytes) (lengthBytes : Nat) : Except StateError Nat := do
  rejectIf (input.length < 1 + lengthBytes) (.malformedRlp "truncated length")
  let bytes := (input.drop 1).take lengthBytes
  rejectIf (bytes.head? = some 0 ∨ 8 < lengthBytes) (.malformedRlp "non-canonical length")
  return beNat bytes

/-- The kind, the offset of the payload and its length, from the first byte on. -/
def decodeRlpHeader (input : Bytes) (first : Nat) : Except StateError (Bool × Nat × Nat) :=
  if first < 0x80 then .ok (false, 0, 1)
  else if first < 0xb8 then .ok (false, 1, first - 0x80)
  else if first < 0xc0 then do
    let length ← decodeRlpLength input (first - 0xb7)
    rejectIf (length < 56) (.malformedRlp "non-minimal long string")
    return (false, 1 + (first - 0xb7), length)
  else if first < 0xf8 then .ok (true, 1, first - 0xc0)
  else do
    let length ← decodeRlpLength input (first - 0xf7)
    rejectIf (length < 56) (.malformedRlp "non-minimal long list")
    return (true, 1 + (first - 0xf7), length)

def decodeRlpItem (input : Bytes) : Except StateError RlpItem :=
  match input.head? with
  | none => .error (.malformedRlp "truncated item")
  | some first => do
    let (list, offset, length) ← decodeRlpHeader input first.toNat
    rejectIf (2 ^ 64 ≤ offset + length) (.malformedRlp "length overflow")
    rejectIf (input.length < offset + length) (.malformedRlp "truncated payload")
    let raw := input.take (offset + length)
    let payload := raw.drop offset
    rejectIf (first = 0x81 ∧ (payload.head?.any fun byte => byte.toNat < 0x80) = true)
      (.malformedRlp "non-minimal single byte")
    return ⟨raw, payload, list⟩

/-- The items of a payload; an item has at least one byte, so its length is fuel enough. -/
def decodeRlpItems : Nat → Bytes → Except StateError (List RlpItem)
  | _, [] => .ok []
  | 0, _ :: _ => .ok []
  | fuel + 1, byte :: rest => do
    let item ← decodeRlpItem (byte :: rest)
    let items ← decodeRlpItems fuel ((byte :: rest).drop item.raw.length)
    return item :: items

def decodeRlpList (input : Bytes) : Except StateError (List RlpItem) := do
  let top ← decodeRlpItem input
  rejectIf (top.list = false ∨ top.raw.length ≠ input.length)
    (.malformedRlp "expected one exact list")
  decodeRlpItems top.payload.length top.payload

inductive ChildReference where
  | hash (hash : B256)
  | embedded (encoded : Bytes)

inductive DecodedNode where
  | leaf (path : List Nibble) (value : Bytes)
  | extension (path : List Nibble) (child : ChildReference)
  | branch (children : List (Option ChildReference))

def decodeChild (item : RlpItem) : Except StateError (Option ChildReference) :=
  if item.list then
    if 32 ≤ item.raw.length then .error (.invalidPath "oversized embedded node")
    else .ok (some (.embedded item.raw))
  else if item.payload = [] then .ok none
  else if item.payload.length = 32 then .ok (some (.hash (ofBytes 256 item.payload)))
  else .error (.invalidPath "invalid child reference")

def decodeShort (first second : RlpItem) : Except StateError DecodedNode := do
  rejectIf (first.list = true) (.malformedRlp "compact path type")
  let (path, leaf) ← compactDecode first.payload
  rejectIf (path = []) (.invalidPath "empty leaf/extension path")
  if leaf then do
    rejectIf (second.list = true) (.malformedRlp "leaf value type")
    return .leaf path second.payload
  else do
    let child ← decodeChild second
    match child with
    | some child => return .extension path child
    | none => throw (.invalidPath "empty extension")

def decodeNode (encoded : Bytes) : Except StateError DecodedNode := do
  let fields ← decodeRlpList encoded
  match fields with
  | [first, second] => decodeShort first second
  | fields =>
    if fields.length = 17 then do
      let last := fields.getLastD ⟨[], [], true⟩
      rejectIf (last.list = true ∨ last.payload ≠ [])
        (.invalidPath "secure branch value must be empty")
      let children ← mapAll decodeChild (fields.take 16)
      return .branch children
    else throw (.malformedRlp "node arity")

/-! ## Walking -/

section Walk

variable [Keccak]

def loadHashed (store : NodeStore) (expected : B256) : Except StateError Bytes :=
  match store[expected]? with
  | none => .error (.missingNode expected)
  | some encoded =>
    if keccak256 encoded ≠ expected then
      .error (.nodeHashMismatch expected (keccak256 encoded))
    else .ok encoded

theorem loadHashed_eq_ok_iff {store : NodeStore} {hash : B256} {encoded : Bytes} :
    loadHashed store hash = .ok encoded ↔
      store[hash]? = some encoded ∧ keccak256 encoded = hash := by
  unfold loadHashed
  cases hget : store[hash]? with
  | none => simp
  | some found =>
    by_cases hhash : keccak256 found = hash
    · simp only [hhash, ne_eq, not_true_eq_false, if_false, Except.ok.injEq, Option.some.injEq]
      constructor
      · rintro rfl
        exact ⟨rfl, hhash⟩
      · exact fun h => h.1
    · simp only [ne_eq, hhash, not_false_eq_true, if_true, reduceCtorEq, Option.some.injEq,
        false_iff]
      rintro ⟨rfl, h⟩
      exact hhash h

/-- What a walk has found: the leaves and the hashes followed. -/
structure Walked where
  leaves : Leaves
  visited : BTreeSet B256

/-- The children of a branch, walked in order with their nibbles. -/
def walkChildren
    (walk : ChildReference → List Nibble → Walked → Except StateError Walked)
    (path : List Nibble) : Nat → List (Option ChildReference) → Walked → Except StateError Walked
  | _, [], found => .ok found
  | nibble, none :: rest, found => walkChildren walk path (nibble + 1) rest found
  | nibble, some child :: rest, found => do
    let found ← walk child (path ++ [BitVec.ofNat 4 nibble]) found
    walkChildren walk path (nibble + 1) rest found

def walkChild (walk : Bytes → List Nibble → Walked → Except StateError Walked)
    (store : NodeStore) (child : ChildReference) (path : List Nibble) (found : Walked) :
    Except StateError Walked :=
  match child with
  | .embedded encoded => walk encoded path found
  | .hash hash =>
    if hash ∈ found.visited then .error (.invalidPath "trie node cycle")
    else do
      let encoded ← loadHashed store hash
      walk encoded path { found with visited := found.visited.insert hash }

/-- The walk below a node.  A hash is followed once and an embedded node is shorter than
32 bytes, so the fuel of `collectLeaves` is never used up. -/
def walkNode (store : NodeStore) :
    Nat → Bytes → List Nibble → Walked → Except StateError Walked
  | 0, _, _, _ => .error (.invalidPath "trie node cycle")
  | fuel + 1, encoded, path, found => do
    let node ← decodeNode encoded
    match node with
    | .leaf suffix value => do
      let key ← packNibbles (path ++ suffix)
      if key ∈ found.leaves then throw (.invalidPath "duplicate leaf")
      else return { found with leaves := found.leaves.insert key value }
    | .extension extension child =>
      walkChild (walkNode store fuel) store child (path ++ extension) found
    | .branch children =>
      if SECURE_KEY_NIBBLES ≤ path.length then throw (.invalidPath "branch depth")
      else walkChildren (walkChild (walkNode store fuel) store) path 0 children found

/-- **Collecting.**  The leaves below a stored root. -/
def collectLeaves (root : B256) (store : NodeStore) : Except StateError Leaves :=
  if root = EMPTY_ROOT_HASH then .ok ∅
  else do
    let encoded ← loadHashed store root
    let found ← walkNode store (32 * (store.size + 2)) encoded []
      ⟨∅, (∅ : BTreeSet B256).insert root⟩
    return found.leaves

def extendNodes (snapshot : TrieSnapshot) :
    List (B256 × Bytes) → Except StateError TrieSnapshot
  | [] => .ok snapshot
  | (hash, bytes) :: rest => do
    rejectIf (keccak256 bytes ≠ hash) (.nodeHashMismatch hash (keccak256 bytes))
    rejectIf ((snapshot.nodes[hash]?.any fun existing => existing ≠ bytes) = true)
      (.proof "content hash collision")
    extendNodes { snapshot with nodes := snapshot.nodes.insert hash bytes } rest

def secureAccountKey (address : Address) : B256 := keccak256 (toBytes address)

def secureStorageKey (slot : U256) : B256 := keccak256 (toBytes slot)

end Walk

end Trie

end Arbor
