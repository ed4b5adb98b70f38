import Arbor.State.Account

/-!
# The execution state of a domain

An account trie with every reachable storage node, the contract bodies and the block
hashes `BLOCKHASH` may see.  Reads decode authenticated leaves.  A transaction's
changes are applied as a whole: storage tries are rebuilt per touched account, then
the account trie, then the set of reachable nodes.
-/

namespace Arbor

open Result

inductive EvmRevision where
  | shanghai
  deriving DecidableEq

def EvmRevision.byte : EvmRevision → U8
  | .shanghai => 1

inductive EvmError where
  | unsupportedProtocolRevision (revision : U32)
  | invalidEnvironment (what : String)
  | state (what : String)
  | invalidTransaction (what : String)
  | invalidHeader (what : String)
  | system (what : String)
  deriving DecidableEq

def EvmError.display : EvmError → String
  | unsupportedProtocolRevision revision => s!"unsupported protocol revision {revision.toNat}"
  | invalidEnvironment what => s!"invalid domain environment: {what}"
  | state what => s!"authenticated execution state failure: {what}"
  | invalidTransaction what => s!"invalid transaction: {what}"
  | invalidHeader what => s!"invalid EVM block environment: {what}"
  | system what => s!"native system-contract failure: {what}"

/-- A result of the state crate, its error kept as text. -/
def ofState {α : Type} (result : Except StateError α) : Except EvmError α :=
  result.mapError fun error => .state error.display

theorem ofState_eq_ok {α : Type} {result : Except StateError α} {a : α} :
    ofState result = .ok a ↔ result = .ok a := by
  cases result <;> simp [ofState]

structure ProtocolSpec where
  protocolRevision : U32
  evmRevision : EvmRevision
  maxCodeBytes : Nat
  maxInitcodeBytes : Nat
  maxLogsPerTransaction : Nat
  deriving DecidableEq

def ProtocolSpec.V1 : ProtocolSpec := ⟨1, .shanghai, 24576, 49152, 1024⟩

def ProtocolSpec.resolve (protocolRevision : U32) : Except EvmError ProtocolSpec :=
  if protocolRevision = 1 then .ok ProtocolSpec.V1
  else .error (.unsupportedProtocolRevision protocolRevision)

structure DomainEnv where
  chainId : U64
  blockNumber : U64
  timestamp : U64
  beneficiary : Address
  gasLimit : U64
  baseFeePerGas : U128
  prevrandao : B256
  deriving DecidableEq

def DomainEnv.validate (env : DomainEnv) : Except EvmError Unit := do
  rejectIf (env.chainId = 0) (.invalidEnvironment "chain ID must be non-zero")
  rejectIf (env.gasLimit = 0 ∨ 30000000 < env.gasLimit.toNat)
    (.invalidEnvironment "domain gas limit must be in 1..=30,000,000")
  rejectIf (2 ^ 64 ≤ env.baseFeePerGas.toNat)
    (.invalidEnvironment "base fee exceeds the fixed revm block field")

structure GenesisAccount where
  nonce : U64
  balance : U256
  code : Bytes
  storage : BTreeMap U256 U256
  deriving DecidableEq

/-- Account trie, reachable nodes, contract bodies and block hashes. -/
structure ExecutionState where
  accounts : TrieSnapshot
  trieNodes : NodeStore
  contractCode : BTreeMap B256 Bytes
  blockHashes : BTreeMap U64 B256
  deriving DecidableEq

/-- What a transaction did to an account: its new fields, its slots with their original
and present words, and the journal's marks. -/
structure AccountChange where
  nonce : U64
  balance : U256
  codeHash : B256
  code : Option Bytes
  storage : BTreeMap U256 (U256 × U256)
  touched : Bool
  created : Bool
  selfdestructed : Bool
  deriving DecidableEq

/-- The slots whose present word differs from the original. -/
def AccountChange.changedStorageSlots (change : AccountChange) : List (U256 × U256) :=
  (change.storage.toList.filter fun slot => slot.2.1 ≠ slot.2.2).map fun slot => (slot.1, slot.2.2)

namespace ExecutionState

section State

variable [Keccak]

def storageLeaves (storage : BTreeMap U256 U256) : Leaves :=
  (storage.toList.filterMap fun slot =>
    (storageTrieValue slot.2).map fun value => (Trie.secureStorageKey slot.1, value)).foldl
      (fun leaves leaf => leaves.insert leaf.1 leaf.2) ∅

def buildStorageSnapshot (storage : BTreeMap U256 U256) : Except EvmError TrieSnapshot :=
  ofState (Trie.build (storageLeaves storage))

/-- What genesis has collected: account leaves, nodes and code. -/
structure Materialized where
  leaves : Leaves
  nodes : NodeStore
  code : BTreeMap B256 Bytes

def materialize (found : Materialized) (allocation : Address × GenesisAccount) :
    Except EvmError Materialized := do
  let storage ← buildStorageSnapshot allocation.2.storage
  let codeHash := if allocation.2.code = [] then KECCAK_EMPTY else keccak256 allocation.2.code
  let code :=
    if allocation.2.code = [] then found.code else found.code.insert codeHash allocation.2.code
  let account : Account :=
    ⟨allocation.2.nonce, allocation.2.balance, storage.root, codeHash⟩
  let leaves :=
    if account.isEmpty then found.leaves
    else found.leaves.insert (Trie.secureAccountKey allocation.1) (encodeAccount account)
  return ⟨leaves, found.nodes ∪ storage.nodes, code⟩

def materializeAll : List (Address × GenesisAccount) → Materialized → Except EvmError Materialized
  | [], found => .ok found
  | allocation :: rest, found => do
    let found ← materialize found allocation
    materializeAll rest found

def fromGenesis (allocations : BTreeMap Address GenesisAccount) :
    Except EvmError ExecutionState := do
  let found ← materializeAll allocations.toList ⟨∅, ∅, ∅⟩
  let accounts ← ofState (Trie.build found.leaves)
  let trieNodes := found.nodes ∪ accounts.nodes
  let accounts ← ofState (Trie.extendNodes accounts trieNodes.toList)
  return ⟨accounts, trieNodes, found.code, ∅⟩

/-- The storage of one reloaded account, added to the nodes. -/
def reloadStorage (store nodes : NodeStore) (account : Account) : Except EvmError NodeStore :=
  if account.storageRoot = Trie.EMPTY_ROOT_HASH then .ok nodes
  else do
    let leaves ← ofState (Trie.collectLeaves account.storageRoot store)
    let storage ← ofState (Trie.build leaves)
    rejectIf (storage.root ≠ account.storageRoot) (.state "persisted storage root mismatch")
    return nodes ∪ storage.nodes

def reloadCode (loadCode : B256 → Except EvmError (Option Bytes)) (code : BTreeMap B256 Bytes)
    (account : Account) : Except EvmError (BTreeMap B256 Bytes) :=
  if account.codeHash = KECCAK_EMPTY then .ok code
  else do
    let loaded ← loadCode account.codeHash
    match loaded with
    | none => throw (.state ("missing contract code " ++ displayHex account.codeHash))
    | some body => do
      rejectIf (keccak256 body ≠ account.codeHash) (.state "contract code hash mismatch")
      return code.insert account.codeHash body

def reloadAccounts (store : NodeStore) (loadCode : B256 → Except EvmError (Option Bytes)) :
    List Bytes → NodeStore × BTreeMap B256 Bytes →
      Except EvmError (NodeStore × BTreeMap B256 Bytes)
  | [], found => .ok found
  | encoded :: rest, (nodes, code) => do
    let account ← ofState (decodeAccount encoded)
    let nodes ← reloadStorage store nodes account
    let code ← reloadCode loadCode code account
    reloadAccounts store loadCode rest (nodes, code)

/-- The state below a persisted root; code is loaded only for current accounts. -/
def fromPersisted (root : B256) (store : NodeStore)
    (loadCode : B256 → Except EvmError (Option Bytes)) : Except EvmError ExecutionState := do
  let leaves ← ofState (Trie.collectLeaves root store)
  let accounts ← ofState (Trie.build leaves)
  rejectIf (accounts.root ≠ root) (.state "persisted account root mismatch")
  let (trieNodes, contractCode) ←
    reloadAccounts store loadCode (leaves.toList.map (·.2)) (accounts.nodes, ∅)
  let accounts ← ofState (Trie.extendNodes accounts trieNodes.toList)
  return ⟨accounts, trieNodes, contractCode, ∅⟩

def stateRoot (state : ExecutionState) : B256 := state.accounts.root

def insertBlockHash (state : ExecutionState) (number : U64) (hash : B256) : ExecutionState :=
  { state with blockHashes := state.blockHashes.insert number hash }

def account (state : ExecutionState) (address : Address) : Except EvmError (Option Account) :=
  match state.accounts.leaves[Trie.secureAccountKey address]? with
  | none => .ok none
  | some bytes => do
    let account ← ofState (decodeAccount bytes)
    return some account

def storage (state : ExecutionState) (address : Address) (index : U256) : Except EvmError U256 := do
  let account ← state.account address
  match account with
  | none => return 0
  | some account =>
    if account.storageRoot = Trie.EMPTY_ROOT_HASH then return 0
    else do
      let leaves ← ofState (Trie.collectLeaves account.storageRoot state.trieNodes)
      match leaves[Trie.secureStorageKey index]? with
      | none => return 0
      | some value => ofState (decodeStorageTrieValue value)

/-! ## Applying changes -/

/-- A failure and the state it leaves behind: bodies of earlier accounts may be in it. -/
structure Failure where
  error : EvmError
  state : ExecutionState

structure Applying where
  overlay : StateOverlay
  addedNodes : NodeStore
  contractCode : BTreeMap B256 Bytes

def writeSlot (leaves : Leaves) (slot : U256 × U256) : Leaves :=
  match storageTrieValue slot.2 with
  | some value => leaves.insert (Trie.secureStorageKey slot.1) value
  | none => leaves.erase (Trie.secureStorageKey slot.1)

def changedLeaves (state : ExecutionState) (address : Address) (change : AccountChange)
    (slots : List (U256 × U256) := change.changedStorageSlots) : Except EvmError Leaves := do
  let old ← state.account address
  let old := old.getD Account.default
  let leaves ←
    if change.created ∨ old.storageRoot = Trie.EMPTY_ROOT_HASH then pure ∅
    else ofState (Trie.collectLeaves old.storageRoot state.trieNodes)
  return slots.foldl writeSlot leaves

/-- The code map with the body of a changed account, if it has one. -/
def changedCode (code : BTreeMap B256 Bytes) (change : AccountChange) :
    Except EvmError (BTreeMap B256 Bytes) :=
  match change.code with
  | none => .ok code
  | some bytes =>
    if change.codeHash = KECCAK_EMPTY ∨ bytes = [] then .ok code
    else if keccak256 bytes ≠ change.codeHash then
      .error (.state "revm returned mismatched code hash")
    else .ok (code.insert change.codeHash bytes)

def applyChange (state : ExecutionState) (applying : Applying) (change : Address × AccountChange)
    (slots : List (U256 × U256) := change.2.changedStorageSlots) : Except EvmError Applying :=
  if change.2.touched = false then .ok applying
  else if change.2.selfdestructed then
    .ok { applying with overlay := applying.overlay.deleteAccount change.1 }
  else do
    let leaves ← state.changedLeaves change.1 change.2 slots
    let storage ← ofState (Trie.build leaves)
    let contractCode ← changedCode applying.contractCode change.2
    return { overlay := applying.overlay.setAccount change.1
               ⟨change.2.nonce, change.2.balance, storage.root, change.2.codeHash⟩
             addedNodes := applying.addedNodes ∪ storage.nodes
             contractCode }

/-- The loop over the changes; a map gives no order of its slots away, so `order` says in which
one they are visited. -/
def applyAll (state : ExecutionState) (changes : List (Address × AccountChange))
    (applying : Applying) (order : Address × AccountChange → List (U256 × U256) :=
      fun change => change.2.changedStorageSlots) : Except Failure Applying :=
  match changes with
  | [] => .ok applying
  | change :: rest => do
    let next ← (state.applyChange applying change (order change)).mapError fun error =>
      ⟨error, { state with contractCode := applying.contractCode }⟩
    state.applyAll rest next order

/-- The nodes of every storage trie the account leaves refer to. -/
def reachableNodes (candidates : NodeStore) : List Bytes → NodeStore → Except EvmError NodeStore
  | [], reachable => .ok reachable
  | encoded :: rest, reachable => do
    let account ← ofState (decodeAccount encoded)
    let reachable ←
      if account.storageRoot = Trie.EMPTY_ROOT_HASH then pure reachable
      else do
        let leaves ← ofState (Trie.collectLeaves account.storageRoot candidates)
        let storage ← ofState (Trie.build leaves)
        pure (reachable ∪ storage.nodes)
    reachableNodes candidates rest reachable

/-- The account trie of the collected writes and all nodes reachable from it. -/
def rebuild (state : ExecutionState) (applying : Applying) :
    Except EvmError (TrieSnapshot × NodeStore) := do
  let accounts ← ofState applying.overlay.commit
  let candidates := (state.trieNodes ∪ applying.addedNodes) ∪ accounts.nodes
  let reachable ← reachableNodes candidates (accounts.leaves.toList.map (·.2)) accounts.nodes
  let accounts ← ofState (Trie.extendNodes accounts reachable.toList)
  return (accounts, reachable)

def applyChanges (state : ExecutionState) (changes : List (Address × AccountChange))
    (order : Address × AccountChange → List (U256 × U256) :=
      fun change => change.2.changedStorageSlots) : Except Failure ExecutionState := do
  let applying ← state.applyAll changes
    ⟨StateOverlay.fromSnapshot state.accounts, ∅, state.contractCode⟩ order
  let (accounts, trieNodes) ← (state.rebuild applying).mapError fun error =>
    ⟨error, { state with contractCode := applying.contractCode }⟩
  return { accounts, trieNodes, contractCode := applying.contractCode,
           blockHashes := state.blockHashes }

end State

end ExecutionState

end Arbor
