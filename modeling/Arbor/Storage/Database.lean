import Arbor.Codec.Canonical
import Arbor.Lib.Device
import Arbor.State.Trie

/-!
# The durable database

Finalized markers, domain heads, trie nodes, contract bodies and indexed records, written
in one atomic transaction for each finalized height.  parity-db itself is a device of
ordered byte tables whose operations may fail (`Device`); keys and metadata values are the
byte strings the schema gives them.

A commit first reads and checks everything, then submits one transaction, then prunes old
roots under the retention policy.  A failure of that last pass does not undo the commit: it
is reported in the statistics.
-/

namespace Arbor

open Result Reader Device Canonical

inductive StorageError where
  | database (what : String)
  | state (error : StateError)
  | unsupportedSchema (expected actual : U32)
  | identityMismatch
  | corruptMetadata (what : String)
  | nonMonotonicCommit (current proposed : U64)
  | duplicateCommitKey (what : String)
  | invalidRetention
  | missingRoot (domainId : DomainId) (height : U64)
  | pruneCurrentHead
  | limitExceeded (what : String)
  deriving DecidableEq

def StorageError.display : StorageError → String
  | database what => "parity-db failure: " ++ what
  | state error => error.display
  | unsupportedSchema expected actual =>
    s!"unsupported Arbor database schema {actual.toNat}; expected {expected.toNat}"
  | identityMismatch => "database network/genesis identity mismatch"
  | corruptMetadata what => "corrupt Arbor database metadata: " ++ what
  | nonMonotonicCommit current proposed =>
    s!"non-monotonic finalized height: current {current.toNat}, proposed {proposed.toNat}"
  | duplicateCommitKey what => "duplicate key in finalized commit: " ++ what
  | invalidRetention => "full retention history must be non-zero"
  | missingRoot domainId height =>
    s!"missing state root for domain DomainId({displayHex domainId}) at height {height.toNat}"
  | pruneCurrentHead => "cannot prune the latest finalized domain head"
  | limitExceeded what => "storage encoding limit exceeded: " ++ what

def SCHEMA_VERSION : U32 := 1

inductive Column where
  | metadata
  | trieNodes
  | flatState
  | contractCode
  | receipts
  | indexes
  | domainRegistry
  | snapshots
  deriving DecidableEq

abbrev DbTransaction := List (Change Column)

abbrev Storage (α : Type) := Program Column StorageError α

/-- Database identity that prevents opening one network with another's configuration. -/
structure DatabaseIdentity where
  networkId : NetworkId
  genesisHash : B256
  deriving DecidableEq

inductive RetentionPolicy where
  /-- Retain every historical state root. -/
  | archive
  /-- Retain the newest `history` finalized roots per domain. -/
  | full (history : U64)
  deriving DecidableEq

def RetentionPolicy.validate (policy : RetentionPolicy) : Except StorageError Unit :=
  rejectIf (policy = .full 0) .invalidRetention

structure FinalizedMarker where
  height : U64
  consensusHash : B256
  domainHeadsRoot : B256
  deriving DecidableEq

structure DomainStateCommit where
  domainId : DomainId
  consensusHeight : U64
  snapshot : TrieSnapshot

/-- Opaque durable value written with the finalized marker. -/
structure IndexedValue where
  key : Bytes
  value : Bytes
  deriving DecidableEq

structure CommitBatch where
  marker : FinalizedMarker
  states : List DomainStateCommit := []
  contractCode : BTreeMap B256 Bytes := ∅
  receipts : List IndexedValue := []
  indexes : List IndexedValue := []
  domainRegistry : List IndexedValue := []

structure CommitStats where
  newNodes : Nat := 0
  newNodeBytes : Nat := 0
  prunedRoots : Nat := 0
  /-- A failure of the retention pass, after the commit was already durable. -/
  pruningError : Option String := none
  deriving DecidableEq

namespace Database

/-! ## Metadata values -/

def takeU32 : Reader StorageError U32 := Reader.word (.corruptMetadata "manifest u32") 32
def takeU64 : Reader StorageError U64 := Reader.word (.corruptMetadata "metadata u64") 64
def takeHash : Reader StorageError B256 := Reader.word (.corruptMetadata "metadata hash") 256

def decodeHash (bytes : Bytes) (name : String) : Except StorageError B256 := do
  rejectIf (bytes.length ≠ 32) (.corruptMetadata name)
  return ofBytes 256 bytes

/-- What a state root was made of: its nodes and its leaves. -/
structure ReachabilityManifest where
  nodeHashes : List B256
  leafKeys : List B256
  deriving DecidableEq

def ReachabilityManifest.encode (manifest : ReachabilityManifest) :
    Except StorageError Bytes := do
  rejectIf (2 ^ 32 ≤ manifest.nodeHashes.length) (.limitExceeded "manifest nodes")
  rejectIf (2 ^ 32 ≤ manifest.leafKeys.length) (.limitExceeded "manifest leaves")
  return encodeCount manifest.nodeHashes.length ++ manifest.nodeHashes.flatMap toBytes
    ++ (encodeCount manifest.leafKeys.length ++ manifest.leafKeys.flatMap toBytes)

def ReachabilityManifest.decode (bytes : Bytes) : Except StorageError ReachabilityManifest := do
  let (nodeCount, bytes) ← takeU32.run bytes
  rejectIf (bytes.length < nodeCount.toNat * 32 + 4) (.corruptMetadata "truncated node manifest")
  let (nodeHashes, bytes) ← (takeHash.times nodeCount.toNat).run bytes
  let (leafCount, bytes) ← takeU32.run bytes
  rejectIf (leafCount.toNat * 32 ≠ bytes.length) (.corruptMetadata "manifest length")
  let (leafKeys, _) ← (takeHash.times leafCount.toNat).run bytes
  rejectIf (strictlySorted nodeHashes = false ∨ strictlySorted leafKeys = false)
    (.corruptMetadata "non-canonical manifest order")
  return ⟨nodeHashes, leafKeys⟩

def encodeMarker (marker : FinalizedMarker) : Bytes :=
  toBytes marker.height ++ (toBytes marker.consensusHash ++ toBytes marker.domainHeadsRoot)

def readMarker : Reader StorageError FinalizedMarker := do
  return ⟨← takeU64, ← takeHash, ← takeHash⟩

def decodeMarker (bytes : Bytes) : Except StorageError FinalizedMarker := do
  rejectIf (bytes.length ≠ 72) (.corruptMetadata "finalized marker")
  let (marker, _) ← readMarker.run bytes
  return marker

def encodeHead (height : U64) (root : B256) : Bytes := toBytes height ++ toBytes root

def readHead : Reader StorageError (U64 × B256) := do
  return (← takeU64, ← takeHash)

def decodeHead (bytes : Bytes) : Except StorageError (U64 × B256) := do
  rejectIf (bytes.length ≠ 40) (.corruptMetadata "domain head")
  let (head, _) ← readHead.run bytes
  return head

/-! ## Keys -/

def KEY_SCHEMA : Bytes := ascii "schema-version"
def KEY_NETWORK : Bytes := ascii "network-id"
def KEY_GENESIS : Bytes := ascii "genesis-hash"
def KEY_MARKER : Bytes := ascii "finalized-marker"
def PREFIX_ROOT : Bytes := ascii "root:"
def PREFIX_MANIFEST : Bytes := ascii "manifest:"
def PREFIX_HEAD : Bytes := ascii "head:"

def rootPrefix (domainId : DomainId) : Bytes := PREFIX_ROOT ++ toBytes domainId

def rootKey (domainId : DomainId) (height : U64) : Bytes := rootPrefix domainId ++ toBytes height

def manifestKey (domainId : DomainId) (height : U64) : Bytes :=
  PREFIX_MANIFEST ++ toBytes domainId ++ toBytes height

def headKey (domainId : DomainId) : Bytes := PREFIX_HEAD ++ toBytes domainId

def flatKey (domainId : DomainId) (secureKey : B256) : Bytes :=
  toBytes domainId ++ toBytes secureKey

/-! ## Reading -/

def get (column : Column) (key : Bytes) : Storage (Option Bytes) :=
  Device.get .database column key

def decoded {α : Type} (decode : Bytes → Except StorageError α) (stored : Option Bytes) :
    Except StorageError (Option α) :=
  match stored with
  | none => .ok none
  | some bytes => do return some (← decode bytes)

def finalizedMarker : Storage (Option FinalizedMarker) := do
  give (decoded decodeMarker (← get .metadata KEY_MARKER))

/-- The latest consensus height and state root committed for a domain. -/
def latestHead (domainId : DomainId) : Storage (Option (U64 × B256)) := do
  give (decoded decodeHead (← get .metadata (headKey domainId)))

def loadManifest (domainId : DomainId) (height : U64) : Storage (Option ReachabilityManifest) := do
  give (decoded ReachabilityManifest.decode (← get .metadata (manifestKey domainId height)))

def stateRoot (domainId : DomainId) (height : U64) : Storage B256 := do
  match ← get .metadata (rootKey domainId height) with
  | none => throw (.missingRoot domainId height)
  | some bytes => give (decodeHash bytes "state root")

def index (key : Bytes) : Storage (Option Bytes) := get .indexes key

def receipt (key : Bytes) : Storage (Option Bytes) := get .receipts key

def domainRegistry (domainId : DomainId) : Storage (Option Bytes) :=
  get .domainRegistry (toBytes domainId)

def contractCode [Keccak] (codeHash : B256) : Storage (Option Bytes) := do
  let code ← get .contractCode (toBytes codeHash)
  give (rejectIf ((code.any fun bytes => keccak256 bytes ≠ codeHash) = true)
    (.corruptMetadata "contract code hash"))
  return code

def nodeStore (tables : Tables Column) : NodeStore :=
  (∅ : NodeStore).insertMany ((tables .trieNodes).toList.filterMap fun entry =>
    if entry.1.length = 32 then some (ofBytes 256 entry.1, entry.2) else none)

def flatState (domainId : DomainId) (secureKey : B256) : Storage (Option Bytes) :=
  get .flatState (flatKey domainId secureKey)

/-! ## The flat cache -/

def clearFlatState (domainId : DomainId) : Storage Nat := do
  let entries ← Device.entries .database .flatState (toBytes domainId)
  Device.commit .database (entries.map fun entry => ⟨.flatState, entry.1, none⟩)
  return entries.length

/-- Rebuilds a domain's flat cache by traversing the trie of a root. -/
def rebuildFlatState [Keccak] (domainId : DomainId) (root : B256) : Storage Nat := do
  let walked ← query (fun what => .state (.store what)) fun tables =>
    Trie.collectLeaves root (nodeStore tables)
  let leaves ← give (walked.mapError .state)
  Device.commit .database
    (leaves.toList.map fun leaf => ⟨.flatState, flatKey domainId leaf.1, some leaf.2⟩)
  return leaves.size

/-! ## Committing -/

def checkUnique {α : Type} [DecidableEq α] (what : String) (keys : List α) :
    Except StorageError Unit :=
  rejectIf (¬keys.Nodup) (.duplicateCommitKey what)

def validateUnique (batch : CommitBatch) : Except StorageError Unit := do
  checkUnique "domain state" (batch.states.map (·.domainId))
  checkUnique "receipt" (batch.receipts.map (·.key))
  checkUnique "index" (batch.indexes.map (·.key))
  checkUnique "domain registry" (batch.domainRegistry.map (·.key))

def checkMonotonic (current : Option FinalizedMarker) (height : U64) : Except StorageError Unit :=
  match current with
  | some current =>
    rejectIf (height ≤ current.height) (.nonMonotonicCommit current.height height)
  | none => .ok ()

structure Pending where
  transaction : DbTransaction
  nodeHashes : BTreeSet B256
  stats : CommitStats

def appendNode (pending : Pending) (node : B256 × Bytes) : Storage Pending := do
  match ← get .trieNodes (toBytes node.1) with
  | some existing =>
    if existing ≠ node.2 then throw (.corruptMetadata "content hash collision")
    else return pending
  | none =>
    if node.1 ∈ pending.nodeHashes then return pending
    else return {
      transaction := pending.transaction ++ [⟨.trieNodes, toBytes node.1, some node.2⟩]
      nodeHashes := pending.nodeHashes.insert node.1
      stats := { pending.stats with
        newNodes := pending.stats.newNodes + 1
        newNodeBytes := pending.stats.newNodeBytes + node.2.length } }

def oldLeafKeys (domainId : DomainId) : Storage (List B256) := do
  match ← latestHead domainId with
  | none => return []
  | some (height, _) =>
    match ← loadManifest domainId height with
    | none => throw (.corruptMetadata "missing latest manifest")
    | some manifest => return manifest.leafKeys

def manifestOf (snapshot : TrieSnapshot) : ReachabilityManifest :=
  ⟨snapshot.nodes.keys, snapshot.leaves.keys⟩

/-- The lines of a transaction that move one domain to a new state. -/
def stateChanges (state : DomainStateCommit) (oldKeys : List B256) (manifest : Bytes) :
    DbTransaction :=
  (oldKeys.filter fun key => key ∉ state.snapshot.leaves).map
      (fun key => ⟨.flatState, flatKey state.domainId key, none⟩)
    ++ state.snapshot.leaves.toList.map
      (fun leaf => ⟨.flatState, flatKey state.domainId leaf.1, some leaf.2⟩)
    ++ [⟨.metadata, rootKey state.domainId state.consensusHeight,
      some (toBytes state.snapshot.root)⟩,
        ⟨.metadata, manifestKey state.domainId state.consensusHeight, some manifest⟩,
        ⟨.metadata, headKey state.domainId,
          some (encodeHead state.consensusHeight state.snapshot.root)⟩]

section Commit

variable [Keccak]

def appendStateChanges (pending : Pending) (state : DomainStateCommit) : Storage Pending := do
  let rebuilt ← give ((Trie.collectLeaves state.snapshot.root state.snapshot.nodes).mapError .state)
  give (rejectIf (rebuilt.toList ≠ state.snapshot.leaves.toList)
    (.corruptMetadata "snapshot leaves differ from trie"))
  let pending ← state.snapshot.nodes.toList.foldlM appendNode pending
  let oldKeys ← oldLeafKeys state.domainId
  let manifest ← give (manifestOf state.snapshot).encode
  return { pending with
    transaction := pending.transaction ++ stateChanges state oldKeys manifest }

/-- One state of a batch, which must not be above the marker. -/
def appendState (height : U64) (pending : Pending) (state : DomainStateCommit) :
    Storage Pending := do
  give (rejectIf (height < state.consensusHeight)
    (.corruptMetadata "domain state height exceeds finalized marker"))
  appendStateChanges pending state

def appendRecord (transaction : DbTransaction) (record : IndexedValue) :
    Storage DbTransaction := do
  give (rejectIf (record.key.length ≠ 32) (.corruptMetadata "domain registry key length"))
  match ← get .domainRegistry record.key with
  | some existing =>
    if existing ≠ record.value then throw (.corruptMetadata "immutable domain registry conflict")
    else return transaction
  | none => return transaction ++ [⟨.domainRegistry, record.key, some record.value⟩]

/-- The checks of a commit and the transaction they lead to. -/
def prepare (batch : CommitBatch) : Storage (DbTransaction × CommitStats) := do
  give (checkMonotonic (← finalizedMarker) batch.marker.height)
  give (validateUnique batch)
  let pending ← batch.states.foldlM (appendState batch.marker.height) ⟨[], ∅, {}⟩
  give (checkAll (fun code : B256 × Bytes =>
    rejectIf (keccak256 code.2 ≠ code.1) (.corruptMetadata "contract code hash"))
    batch.contractCode.toList)
  let transaction ← batch.domainRegistry.foldlM appendRecord
    (pending.transaction
      ++ batch.contractCode.toList.map (fun code => ⟨.contractCode, toBytes code.1, some code.2⟩)
      ++ batch.receipts.map (fun record => ⟨.receipts, record.key, some record.value⟩)
      ++ batch.indexes.map (fun record => ⟨.indexes, record.key, some record.value⟩))
  return (transaction ++ [⟨.metadata, KEY_MARKER, some (encodeMarker batch.marker)⟩],
    pending.stats)

end Commit

/-! ## Pruning -/

/-- The hashes that the manifests other than the excluded one list. -/
def liveNodeHashes (excluding : Option (DomainId × U64)) : Storage (BTreeSet B256) := do
  let manifests ← Device.entries .database .metadata PREFIX_MANIFEST
  give (manifests.foldlM (fun live entry =>
    if (excluding.any fun pair => entry.1 = manifestKey pair.1 pair.2) = true then .ok live
    else do
      let manifest ← ReachabilityManifest.decode entry.2
      return live.insertMany manifest.nodeHashes) ∅)

/-- The lines of a transaction that take out a root, its manifest and dead nodes. -/
def pruneChanges (domainId : DomainId) (height : U64) (dead : List B256) : DbTransaction :=
  ⟨.metadata, rootKey domainId height, none⟩ :: ⟨.metadata, manifestKey domainId height, none⟩
    :: dead.map fun hash => ⟨.trieNodes, toBytes hash, none⟩

/-- Prunes one historical root that is not a head, with the nodes no other manifest lists. -/
def pruneRoot (domainId : DomainId) (height : U64) : Storage Nat := do
  let head ← latestHead domainId
  give (rejectIf ((head.any fun head => head.1 = height) = true) .pruneCurrentHead)
  match ← loadManifest domainId height with
  | none => throw (.missingRoot domainId height)
  | some removed => do
    let live ← liveNodeHashes (some (domainId, height))
    let dead := removed.nodeHashes.filter (· ∉ live)
    Device.commit .database (pruneChanges domainId height dead)
    return dead.length

/-- The heights at which a domain has recorded roots, in order. -/
def rootHeights (domainId : DomainId) : Storage (List U64) := do
  let roots ← Device.entries .database .metadata (rootPrefix domainId)
  give (mapAll (fun entry : Bytes × Bytes => do
    let suffix := entry.1.drop (rootPrefix domainId).length
    rejectIf (suffix.length ≠ 8) (.corruptMetadata "root height key")
    return ofBytes 64 suffix) roots)

def pruneOld (domainId : DomainId) (cutoff : Nat) (pruned : Nat) (height : U64) : Storage Nat :=
  if height.toNat < cutoff then do
    let _ ← pruneRoot domainId height
    return pruned + 1
  else return pruned

def pruneBelow (cutoff : Nat) (pruned : Nat) (state : DomainStateCommit) : Storage Nat := do
  let heights ← rootHeights state.domainId
  heights.foldlM (pruneOld state.domainId cutoff) pruned

def applyRetention (retention : RetentionPolicy) (height : U64)
    (states : List DomainStateCommit) : Storage Nat :=
  match retention with
  | .archive => pure 0
  | .full history => states.foldlM (pruneBelow (height.toNat - (history.toNat - 1))) 0

/-- The retention pass after a durable commit: its failure is only reported. -/
def reportRetention (retention : RetentionPolicy) (batch : CommitBatch) (stats : CommitStats) :
    Storage CommitStats := do
  match ← attempt (applyRetention retention batch.marker.height batch.states) with
  | .ok pruned => return { stats with prunedRoots := pruned }
  | .error error => return { stats with pruningError := some error.display }

/-- **Commit.**  All checks, one transaction, then the retention pass. -/
def commit [Keccak] (retention : RetentionPolicy) (batch : CommitBatch) : Storage CommitStats := do
  let (transaction, stats) ← prepare batch
  Device.commit .database transaction
  reportRetention retention batch stats

/-! ## Opening -/

def readSchema : Storage U32 := do
  match ← get .metadata KEY_SCHEMA with
  | none => throw (.corruptMetadata "missing schema version")
  | some bytes => do
    give (rejectIf (bytes.length ≠ 4) (.corruptMetadata "schema version"))
    return ofBytes 32 bytes

def identityHash (key : Bytes) (missing name : String) : Storage B256 := do
  match ← get .metadata key with
  | none => throw (.corruptMetadata missing)
  | some bytes => give (decodeHash bytes name)

def initializeOrValidate (identity : DatabaseIdentity) : Storage Unit := do
  match ← get .metadata KEY_SCHEMA with
  | none => do
    let network ← get .metadata KEY_NETWORK
    let genesis ← get .metadata KEY_GENESIS
    let marker ← get .metadata KEY_MARKER
    give (rejectIf (network.isSome ∨ genesis.isSome ∨ marker.isSome)
      (.corruptMetadata "partial schema identity"))
    Device.commit .database
      [⟨.metadata, KEY_SCHEMA, some (toBytes SCHEMA_VERSION)⟩,
        ⟨.metadata, KEY_NETWORK, some (toBytes identity.networkId)⟩,
        ⟨.metadata, KEY_GENESIS, some (toBytes identity.genesisHash)⟩]
  | some _ => do
    let actual ← readSchema
    give (rejectIf (actual ≠ SCHEMA_VERSION) (.unsupportedSchema SCHEMA_VERSION actual))
    let network ← identityHash KEY_NETWORK "missing network id" "network id"
    let genesis ← identityHash KEY_GENESIS "missing genesis hash" "genesis hash"
    give (rejectIf (network ≠ identity.networkId ∨ genesis ≠ identity.genesisHash)
      .identityMismatch)

def openDatabase (identity : DatabaseIdentity) (retention : RetentionPolicy) : Storage Unit := do
  give retention.validate
  initializeOrValidate identity

end Database

end Arbor
