import Arbor.Crypto

/-!
# The transaction pool

One queue of nonces per domain and sender, bounded in total and per sender.  Admission
checks the envelope, its chain ID and signature, and that the nonce is not used up; a
second transaction with a nonce replaces the first only at a higher price.
-/

namespace Arbor

open Result

structure MempoolConfig where
  maxTransactions : Nat
  maxTransactionsPerSender : Nat
  maxTransactionBytes : Nat
  replacementBumpPercent : U8
  deriving DecidableEq

inductive QueueStatus where
  | pending
  | queued
  | replaced
  deriving DecidableEq

structure PoolEntry where
  domainId : DomainId
  sender : Address
  transactionHash : B256
  envelope : Bytes
  transaction : Eip1559Transaction
  deriving DecidableEq

inductive MempoolError where
  | unknownDomain
  | invalidChainId
  | domainAlreadyRegistered
  | duplicateChainId
  | envelopeTooLarge (limit actual : Nat)
  | invalidTransaction (what : String)
  | wrongChainId (expected actual : U64)
  | nonceTooLow (state transaction : U64)
  | replacementUnderpriced
  | capacity
  | senderCapacity
  deriving DecidableEq

abbrev PoolKey := DomainId × Address × U64

-- the orders of the pool's keys, named so that every map shares them
instance instTransOrdPoolKey : Std.TransOrd PoolKey := inferInstance
instance instLawfulEqOrdPoolKey : Std.LawfulEqOrd PoolKey := inferInstance
instance instTransOrdSenderKey : Std.TransOrd (DomainId × Address) := inferInstance
instance instLawfulEqOrdSenderKey : Std.LawfulEqOrd (DomainId × Address) := inferInstance

structure Mempool where
  config : MempoolConfig
  chainIds : BTreeMap DomainId U64
  usedChainIds : BTreeSet U64
  entries : BTreeMap PoolKey PoolEntry
  senderCounts : BTreeMap (DomainId × Address) Nat

def PoolEntry.key (entry : PoolEntry) : PoolKey :=
  (entry.domainId, entry.sender, entry.transaction.nonce)

namespace Mempool

def new (config : MempoolConfig) : Mempool :=
  ⟨{ config with
      maxTransactionBytes := min config.maxTransactionBytes MAX_TRANSACTION_ENVELOPE_BYTES },
    ∅, ∅, ∅, ∅⟩

def registerDomain (pool : Mempool) (domainId : DomainId) (chainId : U64) :
    Except MempoolError Mempool :=
  if chainId = 0 then .error .invalidChainId
  else
    match pool.chainIds[domainId]? with
    | some registered => if registered = chainId then .ok pool else .error .domainAlreadyRegistered
    | none =>
      if chainId ∈ pool.usedChainIds then .error .duplicateChainId
      else
        .ok { pool with
          chainIds := pool.chainIds.insert domainId chainId
          usedChainIds := pool.usedChainIds.insert chainId }

def replacementMin (value : U128) (bumpPercent : U8) : Nat :=
  let quotient := value.toNat / 100
  let remainder := value.toNat % 100
  let bump := min (min (quotient * bumpPercent.toNat) (2 ^ 128 - 1) +
    (min (remainder * bumpPercent.toNat) (2 ^ 128 - 1) + 99) / 100) (2 ^ 128 - 1)
  min (value.toNat + bump) (2 ^ 128 - 1)

def replacementPriced (old new : Eip1559Transaction) (bumpPercent : U8) : Bool :=
  replacementMin old.maxFeePerGas bumpPercent ≤ new.maxFeePerGas.toNat ∧
    replacementMin old.maxPriorityFeePerGas bumpPercent ≤ new.maxPriorityFeePerGas.toNat

/-- Whether every nonce from one to another is in the pool; a run of entries is no longer
than the pool. -/
def contiguousFrom (pool : Mempool) (domainId : DomainId) (sender : Address) (target : U64) :
    Nat → U64 → Bool
  | 0, _ => false
  | fuel + 1, nonce =>
    (domainId, sender, nonce) ∈ pool.entries ∧
      (nonce = target ∨ contiguousFrom pool domainId sender target fuel (nonce + 1))

def nonceIsContiguous (pool : Mempool) (domainId : DomainId) (sender : Address)
    (stateNonce target : U64) : Bool :=
  pool.contiguousFrom domainId sender target pool.entries.size stateNonce

/-- The entries with consecutive nonces from a given one on. -/
def readyFrom (pool : Mempool) (domainId : DomainId) (sender : Address) :
    Nat → U64 → List PoolEntry
  | 0, _ => []
  | fuel + 1, nonce =>
    match pool.entries[(domainId, sender, nonce)]? with
    | none => []
    | some entry =>
      if nonce = BitVec.allOnes 64 then [entry]
      else entry :: readyFrom pool domainId sender fuel (nonce + 1)

def ready (pool : Mempool) (domainId : DomainId) (sender : Address) (stateNonce : U64) :
    List PoolEntry :=
  pool.readyFrom domainId sender pool.entries.size stateNonce

def senders (pool : Mempool) (domainId : DomainId) : List Address :=
  (pool.senderCounts.keys.filter fun key => key.1 = domainId).map (·.2)

def decrementSender (pool : Mempool) (domainId : DomainId) (sender : Address) (removed : Nat) :
    Mempool :=
  match pool.senderCounts[(domainId, sender)]? with
  | none => pool
  | some count =>
    { pool with
      senderCounts :=
        if count - removed = 0 then pool.senderCounts.erase (domainId, sender)
        else pool.senderCounts.insert (domainId, sender) (count - removed) }

def reserveKey (pool : Mempool) (key : PoolKey) : Mempool :=
  ({ pool with entries := pool.entries.erase key }).decrementSender key.1 key.2.1 1

/-- The entries with given hashes, taken out in the order of their keys. -/
def reserveHashes (pool : Mempool) (hashes : BTreeSet B256) : Mempool × List PoolEntry :=
  let reserved := pool.entries.toList.filter fun entry => entry.2.transactionHash ∈ hashes
  ((reserved.map (·.1)).foldl reserveKey pool, reserved.map (·.2))

def restoreEntry (pool : Mempool) (entry : PoolEntry) : Mempool :=
  if entry.key ∈ pool.entries ∨ entry.domainId ∉ pool.chainIds then pool
  else
    { pool with
      entries := pool.entries.insert entry.key entry
      senderCounts := pool.senderCounts.insert (entry.domainId, entry.sender)
        (pool.senderCounts[(entry.domainId, entry.sender)]?.getD 0 + 1) }

def restoreReserved (pool : Mempool) (entries : List PoolEntry) : Mempool :=
  entries.foldl restoreEntry pool

def advanceNonce (pool : Mempool) (domainId : DomainId) (sender : Address) (stateNonce : U64) :
    Mempool :=
  let keys := pool.entries.keys.filter fun key =>
    key.1 = domainId ∧ key.2.1 = sender ∧ key.2.2 < stateNonce
  ({ pool with entries := keys.foldl (fun entries key => entries.erase key) pool.entries }
    ).decrementSender domainId sender keys.length

section Insert

variable [Keccak] [Secp256k1]

/-- The entry an admitted envelope makes, before the pool's own limits. -/
def admitted (pool : Mempool) (domainId : DomainId) (envelope : Bytes) (stateNonce : U64) :
    Except MempoolError PoolEntry :=
  match pool.chainIds[domainId]? with
  | none => .error .unknownDomain
  | some chainId => do
    rejectIf (pool.config.maxTransactionBytes < envelope.length)
      (.envelopeTooLarge pool.config.maxTransactionBytes envelope.length)
    let transaction ← (Ethereum.decodeEip1559 envelope).mapError
      fun error => .invalidTransaction error.display
    rejectIf (transaction.chainId ≠ chainId) (.wrongChainId chainId transaction.chainId)
    rejectIf (transaction.nonce < stateNonce) (.nonceTooLow stateNonce transaction.nonce)
    let sender ← (Crypto.recoverEip1559Sender transaction).mapError
      fun error => .invalidTransaction error.display
    let transactionHash ← (Crypto.eip1559TransactionHash transaction).mapError
      fun error => .invalidTransaction error.display
    return { domainId, sender, transactionHash, envelope, transaction }

def insert (pool : Mempool) (domainId : DomainId) (envelope : Bytes) (stateNonce : U64) :
    Except MempoolError (Mempool × QueueStatus) := do
  let entry ← pool.admitted domainId envelope stateNonce
  let replaced := { pool with entries := pool.entries.insert entry.key entry }
  match pool.entries[entry.key]? with
  | some existing => do
    rejectIf (replacementPriced existing.transaction entry.transaction
        pool.config.replacementBumpPercent = false)
      .replacementUnderpriced
    return (replaced, .replaced)
  | none => do
    rejectIf (pool.config.maxTransactions ≤ pool.entries.size) .capacity
    let senderCount := pool.senderCounts[(domainId, entry.sender)]?.getD 0
    rejectIf (pool.config.maxTransactionsPerSender ≤ senderCount) .senderCapacity
    let inserted := { replaced with
      senderCounts := pool.senderCounts.insert (domainId, entry.sender) (senderCount + 1) }
    return (inserted,
      if inserted.nonceIsContiguous domainId entry.sender stateNonce entry.transaction.nonce
      then .pending else .queued)

end Insert

end Mempool

end Arbor
