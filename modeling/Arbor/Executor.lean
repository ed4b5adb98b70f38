import Arbor.Evm.Execute

/-!
# Executing one domain batch

Envelopes are decoded, checked against the domain's chain ID, their senders recovered,
and executed in order on a copy of the parent state.  A reverted transaction has a
receipt of status zero; an invalid one makes the whole batch invalid.
-/

namespace Arbor

open Result SystemContract

class OrderedTrie where
  orderedTrieRoot : List Bytes → B256

structure ChainRegistryExecutionContext where
  networkId : NetworkId
  rootDomainId : DomainId
  executingDomainId : DomainId
  creationHeight : U64
  finalizedHeads : BTreeMap DomainId B256
  governanceAddress : Address

/-- A domain created by a batch, with the state it starts from. -/
structure CreatedDomain where
  descriptor : DomainDescriptor
  genesisState : ExecutionState
  deriving DecidableEq

structure ExecutedTransaction where
  transactionHash : B256
  sender : Address
  success : Bool
  gasUsed : U64
  contractAddress : Option Address
  output : Bytes
  deriving DecidableEq

structure DomainExecutionResult where
  state : ExecutionState
  transactionsRoot : B256
  receiptsRoot : B256
  logsBloom : Bloom
  gasUsed : U64
  receipts : List Receipt
  encodedReceipts : List Bytes
  transactions : List ExecutedTransaction
  createdDomains : List CreatedDomain
  deriving DecidableEq

inductive ExecutorError where
  | tooManyTransactions (limit actual : Nat)
  | invalidEnvelope (index : Nat) (reason : String)
  | wrongChainId (index : Nat) (expected actual : U64)
  | transaction (index : Nat) (source : EvmError)
  | blockGasOverflow (index : Nat) (used limit : Nat)
  | receiptEncoding (index : Nat) (reason : String)
  | systemPreparation (index : Nat) (reason : String)
  deriving DecidableEq

namespace Executor

section Bloom

variable [Keccak]

/-- The bit a pair of hash bytes selects. -/
def bloomBit (hash : B256) (pair : Nat) : Bloom :=
  let high := ((toBytes hash).getD (2 * pair) 0).toNat
  let low := ((toBytes hash).getD (2 * pair + 1) 0).toNat
  (1 : Bloom) <<< ((high * 256 + low) % 2048)

def bloomOf (value : Bytes) : Bloom :=
  let hash := keccak256 value
  bloomBit hash 0 ||| bloomBit hash 1 ||| bloomBit hash 2

def accrueLog (bloom : Bloom) (log : Log) : Bloom :=
  log.topics.foldl (fun bloom topic => bloom ||| bloomOf (toBytes topic))
    (bloom ||| bloomOf (toBytes log.address))

def logsBloom (logs : List Log) : Bloom := logs.foldl accrueLog 0

end Bloom

def checkedCumulativeGas (index : Nat) (current transaction limit : U64) :
    Except ExecutorError U64 := do
  let used := current.toNat + transaction.toNat
  rejectIf (2 ^ 64 ≤ used) (.blockGasOverflow index (2 ^ 64 - 1) limit.toNat)
  rejectIf (limit.toNat < used) (.blockGasOverflow index used limit.toNat)
  return current + transaction

section Batch

variable [Keccak]

variable {transaction : Eip1559Transaction} {transactionHash : B256} {envelopes : List Bytes}

def registryRuntime (context : Option ChainRegistryExecutionContext)
    (preparedCreation : Option PreparedChainCreation) : Option ChainRegistryRuntime :=
  context.map fun context =>
    ⟨context.rootDomainId, context.executingDomainId, context.creationHeight,
      context.governanceAddress, preparedCreation⟩

/-- The genesis allocation of a requested domain: the owner has the supply. -/
def requestAllocation (request : CreateChainRequest) : BTreeMap Address GenesisAccount :=
  (∅ : BTreeMap Address GenesisAccount).insert request.owner ⟨0, request.initialSupply, [], ∅⟩

/-- A creation is prepared only for a call to the registry on the root domain, with
calldata that decodes and a finalized parent. -/
def prepareRegistryCreation (index : Nat) (registry : Option ChainRegistryExecutionContext)
    (transaction : Eip1559Transaction) (transactionHash : B256) :
    Except ExecutorError (Option (PreparedChainCreation × ExecutionState)) :=
  match registry with
  | none => .ok none
  | some registry =>
    if registry.executingDomainId ≠ registry.rootDomainId ∨
        transaction.recipient ≠ some CHAIN_REGISTRY_ADDRESS then .ok none
    else
      match decodeCreateChainCall transaction.input with
      | .error _ => .ok none
      | .ok request =>
        match registry.finalizedHeads[request.parentDomainId]? with
        | none => .ok none
        | some joint => do
          let genesisState ←
            (ExecutionState.fromGenesis (requestAllocation request)).mapError
              fun error => .systemPreparation index error.display
          match prepareChainCreation request registry.networkId transactionHash joint
              genesisState.stateRoot transaction.value registry.creationHeight with
          | .error _ => return none
          | .ok prepared => return some (prepared, genesisState)

structure Progress where
  state : ExecutionState
  cumulativeGas : U64
  blockBloom : Bloom
  receipts : List Receipt
  encodedReceipts : List Bytes
  executed : List ExecutedTransaction
  createdDomains : List CreatedDomain

variable [Secp256k1] [Revm]

/-- A decoded transaction of a domain with its sender and hash. -/
def decodeEnvelope (index : Nat) (chainId : U64) (envelope : Bytes) :
    Except ExecutorError (Eip1559Transaction × Address × B256) := do
  let transaction ← (Ethereum.decodeEip1559 envelope).mapError
    fun error => .invalidEnvelope index error.display
  rejectIf (transaction.chainId ≠ chainId) (.wrongChainId index chainId transaction.chainId)
  let sender ← (Crypto.recoverEip1559Sender transaction).mapError
    fun error => .invalidEnvelope index error.display
  let transactionHash ← (Crypto.eip1559TransactionHash transaction).mapError
    fun error => .invalidEnvelope index error.display
  return (transaction, sender, transactionHash)

/-- What an envelope decodes to: its transaction, of the domain's chain ID, with the sender
its signature recovers to and its hash. -/
structure Decoded (chainId : U64) (envelope : Bytes) (transaction : Eip1559Transaction)
    (sender : Address) (transactionHash : B256) : Prop where
  decodes : Ethereum.decodeEip1559 envelope = .ok transaction
  routed : transaction.chainId = chainId
  recovers : Crypto.recoverEip1559Sender transaction = .ok sender
  hashes : Crypto.eip1559TransactionHash transaction = .ok transactionHash

omit [Revm] in
theorem decodeEnvelope_eq_ok {index : Nat} {chainId : U64} {envelope : Bytes} {sender : Address}
    (h : decodeEnvelope index chainId envelope = .ok (transaction, sender, transactionHash)) :
    Decoded chainId envelope transaction sender transactionHash := by
  obtain ⟨_, htransaction, h⟩ := bind_eq_ok.mp h
  obtain ⟨hchain, h⟩ := check_bind_eq_ok.mp h
  obtain ⟨_, hsender, h⟩ := bind_eq_ok.mp h
  obtain ⟨_, hhash, h⟩ := bind_eq_ok.mp h
  cases h
  rw [rejectIf_eq_ok, not_not] at hchain
  exact ⟨mapError_eq_ok.mp htransaction, hchain, mapError_eq_ok.mp hsender, mapError_eq_ok.mp hhash⟩

/-- The created domain of a transaction with its genesis state. -/
def createdDomains (index : Nat) (descriptor : Option DomainDescriptor)
    (genesisState : Option ExecutionState) : Except ExecutorError (List CreatedDomain) :=
  match descriptor, genesisState with
  | none, _ => .ok []
  | some descriptor, some genesisState => .ok [⟨descriptor, genesisState⟩]
  | some _, none => .error (.systemPreparation index
    "successful registry call has no prepared genesis state")

def executeEnvelope (spec : ProtocolSpec) (env : DomainEnv)
    (registry : Option ChainRegistryExecutionContext) (index : Nat) (envelope : Bytes)
    (progress : Progress) : Except ExecutorError Progress := do
  let (transaction, sender, transactionHash) ← decodeEnvelope index env.chainId envelope
  let prepared ← prepareRegistryCreation index registry transaction transactionHash
  let (result, state) ← (executeTransactionWithSystem progress.state spec env transaction sender
    (registryRuntime registry (prepared.map (·.1)))).mapError
      fun failure => .transaction index failure.error
  let cumulativeGas ←
    checkedCumulativeGas index progress.cumulativeGas result.gasUsed env.gasLimit
  let receipt : Receipt := ⟨result.success, cumulativeGas, logsBloom result.logs, result.logs⟩
  let encoded ← (Ethereum.encodeEip1559Receipt receipt).mapError
    fun error => .receiptEncoding index error.display
  let created ← createdDomains index result.createdDomain (prepared.map (·.2))
  return { state
           cumulativeGas
           blockBloom := progress.blockBloom ||| receipt.logsBloom
           receipts := progress.receipts ++ [receipt]
           encodedReceipts := progress.encodedReceipts ++ [encoded]
           executed := progress.executed ++
             [⟨transactionHash, sender, receipt.status, result.gasUsed, result.createdAddress,
               result.output⟩]
           createdDomains := progress.createdDomains ++ created }

def executeEnvelopes (spec : ProtocolSpec) (env : DomainEnv)
    (registry : Option ChainRegistryExecutionContext) :
    Nat → List Bytes → Progress → Except ExecutorError Progress
  | _, [], progress => .ok progress
  | index, envelope :: rest, progress => do
    let progress ← executeEnvelope spec env registry index envelope progress
    executeEnvelopes spec env registry (index + 1) rest progress

/-! ## Executed envelopes -/

/-- An envelope that has been executed on a state: what it decodes to, what was prepared
for it, how the virtual machine ran it and the state it led to. -/
structure ExecutedEnvelope (spec : ProtocolSpec) (env : DomainEnv)
    (registry : Option ChainRegistryExecutionContext) (index : Nat) (envelope : Bytes)
    (before after : ExecutionState) where
  transaction : Eip1559Transaction
  sender : Address
  transactionHash : B256
  prepared : Option (PreparedChainCreation × ExecutionState)
  outcome : Transacted
  decoded : decodeEnvelope index env.chainId envelope = .ok (transaction, sender, transactionHash)
  prepares : prepareRegistryCreation index registry transaction transactionHash = .ok prepared
  ran : runTransaction before spec env transaction sender
    (registryRuntime registry (prepared.map (·.1))) = .ok outcome
  applied : before.applyChanges outcome.journal.accounts.toList = .ok after

namespace ExecutedEnvelope

variable {spec : ProtocolSpec} {env : DomainEnv} {registry : Option ChainRegistryExecutionContext}
  {index : Nat} {envelope : Bytes} {before after : ExecutionState}

def runtime (run : ExecutedEnvelope spec env registry index envelope before after) :
    Option ChainRegistryRuntime :=
  registryRuntime registry (run.prepared.map (·.1))

/-- The creation it reports, with the state the new domain starts from. -/
def creation (run : ExecutedEnvelope spec env registry index envelope before after) :
    Option (PreparedChainCreation × ExecutionState) :=
  if run.outcome.success ∧ run.transaction.recipient = some CHAIN_REGISTRY_ADDRESS ∧
      createChainSelector.isPrefixOf run.transaction.input then run.prepared
  else none

/-- A reported creation was prepared. -/
theorem prepared_of_creation {run : ExecutedEnvelope spec env registry index envelope before after}
    {created : PreparedChainCreation × ExecutionState} (h : run.creation = some created) :
    run.prepared = some created := by
  unfold creation at h
  split at h
  · exact h
  · cases h

/-- Its entry in the list of executed transactions. -/
def executed (run : ExecutedEnvelope spec env registry index envelope before after) :
    ExecutedTransaction :=
  ⟨run.transactionHash, run.sender, run.outcome.success, run.outcome.gasUsed,
    run.outcome.createdAddress, run.outcome.output⟩

end ExecutedEnvelope

variable {spec : ProtocolSpec} {env : DomainEnv} {registry : Option ChainRegistryExecutionContext}
  {index : Nat} {envelope : Bytes} {before after : ExecutionState}

/-- How a creation was prepared: a call of the registry on the root domain, with calldata
that decodes and a finalized parent. -/
structure Preparation (registry : Option ChainRegistryExecutionContext)
    (transaction : Eip1559Transaction) (transactionHash : B256)
    (created : PreparedChainCreation × ExecutionState) (context : ChainRegistryExecutionContext)
    (request : CreateChainRequest) (joint : B256) : Prop where
  context_eq : registry = some context
  root : context.executingDomainId = context.rootDomainId
  recipient : transaction.recipient = some CHAIN_REGISTRY_ADDRESS
  decoded : decodeCreateChainCall transaction.input = .ok request
  parent : context.finalizedHeads[request.parentDomainId]? = some joint
  genesis : ExecutionState.fromGenesis (requestAllocation request) = .ok created.2
  prepares : prepareChainCreation request context.networkId transactionHash joint
    created.2.stateRoot transaction.value context.creationHeight = .ok created.1

omit [Secp256k1] [Revm] in
theorem prepareRegistryCreation_eq_some {created : PreparedChainCreation × ExecutionState}
    (h : prepareRegistryCreation index registry transaction transactionHash = .ok (some created)) :
    ∃ context request joint,
      Preparation registry transaction transactionHash created context request joint := by
  unfold prepareRegistryCreation at h
  cases registry with
  | none => cases h
  | some context =>
    simp only at h
    split at h
    · cases h
    · rename_i hcall
      rw [not_or, not_not, not_not] at hcall
      cases hrequest : decodeCreateChainCall transaction.input with
      | error e =>
        rw [hrequest] at h
        cases h
      | ok request =>
        simp only [hrequest] at h
        cases hjoint : context.finalizedHeads[request.parentDomainId]? with
        | none =>
          rw [hjoint] at h
          cases h
        | some joint =>
          simp only [hjoint] at h
          obtain ⟨genesisState, hgenesis, h⟩ := bind_eq_ok.mp h
          split at h
          · cases h
          · rename_i prepared hprepared
            cases h
            exact ⟨context, request, joint, rfl, hcall.1, hcall.2, hrequest, hjoint,
              mapError_eq_ok.mp hgenesis, hprepared⟩

omit [Secp256k1] [Revm] in
theorem prepareRegistryCreation_none {prepared : Option (PreparedChainCreation × ExecutionState)}
    (h : prepareRegistryCreation index none transaction transactionHash = .ok prepared) :
    prepared = none := by
  cases h
  rfl

variable (run : ExecutedEnvelope spec env registry index envelope before after)

theorem ExecutedEnvelope.createdDomain_eq :
    createdDomain run.transaction run.outcome.success run.runtime
      = run.creation.map (·.1.descriptor) := by
  unfold createdDomain ExecutedEnvelope.creation ExecutedEnvelope.runtime
  split
  · cases registry with
    | none =>
      rw [prepareRegistryCreation_none run.prepares]
      rfl
    | some context =>
      cases run.prepared <;> rfl
  · rfl

theorem ExecutedEnvelope.createdDomains_eq :
    createdDomains index (createdDomain run.transaction run.outcome.success run.runtime)
      (run.prepared.map (·.2))
      = .ok (run.creation.toList.map fun created => ⟨created.1.descriptor, created.2⟩) := by
  rw [run.createdDomain_eq]
  unfold ExecutedEnvelope.creation
  split
  · cases run.prepared <;> rfl
  · rfl

/-- **One envelope.**  What a successful step of a batch has done. -/
theorem executeEnvelope_eq_ok {progress next : Progress}
    (h : executeEnvelope spec env registry index envelope progress = .ok next) :
    ∃ run : ExecutedEnvelope spec env registry index envelope progress.state next.state,
      next.executed = progress.executed ++ [run.executed] ∧
      next.createdDomains = progress.createdDomains ++
        run.creation.toList.map fun created => ⟨created.1.descriptor, created.2⟩ := by
  obtain ⟨⟨transaction, sender, transactionHash⟩, hdecoded, h⟩ := bind_eq_ok.mp h
  obtain ⟨prepared, hprepared, h⟩ := bind_eq_ok.mp h
  obtain ⟨⟨result, state⟩, hexecuted, h⟩ := bind_eq_ok.mp h
  obtain ⟨cumulativeGas, _, h⟩ := bind_eq_ok.mp h
  obtain ⟨encoded, _, h⟩ := bind_eq_ok.mp h
  obtain ⟨created, hcreated, h⟩ := bind_eq_ok.mp h
  obtain ⟨outcome, hran, hexecuted⟩ := bind_eq_ok.mp (mapError_eq_ok.mp hexecuted)
  obtain ⟨state, happlied, hexecuted⟩ := bind_eq_ok.mp hexecuted
  cases hexecuted
  let run : ExecutedEnvelope spec env registry index envelope progress.state state :=
    ⟨transaction, sender, transactionHash, prepared, outcome, hdecoded, hprepared,
      mapError_eq_ok.mp hran, happlied⟩
  have hreported := run.createdDomains_eq
  change createdDomains index (createdDomain transaction outcome.success
    (registryRuntime registry (prepared.map (·.1)))) (prepared.map (·.2)) = _ at hreported
  rw [hreported, Except.ok.injEq] at hcreated
  cases h
  exact ⟨run, rfl, by rw [← hcreated]⟩

/-- What every envelope keeps, a list of them keeps. -/
theorem executeEnvelopes_induct {P : Progress → Prop} : ∀ {index : Nat} {progress after : Progress},
      (∀ {index envelope progress next}, envelope ∈ envelopes → P progress →
        executeEnvelope spec env registry index envelope progress = .ok next → P next) →
      P progress → executeEnvelopes spec env registry index envelopes progress = .ok after →
      P after := by
  induction envelopes with
  | nil =>
    intro index progress after _ hinv h
    cases h
    exact hinv
  | cons envelope rest ih =>
    intro index progress after hstep hinv h
    obtain ⟨next, hnext, hrest⟩ := bind_eq_ok.mp h
    have hkept : P next := hstep List.mem_cons_self hinv hnext
    exact ih (fun hmem => hstep (List.mem_cons_of_mem _ hmem)) hkept hrest

/-- What the virtual machine is given for the transactions of a batch. -/
inductive Runs (spec : ProtocolSpec) (env : DomainEnv)
    (registry : Option ChainRegistryExecutionContext) :
    Nat → List Bytes → Progress → RevmInput → Prop
  | first {index : Nat} {envelope : Bytes} {rest : List Bytes} {progress : Progress}
      {transaction : Eip1559Transaction} {sender : Address} {transactionHash : B256}
      {prepared : Option (PreparedChainCreation × ExecutionState)} :
      decodeEnvelope index env.chainId envelope = .ok (transaction, sender, transactionHash) →
      prepareRegistryCreation index registry transaction transactionHash = .ok prepared →
      Runs spec env registry index (envelope :: rest) progress
        ⟨env, spec, transaction, sender, progress.state.database,
          registryRuntime registry (prepared.map (·.1))⟩
  | later {index : Nat} {envelope : Bytes} {rest : List Bytes} {progress next : Progress}
      {input : RevmInput} : executeEnvelope spec env registry index envelope progress = .ok next →
      Runs spec env registry (index + 1) rest next input →
      Runs spec env registry index (envelope :: rest) progress input

/-- A domain created by an envelope of a batch. -/
def CreatedBy (spec : ProtocolSpec) (env : DomainEnv)
    (registry : Option ChainRegistryExecutionContext) (envelopes : List Bytes)
    (created : CreatedDomain) : Prop :=
  ∃ index envelope before after, ∃ run :
    ExecutedEnvelope spec env registry index envelope before after,
    envelope ∈ envelopes ∧ ∃ prepared, run.creation = some (prepared, created.genesisState) ∧
      created.descriptor = prepared.descriptor

theorem executeEnvelopes_created {progress after : Progress}
    (h : executeEnvelopes spec env registry index envelopes progress = .ok after)
    (hstart : progress.createdDomains = []) :
    ∀ created ∈ after.createdDomains, CreatedBy spec env registry envelopes created := by
  refine executeEnvelopes_induct (P := fun progress =>
    ∀ created ∈ progress.createdDomains, CreatedBy spec env registry envelopes created) ?_
    (by simp [hstart]) h
  intro index envelope progress next henvelope hbefore hnext created hcreated
  obtain ⟨run, _, hdomains⟩ := executeEnvelope_eq_ok hnext
  rw [hdomains, List.mem_append] at hcreated
  rcases hcreated with hold | hnew
  · exact hbefore created hold
  · obtain ⟨⟨prepared, genesisState⟩, hcreation, rfl⟩ := List.mem_map.mp hnew
    exact ⟨index, envelope, _, _, run, henvelope, prepared, Option.mem_toList.mp hcreation, rfl⟩

variable [OrderedTrie]

/-- **A batch.**  Its envelopes in order, from the parent state. -/
def executeBatchWithRegistry (spec : ProtocolSpec) (env : DomainEnv) (parent : ExecutionState)
    (envelopes : List Bytes) (registry : Option ChainRegistryExecutionContext) :
    Except ExecutorError DomainExecutionResult := do
  rejectIf (MAX_TRANSACTIONS_PER_BATCH < envelopes.length)
    (.tooManyTransactions MAX_TRANSACTIONS_PER_BATCH envelopes.length)
  let progress ← executeEnvelopes spec env registry 0 envelopes ⟨parent, 0, 0, [], [], [], []⟩
  return { state := progress.state
           transactionsRoot := OrderedTrie.orderedTrieRoot envelopes
           receiptsRoot := OrderedTrie.orderedTrieRoot progress.encodedReceipts
           logsBloom := progress.blockBloom
           gasUsed := progress.cumulativeGas
           receipts := progress.receipts
           encodedReceipts := progress.encodedReceipts
           transactions := progress.executed
           createdDomains := progress.createdDomains }

theorem executeBatchWithRegistry_eq_ok {parent : ExecutionState} {execution : DomainExecutionResult}
    (h : executeBatchWithRegistry spec env parent envelopes registry = .ok execution) :
    envelopes.length ≤ MAX_TRANSACTIONS_PER_BATCH ∧
      ∃ progress, executeEnvelopes spec env registry 0 envelopes ⟨parent, 0, 0, [], [], [], []⟩
          = .ok progress ∧
        execution.state = progress.state ∧ execution.transactions = progress.executed ∧
        execution.createdDomains = progress.createdDomains ∧
        execution.gasUsed = progress.cumulativeGas ∧
        execution.encodedReceipts = progress.encodedReceipts := by
  obtain ⟨hlength, h⟩ := check_bind_eq_ok.mp h
  obtain ⟨progress, hprogress, h⟩ := bind_eq_ok.mp h
  cases h
  rw [rejectIf_eq_ok, not_lt] at hlength
  exact ⟨hlength, progress, hprogress, rfl, rfl, rfl, rfl, rfl⟩

end Batch

end Executor

end Arbor
