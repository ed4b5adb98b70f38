import Arbor.Evm.Registry

/-!
# Executing one transaction

The class `Revm` stands for the virtual machine: for the inputs of a transaction it
says whether the transaction is valid and, if so, which call tree it runs and how much
gas it uses.  `LawfulRevm` states what the machine documents about validity.  Fees,
nonces, the journal and the application of its changes are modelled here.
-/

namespace Arbor

open Result SystemContract

/-- Everything the virtual machine sees of a transaction. -/
structure RevmInput where
  env : DomainEnv
  spec : ProtocolSpec
  transaction : Eip1559Transaction
  sender : Address
  database : Database
  registry : Option ChainRegistryRuntime

inductive RevmError where
  | transaction (what : String)
  | header (what : String)
  | database (what : String)
  | custom (what : String)
  deriving DecidableEq

/-- A valid transaction's run: its tree, whether a native top frame lacks gas, the gas
used after refunds, the bytes returned by code, and the address and code of a creation. -/
structure TxScript where
  tree : CallTree Act Invoke
  outOfGas : Bool
  gasUsed : U64
  output : Bytes
  createdAddress : Address
  createdCode : Bytes

class Revm where
  script : RevmInput → Except RevmError TxScript
  /-- Gas a transaction costs before it runs. -/
  intrinsicGas : Eip1559Transaction → Nat

def maxCost (transaction : Eip1559Transaction) : Nat :=
  transaction.gasLimit.toNat * transaction.maxFeePerGas.toNat + transaction.value.toNat

/-- The price of a unit of gas: the base fee and the tip, up to the cap. -/
def effectiveGasPrice (env : DomainEnv) (transaction : Eip1559Transaction) : Nat :=
  min transaction.maxFeePerGas.toNat
    (env.baseFeePerGas.toNat + transaction.maxPriorityFeePerGas.toNat)

/-- The documented validity rules of the virtual machine. -/
class LawfulRevm [Keccak] [Revm] : Prop where
  gasUsed_le : ∀ {input script}, Revm.script input = .ok script →
    script.gasUsed.toNat ≤ input.transaction.gasLimit.toNat
  baseFee_le : ∀ {input script}, Revm.script input = .ok script →
    input.env.baseFeePerGas.toNat ≤ input.transaction.maxFeePerGas.toNat
  funded : ∀ {input script}, Revm.script input = .ok script →
    maxCost input.transaction ≤ (Journal.empty.balance input.database input.sender).toNat
  nonce_eq : ∀ {input script}, Revm.script input = .ok script →
    (Journal.empty.load input.database input.sender).nonce = input.transaction.nonce ∧
      input.transaction.nonce ≠ BitVec.allOnes 64
  intrinsic_le : ∀ {input script}, Revm.script input = .ok script →
    Revm.intrinsicGas input.transaction ≤ input.transaction.gasLimit.toNat
  gasLimit_le : ∀ {input script}, Revm.script input = .ok script →
    input.transaction.gasLimit.toNat ≤ input.env.gasLimit.toNat

def Payable [Keccak] (input : RevmInput) : Prop :=
  input.env.baseFeePerGas.toNat ≤ input.transaction.maxFeePerGas.toNat ∧
    maxCost input.transaction ≤ (Journal.empty.balance input.database input.sender).toNat ∧
    (Journal.empty.load input.database input.sender).nonce = input.transaction.nonce ∧
    input.transaction.nonce ≠ BitVec.allOnes 64 ∧ 21000 ≤ input.transaction.gasLimit.toNat ∧
    input.transaction.gasLimit.toNat ≤ input.env.gasLimit.toNat

instance [Keccak] (input : RevmInput) : Decidable (Payable input) :=
  inferInstanceAs (Decidable (_ ∧ _))

/-- A machine that runs given trees for all transactions that meet the rules, and uses up
their gas. -/
@[reducible] def plainRevm [Keccak] (tree : RevmInput → CallTree Act Invoke) : Revm where
  script input :=
    if Payable input then .ok ⟨tree input, false, input.transaction.gasLimit, [], 0, []⟩
    else .error (.transaction "transaction rejected")
  intrinsicGas _ := 21000

theorem lawful_plainRevm [Keccak] (tree : RevmInput → CallTree Act Invoke) :
    @LawfulRevm _ (plainRevm tree) := by
  have hpayable : ∀ {input script}, (plainRevm tree).script input = .ok script →
      Payable input ∧ script.gasUsed = input.transaction.gasLimit := by
    intro input script h
    change (if Payable input then _ else _) = _ at h
    split at h
    · cases h
      exact ⟨‹_›, rfl⟩
    · cases h
  let _ := plainRevm tree
  exact
    { gasUsed_le := fun h => (hpayable h).2 ▸ le_refl _
      baseFee_le := fun h => (hpayable h).1.1
      funded := fun h => (hpayable h).1.2.1
      nonce_eq := fun h => ⟨(hpayable h).1.2.2.1, (hpayable h).1.2.2.2.1⟩
      intrinsic_le := fun h => (hpayable h).1.2.2.2.2.1
      gasLimit_le := fun h => (hpayable h).1.2.2.2.2.2 }

/-- Consensus-relevant result of one valid transaction. -/
structure EvmExecution where
  success : Bool
  gasUsed : U64
  logs : List Log
  output : Bytes
  createdAddress : Option Address
  createdDomain : Option DomainDescriptor
  deriving DecidableEq

section Database

variable [Keccak]

/-- The reads of the virtual machine on a state. -/
def ExecutionState.database (state : ExecutionState) : Database where
  basic address := (state.account address).mapError EvmError.display |>.map fun account =>
    account.map fun account => ⟨account.nonce, account.balance, account.codeHash⟩
  code address := do
    let account ← (state.account address).mapError EvmError.display
    let codeHash := (account.getD Account.default).codeHash
    if codeHash = KECCAK_EMPTY then return []
    else
      match state.contractCode[codeHash]? with
      | some body => return body
      | none => throw ("missing contract code " ++ displayHex codeHash)
  storage address index := (state.storage address index).mapError EvmError.display
  blockHash number := state.blockHashes[number]?.getD 0

end Database

namespace Journal

section Fees

variable [Keccak] (db : Database)

/-- A balance raised, staying at the largest word on overflow. -/
def credit (journal : Journal) (address : Address) (amount : Nat) : Journal :=
  journal.setBalance db address
    (BitVec.ofNat 256 (min (2 ^ 256 - 1) ((journal.balance db address).toNat + amount)))

/-- A balance lowered, staying at zero on underflow. -/
def debit (journal : Journal) (address : Address) (amount : Nat) : Journal :=
  journal.setBalance db address
    (BitVec.ofNat 256 ((journal.balance db address).toNat - amount))

/-- The sender pays for all its gas; a message call also uses up its nonce here, a
creation when it is made. -/
def chargeSender (journal : Journal) (env : DomainEnv) (transaction : Eip1559Transaction)
    (sender : Address) : Journal :=
  let paid := journal.debit db sender
    (transaction.gasLimit.toNat * effectiveGasPrice env transaction)
  if transaction.recipient = none then paid
  else paid.set sender { paid.load db sender with nonce := (paid.load db sender).nonce + 1 }

/-- Unused gas goes back to the sender, the tip to the beneficiary. -/
def settle (journal : Journal) (env : DomainEnv) (transaction : Eip1559Transaction)
    (sender : Address) (gasUsed : Nat) : Journal :=
  let price := effectiveGasPrice env transaction
  let refunded := journal.credit db sender ((transaction.gasLimit.toNat - gasUsed) * price)
  refunded.credit db env.beneficiary (gasUsed * (price - env.baseFeePerGas.toNat))

end Fees

end Journal

/-- What the virtual machine returns for a valid transaction. -/
structure Transacted where
  success : Bool
  gasUsed : U64
  output : Bytes
  createdAddress : Option Address
  journal : Journal
  natives : List (Frame × Journal)

section Transact

variable [Keccak] [Revm]

def topInvoke (transaction : Eip1559Transaction) (script : TxScript) : Invoke :=
  match transaction.recipient with
  | some address =>
    .message .call address transaction.value transaction.input script.outOfGas
  | none => .create script.createdAddress transaction.value script.createdCode

def outerFrame (sender : Address) : Frame :=
  ⟨.create, sender, sender, sender, .transfer 0, [], false, false⟩

/-- The output of a transaction: of the native call it makes, or of code. -/
def topOutput (precompiles : ArborPrecompiles) (db : Database) (transaction : Eip1559Transaction)
    (sender : Address) (script : TxScript) (journal : Journal) : Bytes :=
  match Journal.enter db (outerFrame sender) (topInvoke transaction script) journal with
  | none => []
  | some (frame, entered) =>
    match precompiles.run db frame with
    | none => script.output
    | some native =>
      match native entered with
      | .ok (_, result) => if frame.outOfGas then [] else result.output
      | .error _ => []

def transact (input : RevmInput) : Except RevmError Transacted := do
  let script ← Revm.script input
  let precompiles : ArborPrecompiles := ⟨input.spec, input.env.chainId, input.registry⟩
  let machine := precompiles.machine input.database
  let charged := Journal.empty.chargeSender input.database input.env input.transaction input.sender
  let outcome ← (machine.invoke (machine.run script.tree) (outerFrame input.sender)
    (topInvoke input.transaction script) charged).mapError .custom
  return { success := outcome.ok
           gasUsed := script.gasUsed
           output := topOutput precompiles input.database input.transaction input.sender script
             charged
           createdAddress :=
             if outcome.ok ∧ input.transaction.recipient = none then some script.createdAddress
             else none
           journal := outcome.state.settle input.database input.env input.transaction input.sender
             script.gasUsed.toNat
           natives := outcome.natives }

def mapRevmError : RevmError → EvmError
  | .transaction what => .invalidTransaction what
  | .header what => .invalidHeader what
  | .database what => .state what
  | .custom what => .system what

def checkEnvironment (spec : ProtocolSpec) (env : DomainEnv) (transaction : Eip1559Transaction) :
    Except EvmError Unit := do
  env.validate
  let resolved ← ProtocolSpec.resolve spec.protocolRevision
  rejectIf (resolved ≠ spec)
    (.invalidEnvironment "ProtocolSpec fields do not match the registered revision")
  rejectIf (spec.maxInitcodeBytes < transaction.input.length ∧ transaction.recipient = none)
    (.invalidTransaction "contract initcode exceeds protocol limit")
  rejectIf (2 ^ 64 ≤ env.baseFeePerGas.toNat) (.invalidEnvironment "base fee does not fit u64")

/-- The descriptor a transaction created, if it is a successful creation call. -/
def createdDomain (transaction : Eip1559Transaction) (success : Bool)
    (registry : Option ChainRegistryRuntime) : Option DomainDescriptor :=
  if success ∧ transaction.recipient = some CHAIN_REGISTRY_ADDRESS ∧
      createChainSelector.isPrefixOf transaction.input then
    registry.bind fun context => context.preparedCreation.map (·.descriptor)
  else none

/-- The virtual machine's part of a transaction: checks, run and log limit. -/
def runTransaction (state : ExecutionState) (spec : ProtocolSpec) (env : DomainEnv)
    (transaction : Eip1559Transaction) (sender : Address)
    (registry : Option ChainRegistryRuntime) : Except EvmError Transacted := do
  checkEnvironment spec env transaction
  let outcome ← (transact ⟨env, spec, transaction, sender, state.database, registry⟩).mapError
    mapRevmError
  rejectIf (spec.maxLogsPerTransaction < outcome.journal.logs.length)
    (.invalidTransaction "transaction log count exceeds protocol limit")
  return outcome

theorem runTransaction_eq_ok {state : ExecutionState} {spec : ProtocolSpec} {env : DomainEnv}
    {transaction : Eip1559Transaction} {sender : Address} {registry : Option ChainRegistryRuntime}
    {outcome : Transacted}
    (h : runTransaction state spec env transaction sender registry = .ok outcome) :
    transact ⟨env, spec, transaction, sender, state.database, registry⟩ = .ok outcome := by
  obtain ⟨_, h⟩ := check_bind_eq_ok.mp h
  obtain ⟨result, hresult, h⟩ := bind_eq_ok.mp h
  obtain ⟨_, h⟩ := check_bind_eq_ok.mp h
  cases h
  exact mapError_eq_ok.mp hresult

/-- **Execution.**  One decoded transaction with a recovered sender.  A failure before
the changes are applied leaves the state as it was. -/
def executeTransactionWithSystem (state : ExecutionState) (spec : ProtocolSpec) (env : DomainEnv)
    (transaction : Eip1559Transaction) (sender : Address)
    (registry : Option ChainRegistryRuntime) :
    Except ExecutionState.Failure (EvmExecution × ExecutionState) := do
  let outcome ← (runTransaction state spec env transaction sender registry).mapError
    fun error => ⟨error, state⟩
  let state ← state.applyChanges outcome.journal.accounts.toList
  return ({ success := outcome.success
            gasUsed := outcome.gasUsed
            logs := outcome.journal.logs
            output := outcome.output
            createdAddress := outcome.createdAddress
            createdDomain := createdDomain transaction outcome.success registry }, state)

end Transact

end Arbor
