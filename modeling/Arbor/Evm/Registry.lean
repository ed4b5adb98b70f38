import Arbor.Evm.Journal
import Arbor.System

/-!
# The native system contracts

The registry answers three calls: `createChain` writes the seven words of a prepared
creation, `refundDeposit` and `burnDeposit` pay a locked deposit to its owner or to the
zero address.  All state goes through the journal, so a failed frame leaves nothing.
-/

namespace Arbor

open Result SystemContract

/-- Result of a native call: success, or a revert with a message. -/
structure NativeResult where
  success : Bool
  gas : Nat
  output : Bytes
  deriving DecidableEq

structure ArborPrecompiles where
  spec : ProtocolSpec
  chainId : U64
  registry : Option ChainRegistryRuntime

namespace ArborPrecompiles

section Native

variable [Keccak] (db : Database)

/-- What a native call returns: the journal with its result. -/
abbrev Native := Except String (Journal × NativeResult)

def registryRevert (journal : Journal) (message : String) : Native :=
  .ok (journal, ⟨false, CHAIN_REGISTRY_CREATE_GAS, ascii message⟩)

/-- A registry word; `what` names the lookup in the error. -/
def lookup (journal : Journal) (slot : U256) (what : String) : Except String U256 :=
  (journal.sload db CHAIN_REGISTRY_ADDRESS slot).mapError fun _ => what

def writeWords (what : String) : List (U256 × U256) → Journal → Except String Journal
  | [], journal => .ok journal
  | (slot, value) :: rest, journal => do
    let journal ← (journal.sstore db CHAIN_REGISTRY_ADDRESS slot value).mapError fun _ => what
    writeWords what rest journal

def addLog (journal : Journal) (topics : List B256) (data : Bytes) : Journal :=
  { journal with logs := journal.logs ++ [⟨CHAIN_REGISTRY_ADDRESS, topics, data⟩] }

def chainCreatedLog (journal : Journal) (prepared : PreparedChainCreation) : Journal :=
  addLog journal
    [keccak256 (ascii "ChainCreated(bytes32,bytes32,uint64,address,uint256,uint64)"),
      prepared.descriptor.domainId]
    (toBytes prepared.descriptor.parentDomainId ++ putWord prepared.descriptor.evmChainId ++
      putWord prepared.descriptor.owner ++ toBytes prepared.descriptor.creationDeposit ++
      putWord prepared.depositUnlockHeight)

/-- The creation itself, once its call has been accepted. -/
def createPrepared (journal : Journal) (prepared : PreparedChainCreation) : Native := do
  let parent ← lookup db journal (descriptorSlot prepared.descriptor.parentDomainId)
    "ChainRegistry parent lookup failed"
  if parent = 0 then registryRevert journal "unknown parent domain"
  else do
    let domain ← lookup db journal (descriptorSlot prepared.descriptor.domainId)
      "ChainRegistry domain lookup failed"
    if domain ≠ 0 then registryRevert journal "domain already exists"
    else do
      let chain ← lookup db journal (chainIdSlot prepared.descriptor.evmChainId)
        "ChainRegistry chain ID lookup failed"
      if chain ≠ 0 then registryRevert journal "EVM chain ID already exists"
      else do
        let journal ← writeWords db "ChainRegistry storage update failed"
          (creationStorageWrites prepared) journal
        return (chainCreatedLog journal prepared,
          ⟨true, CHAIN_REGISTRY_CREATE_GAS, toBytes prepared.descriptor.domainId⟩)

def runCreateChain (frame : Frame) (runtime : ChainRegistryRuntime) (journal : Journal) : Native :=
  match runtime.preparedCreation with
  | none => registryRevert journal "invalid createChain call"
  | some prepared =>
    match encodeCreateChainCall prepared.request with
    -- the source panics here with this text
    | .error _ => .error "prepared ChainRegistry request is valid"
    | .ok calldata =>
      if frame.isStatic ∨ frame.input ≠ calldata ∨
          frame.transferValue ≠ some prepared.descriptor.creationDeposit then
        registryRevert journal "invalid createChain call"
      else createPrepared db journal prepared

def wordAddress (word : U256) : Address := word.setWidth 160

/-- Who is paid, the status afterwards and the event, if the caller may do it; otherwise
the message of the revert. -/
def authorize (frame : Frame) (runtime : ChainRegistryRuntime) (journal : Journal)
    (domainId : DomainId) (burn : Bool) :
    Except String (Except String (Address × CreationDepositStatus × B256)) :=
  if burn then
    if frame.caller ≠ runtime.governanceAddress then .ok (.error "unauthorized deposit burn")
    else
      .ok (.ok (0, .burned, keccak256 (ascii "CreationDepositBurned(bytes32,uint256,address)")))
  else do
    let unlockHeight ← lookup db journal (depositUnlockSlot domainId)
      "ChainRegistry unlock-height lookup failed"
    if runtime.consensusHeight.toNat < unlockHeight.toNat then
      return .error "deposit remains locked"
    else do
      let ownerWord ← lookup db journal (ownerSlot domainId) "ChainRegistry owner lookup failed"
      if frame.caller ≠ wordAddress ownerWord then return .error "deposit refund requires owner"
      else
        return .ok (wordAddress ownerWord, .refunded,
          keccak256 (ascii "CreationDepositRefunded(bytes32,uint256,address)"))

/-- The payment of a deposit and the record of it. -/
def payDeposit (frame : Frame) (journal : Journal) (domainId : DomainId) (deposit : U256)
    (recipient : Address) (status : CreationDepositStatus) (event : B256) : Native :=
  match journal.transfer db CHAIN_REGISTRY_ADDRESS recipient deposit with
  | none => registryRevert journal "registry deposit balance unavailable"
  | some paid => do
    let cleared ← writeWords db "ChainRegistry deposit update failed"
      [(depositSlot domainId, 0)] paid
    let recorded ← writeWords db "ChainRegistry deposit status update failed"
      [(depositStatusSlot domainId, status.word)] cleared
    return (addLog recorded [event, domainId] (toBytes deposit ++ putWord frame.caller),
      ⟨true, CHAIN_REGISTRY_DEPOSIT_GAS, toBytes domainId⟩)

def runDepositLifecycle (frame : Frame) (runtime : ChainRegistryRuntime) (domainId : DomainId)
    (burn : Bool) (journal : Journal) : Native :=
  if frame.isStatic ∨ frame.transfersValue then
    registryRevert journal "invalid deposit lifecycle call"
  else do
    let status ← lookup db journal (depositStatusSlot domainId)
      "ChainRegistry deposit status lookup failed"
    if status ≠ CreationDepositStatus.locked.word then
      registryRevert journal "deposit is not locked"
    else do
      let deposit ← lookup db journal (depositSlot domainId) "ChainRegistry deposit lookup failed"
      if deposit = 0 then registryRevert journal "deposit does not exist"
      else do
        let decision ← authorize db frame runtime journal domainId burn
        match decision with
        | .error message => registryRevert journal message
        | .ok (recipient, nextStatus, event) =>
          payDeposit db frame journal domainId deposit recipient nextStatus event

def runChainRegistry (registry : Option ChainRegistryRuntime) (frame : Frame) (journal : Journal) :
    Native :=
  match registry with
  | none => registryRevert journal "ChainRegistry unavailable"
  | some runtime =>
    if runtime.executingDomainId ≠ runtime.rootDomainId then
      registryRevert journal "ChainRegistry is root-only"
    else if createChainSelector.isPrefixOf frame.input then
      runCreateChain db frame runtime journal
    else
      match decodeRefundDepositCall frame.input, decodeBurnDepositCall frame.input with
      | some domainId, _ => runDepositLifecycle db frame runtime domainId false journal
      | none, some domainId => runDepositLifecycle db frame runtime domainId true journal
      | none, none => registryRevert journal "unknown ChainRegistry call"

def runProtocolInfo (precompiles : ArborPrecompiles) (frame : Frame) (journal : Journal) : Native :=
  if frame.input = protocolInfoSelector ∧ frame.transfersValue = false then
    .ok (journal, ⟨true, PROTOCOL_INFO_GAS,
      encodeProtocolInfo precompiles.spec.protocolRevision precompiles.spec.evmRevision.byte
        precompiles.chainId⟩)
  else .ok (journal, ⟨false, PROTOCOL_INFO_GAS, ascii "invalid protocolInfo call"⟩)

/-- The native call of a frame, by the account whose code it would run. -/
def run (precompiles : ArborPrecompiles) (frame : Frame) : Option (Journal → Native) :=
  if frame.scheme = .create then none
  else if frame.bytecodeAddress = PROTOCOL_INFO_ADDRESS then
    some (runProtocolInfo precompiles frame)
  else if frame.bytecodeAddress = CHAIN_REGISTRY_ADDRESS then
    some (runChainRegistry db precompiles.registry frame)
  else none

/-- Journals under the acts of a transaction.  A native frame that runs out of gas fails. -/
def machine (precompiles : ArborPrecompiles) : Machine Frame Act Invoke Journal String where
  step := Journal.act db
  charge := Journal.charge db
  enter := Journal.enter db
  native frame := (precompiles.run db frame).map fun native journal => do
    let (journal, result) ← native journal
    return (journal, result.success && !frame.outOfGas)
  leave := Journal.leave db

end Native

end ArborPrecompiles

end Arbor
