import Arbor.Evm.State
import Arbor.Lib.CallTree

/-!
# The journal of the virtual machine

The virtual machine is not part of the repository.  What a transaction does there is a
call tree over a journal of account changes; this module gives the acts of such a tree
their effect on the journal, as the machine documents them.  Every frame knows its
caller, the account it acts for, and the account whose code it runs: the four kinds of
call differ in how they assign them.
-/

namespace Arbor

structure AccountInfo where
  nonce : U64
  balance : U256
  codeHash : B256
  deriving DecidableEq

structure Database where
  basic : Address → Except String (Option AccountInfo)
  code : Address → Except String Bytes
  storage : Address → U256 → Except String U256
  blockHash : U64 → B256

structure Transfer where
  sender : Address
  recipient : Address
  amount : U256
  deriving DecidableEq

/-- Changed accounts, logs and balance movements; undone together. -/
structure Journal where
  accounts : BTreeMap Address AccountChange
  logs : List Log
  transfers : List Transfer

inductive CallScheme where
  | call
  | callCode
  | delegateCall
  | staticCall
  | create
  deriving DecidableEq

/-- Value moved with a call, or only shown to it. -/
inductive CallValue where
  | transfer (value : U256)
  | apparent (value : U256)
  deriving DecidableEq

/-- A running frame.  `outOfGas` tells whether a native effect costs more than the
frame's gas. -/
structure Frame where
  scheme : CallScheme
  caller : Address
  target : Address
  bytecodeAddress : Address
  value : CallValue
  input : Bytes
  isStatic : Bool
  outOfGas : Bool
  deriving DecidableEq

/-- The value a frame moves, if it moves one. -/
def Frame.transferValue (frame : Frame) : Option U256 :=
  match frame.value with
  | .transfer value => some value
  | .apparent _ => none

/-- Whether a frame moves a nonzero value. -/
def Frame.transfersValue (frame : Frame) : Bool :=
  match frame.value with
  | .transfer value => value ≠ 0
  | .apparent _ => false

inductive Act where
  | sstore (key value : U256)
  | log (topics : List B256) (data : Bytes)
  | selfdestruct (beneficiary : Address)
  deriving DecidableEq

inductive Invoke where
  | message (scheme : CallScheme) (address : Address) (value : U256) (input : Bytes)
      (outOfGas : Bool)
  | create (address : Address) (value : U256) (code : Bytes)
  deriving DecidableEq

namespace Journal

section Effects

variable [Keccak] (db : Database)

def empty : Journal := ⟨∅, [], []⟩

def stored (address : Address) : AccountChange :=
  match db.basic address with
  | .ok (some info) =>
    ⟨info.nonce, info.balance, info.codeHash, none, ∅, false, false, false⟩
  | _ => ⟨0, 0, KECCAK_EMPTY, none, ∅, false, false, false⟩

def load (journal : Journal) (address : Address) : AccountChange :=
  journal.accounts[address]?.getD (stored db address)

def set (journal : Journal) (address : Address) (account : AccountChange) : Journal :=
  { journal with accounts := journal.accounts.insert address account }

def touch (journal : Journal) (address : Address) : Journal :=
  journal.set address { journal.load db address with touched := true }

def balance (journal : Journal) (address : Address) : U256 := (journal.load db address).balance

def setBalance (journal : Journal) (address : Address) (balance : U256) : Journal :=
  journal.set address { journal.load db address with balance, touched := true }

/-- The word of a slot: written in this transaction, or stored before it. -/
def sload (journal : Journal) (address : Address) (key : U256) : Except String U256 :=
  match (journal.load db address).storage[key]? with
  | some (_, present) => .ok present
  | none => if (journal.load db address).created then .ok 0 else db.storage address key

/-- The word a slot had when the transaction started. -/
def original (journal : Journal) (address : Address) (key : U256) : Except String U256 :=
  match (journal.load db address).storage[key]? with
  | some (original, _) => .ok original
  | none => if (journal.load db address).created then .ok 0 else db.storage address key

def sstore (journal : Journal) (address : Address) (key value : U256) : Except String Journal := do
  let original ← journal.original db address key
  let account := journal.load db address
  return journal.set address
    { account with storage := account.storage.insert key (original, value) }

/-- A balance movement; `none` when the sender has too little or the recipient would
overflow. -/
def transfer (journal : Journal) (sender recipient : Address) (amount : U256) : Option Journal :=
  if amount = 0 then some (journal.touch db recipient)
  else if journal.balance db sender < amount then none
  else
    let debited := journal.setBalance db sender (journal.balance db sender - amount)
    if 2 ^ 256 ≤ (debited.balance db recipient).toNat + amount.toNat then none
    else
      let credited := debited.setBalance db recipient (debited.balance db recipient + amount)
      some { credited with transfers := credited.transfers ++ [⟨sender, recipient, amount⟩] }

/-- A contract gives up its balance and is marked. -/
def selfdestruct (journal : Journal) (address beneficiary : Address) : Journal :=
  let amount := journal.balance db address
  let credited :=
    if beneficiary = address then journal
    else
      { journal.setBalance db beneficiary (journal.balance db beneficiary + amount) with
        transfers := journal.transfers ++ [⟨address, beneficiary, amount⟩] }
  credited.set address
    { credited.load db address with balance := 0, touched := true, selfdestructed := true }

/-- An act of a frame; a static frame halts instead of changing state. -/
def act (frame : Frame) (act : Act) (journal : Journal) : Option Journal :=
  if frame.isStatic then none
  else
    match act with
    | .sstore key value => (journal.sstore db frame.target key value).toOption
    | .log topics data =>
      some { journal with logs := journal.logs ++ [⟨frame.target, topics, data⟩] }
    | .selfdestruct beneficiary => some (journal.selfdestruct db frame.target beneficiary)

def messageFrame (frame : Frame) (scheme : CallScheme) (address : Address) (value : U256)
    (input : Bytes) (outOfGas : Bool) : Frame :=
  match scheme with
  | .callCode =>
    ⟨scheme, frame.target, frame.target, address, .transfer value, input, frame.isStatic, outOfGas⟩
  | .delegateCall =>
    ⟨scheme, frame.caller, frame.target, address,
      .apparent (match frame.value with | .transfer value | .apparent value => value), input,
      frame.isStatic, outOfGas⟩
  | .staticCall => ⟨scheme, frame.target, address, address, .transfer 0, input, true, outOfGas⟩
  | .call | .create =>
    ⟨.call, frame.target, address, address, .transfer value, input, frame.isStatic, outOfGas⟩

/-- What a call needs and costs its caller: a static frame moves no value and creates
nothing, and a creation uses up a nonce of its creator, whatever becomes of it. -/
def charge (frame : Frame) (invoke : Invoke) (journal : Journal) : Option Journal :=
  match invoke with
  | .message scheme address value input outOfGas =>
    if frame.isStatic ∧ (messageFrame frame scheme address value input outOfGas).transfersValue
    then none
    else some journal
  | .create _ value _ =>
    let creator := journal.load db frame.target
    if frame.isStatic ∨ creator.balance < value ∨ creator.nonce = BitVec.allOnes 64 then none
    else
      some (journal.set frame.target { creator with nonce := creator.nonce + 1, touched := true })

/-- The journal a message frame starts with. -/
def enterMessage (frame : Frame) (journal : Journal) : Option Journal :=
  match frame.value with
  | .transfer value => journal.transfer db frame.caller frame.target value
  | .apparent _ => some journal

/-- The journal a creation starts with; an account that has a nonce or code is not
created again. -/
def enterCreate (frame : Frame) (address : Address) (value : U256) (journal : Journal) :
    Option Journal :=
  let existing := journal.load db address
  if existing.nonce ≠ 0 ∨ existing.codeHash ≠ KECCAK_EMPTY then none
  else
    (journal.set address
      { existing with nonce := 1, storage := ∅, touched := true, created := true }).transfer db
        frame.target address value

def enter (frame : Frame) (invoke : Invoke) (journal : Journal) : Option (Frame × Journal) :=
  match invoke with
  | .message scheme address value input outOfGas =>
    let inner := messageFrame frame scheme address value input outOfGas
    (journal.enterMessage db inner).map fun entered => (inner, entered)
  | .create address value _ =>
    (journal.enterCreate db frame address value).map fun entered =>
      (⟨.create, frame.target, address, address, .transfer value, [], false, false⟩, entered)

/-- A successful creation stores the code it returned. -/
def leave (frame : Frame) (invoke : Invoke) (journal : Journal) : Journal :=
  match invoke with
  | .message .. => journal
  | .create _ _ code =>
    journal.set frame.target
      { journal.load db frame.target with
        code := some code
        codeHash := if code = [] then KECCAK_EMPTY else keccak256 code }

end Effects

end Journal

end Arbor
