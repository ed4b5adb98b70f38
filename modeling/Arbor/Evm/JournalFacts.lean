import Arbor.Evm.Execute
import Arbor.Evm.StateChanges

/-!
# Accounts of a journal

The results about the registry follow one account through a transaction: what a transaction
finds of it, and which acts leave its nonce and storage alone and take nothing from its
balance (`Kept`).
-/

namespace Arbor

open Result Journal

namespace Journal

/-- What is kept of an account: all but its code, a balance that may grow, and the touch
mark that may be set. -/
structure Kept (before after : AccountChange) : Prop where
  nonce : after.nonce = before.nonce
  storage : after.storage = before.storage
  created : after.created = before.created
  selfdestructed : after.selfdestructed = before.selfdestructed
  touched : before.touched = true → after.touched = true
  balance : before.balance.toNat ≤ after.balance.toNat

theorem Kept.refl (account : AccountChange) : Kept account account :=
  ⟨rfl, rfl, rfl, rfl, id, le_refl _⟩

theorem Kept.trans {a b c : AccountChange} (hab : Kept a b) (hbc : Kept b c) : Kept a c :=
  ⟨hbc.nonce.trans hab.nonce, hbc.storage.trans hab.storage, hbc.created.trans hab.created,
    hbc.selfdestructed.trans hab.selfdestructed, fun h => hbc.touched (hab.touched h),
    le_trans hab.balance hbc.balance⟩

section Facts

variable [Keccak] {db : Database}

@[simp] theorem load_set (journal : Journal) (address other : Address) (account : AccountChange) :
    (journal.set address account).load db other
      = if address = other then account else journal.load db other := by
  simp only [load, set, OrdMap.getElem?_insert]
  split <;> rfl

theorem load_congr {a b : Journal} (h : a.accounts = b.accounts) (address : Address) :
    a.load db address = b.load db address := by
  rw [load, load, h]

/-! ## Transfers -/

theorem load_setBalance (journal : Journal) (address other : Address) (amount : U256) :
    (journal.setBalance db address amount).load db other = if address = other then
      { journal.load db address with balance := amount, touched := true }
      else journal.load db other :=
  load_set journal address other _

/-- A raised balance is kept. -/
theorem kept_setBalance (guard : Address) (journal : Journal) {address : Address} {amount : U256}
    (h : address = guard → (journal.balance db guard).toNat ≤ amount.toNat) :
    Kept (journal.load db guard) ((journal.setBalance db address amount).load db guard) := by
  rw [load_setBalance]
  by_cases heq : address = guard
  · rw [if_pos heq, heq]
    exact ⟨rfl, rfl, rfl, rfl, fun _ => rfl, h heq⟩
  · rw [if_neg heq]
    exact Kept.refl _

def debited (db : Database) (journal : Journal) (sender : Address) (amount : U256) : Journal :=
  journal.setBalance db sender (journal.balance db sender - amount)

def credited (db : Database) (journal : Journal) (recipient : Address) (amount : U256) : Journal :=
  journal.setBalance db recipient (journal.balance db recipient + amount)

theorem transfer_eq_some {journal after : Journal} {sender recipient : Address} {amount : U256}
    (h : journal.transfer db sender recipient amount = some after) :
    amount = 0 ∧ after = journal.touch db recipient ∨
      amount ≠ 0 ∧ amount.toNat ≤ (journal.balance db sender).toNat ∧
      ((journal.debited db sender amount).balance db recipient).toNat + amount.toNat < 2 ^ 256 ∧
      after = { (journal.debited db sender amount).credited db recipient amount with
        transfers := journal.transfers ++ [⟨sender, recipient, amount⟩] } := by
  unfold transfer at h
  by_cases hzero : amount = 0
  · rw [if_pos hzero] at h
    exact Or.inl ⟨hzero, (Option.some.inj h).symm⟩
  · rw [if_neg hzero] at h
    by_cases hfunds : journal.balance db sender < amount
    · rw [if_pos hfunds] at h
      cases h
    · rw [if_neg hfunds] at h
      simp only [Option.ite_none_left_eq_some, Option.some.injEq] at h
      obtain ⟨hfits, h⟩ := h
      refine Or.inr ⟨hzero, ?_, Nat.lt_of_not_le hfits, h.symm⟩
      rw [BitVec.not_lt] at hfunds
      exact hfunds

/-- A credit keeps every account. -/
theorem kept_credit (guard : Address) (journal : Journal) (address : Address) (amount : Nat) :
    Kept (journal.load db guard) ((journal.credit db address amount).load db guard) := by
  refine kept_setBalance guard journal fun heq => ?_
  rw [heq, BitVec.toNat_ofNat]
  omega

end Facts

end Journal

/-! ## What a transaction finds -/

namespace ExecutionState

section Found

variable [Keccak]

def readBalance (state : ExecutionState) (address : Address) : U256 :=
  ((state.readAccount address).map (·.balance)).getD 0

def readNonce (state : ExecutionState) (address : Address) : U64 :=
  ((state.readAccount address).map (·.nonce)).getD 0

variable (state : ExecutionState) (address : Address)

/-- An account as a transaction finds it. -/
theorem stored_database : stored state.database address
      = ⟨state.readNonce address, state.readBalance address,
        ((state.readAccount address).map (·.codeHash)).getD KECCAK_EMPTY, none, ∅, false, false,
        false⟩ := by
  simp only [stored, ExecutionState.database, readNonce, readBalance, readAccount]
  -- an account that cannot be read counts as absent on both sides
  rcases state.account address with error | _ | account <;> rfl

theorem load_empty : empty.load state.database address = ⟨state.readNonce address,
      state.readBalance address, ((state.readAccount address).map (·.codeHash)).getD KECCAK_EMPTY,
      none, ∅, false, false, false⟩ := by
  rw [← stored_database state address, empty]
  rfl

theorem balance_empty : empty.balance state.database address = state.readBalance address := by
  rw [balance, load_empty]

end Found

end ExecutionState

end Arbor
