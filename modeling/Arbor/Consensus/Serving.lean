import Arbor.Consensus.Engine

/-!
# What the engine serves to the node

Production of a whole block, the checkpoint of the finalized state, and the stored blocks
and domain headers that other nodes may ask for.  Blocks below an imported checkpoint are
not stored, and are not there; a block missing above it is an inconsistency.
-/

namespace Arbor

open Result Device Consensus

namespace SingleValidatorEngine

variable [Keccak]

/-- Height of the imported checkpoint, if there is one. -/
def checkpointHeight : Program Column ConsensusError (Option U64) := do
  match ← stored (Database.index KEY_DEV_CHECKPOINT) with
  | none => return none
  | some bytes => do
    let checkpoint ← DevelopmentCheckpoint.decode bytes
    return some checkpoint.state.height

def finalizedBlock (height : U64) : Operation (Option ConsensusBlock) := do
  let engine ← get
  if height = 0 ∨ engine.finalized.height < height then return none
  else
    match ← onDatabase (stored (Database.index (blockKey height))) with
    | some bytes => do
      let block ← check ((ConsensusBlock.decode bytes).mapError .chain)
      return some block
    | none =>
      match ← onDatabase checkpointHeight with
      | some base =>
        if height ≤ base then return none
        else throw (.inconsistentStore "missing finalized block body")
      | none => throw (.inconsistentStore "missing finalized block body")

/-- Appends headers until the limit is reached; tells whether it is. -/
def appendHeaders (limit : Nat) :
    List DomainBlockHeader → List Bytes → Except ConsensusError (List Bytes × Bool)
  | [], records => .ok (records, false)
  | header :: rest, records => do
    let encoded ← ConsensusError.ofCodec (Canonical.encodeDomainHeader header)
    let records := records ++ [encoded]
    if records.length = limit then return (records, true) else appendHeaders limit rest records

/-- The headers of a domain in the blocks of given heights. -/
def historyFrom (domainId : DomainId) (startNumber : U64) (limit : Nat) :
    List U64 → List Bytes → Operation (List Bytes)
  | [], records => return records
  | height :: rest, records => do
    match ← finalizedBlock height with
    | none => historyFrom domainId startNumber limit rest records
    | some block => do
      let (records, full) ← check (appendHeaders limit (block.domainBlocks.filter fun header =>
        header.domainId = domainId ∧ startNumber ≤ header.number) records)
      if full then return records else historyFrom domainId startNumber limit rest records

def domainHistory (domainId : DomainId) (startNumber : U64) (limit : Nat) :
    Operation (List Bytes) := do
  let engine ← get
  if limit = 0 ∨ engine.historyRetention.retains domainId = false then return []
  else historyFrom domainId startNumber limit (heightsAfter 0 engine.finalized.height) []

def developmentCheckpoint (engine : SingleValidatorEngine) : DevelopmentCheckpoint :=
  ⟨engine.finalized, engine.genesis.validatorSet, []⟩

variable [Secp256k1] [Revm] [OrderedTrie]

def produceBlock (timestamp : U64) : Operation CommitEvent := do
  let id ← buildProposal timestamp
  let _ ← commitProposal id
  let engine ← get
  return eventOf engine.finalized

end SingleValidatorEngine

end Arbor
