import Arbor.Codec.EthereumRoundTrip
import Arbor.Executor

/-!
# The log budget of a transaction

A receipt is encoded only if it has at most 1,024 logs and each log at most 256 KiB of
data.  The data of a transaction's logs together are bounded by the size of the encoded
receipt alone: a log is compared with the whole budget of 256 KiB, whatever the logs before
it have used.  The budget is kept exactly where no log fits alone but not on top of the
earlier ones (`Overflows`).
-/

namespace Arbor

open Result List Canonical

def MAX_LOGS : Nat := 1024
def MAX_LOG_DATA_BYTES : Nat := 262144

/-- The data of all logs together. -/
def logDataBytes (logs : List Log) : Nat := (logs.map fun log => log.data.length).sum

/-- What a transaction may log by the protocol's limits. -/
def WithinBudget (logs : List Log) : Prop :=
  logs.length ≤ MAX_LOGS ∧ logDataBytes logs ≤ MAX_LOG_DATA_BYTES

/-- A log fits alone, but not on top of the data of the logs before it. -/
def Overflows (logs : List Log) : Prop :=
  ∃ before log after, logs = before ++ log :: after ∧ log.data.length ≤ MAX_LOG_DATA_BYTES ∧
    MAX_LOG_DATA_BYTES < logDataBytes before + log.data.length

theorem logDataBytes_append (logs others : List Log) :
    logDataBytes (logs ++ others) = logDataBytes logs + logDataBytes others := by
  rw [logDataBytes, map_append, sum_append]
  rfl

theorem logDataBytes_cons (log : Log) (logs : List Log) :
    logDataBytes (log :: logs) = log.data.length + logDataBytes logs := rfl

/-- Logs that fit one by one exceed the budget exactly where one of them overflows. -/
theorem overflows_iff {logs : List Log}
    (hall : ∀ log ∈ logs, log.data.length ≤ MAX_LOG_DATA_BYTES) :
    Overflows logs ↔ MAX_LOG_DATA_BYTES < logDataBytes logs := by
  constructor
  · rintro ⟨before, log, after, rfl, _, hover⟩
    rw [logDataBytes_append, logDataBytes_cons]
    omega
  · induction logs using List.reverseRecOn with
    | nil => exact fun h => absurd h (Nat.not_lt_zero _)
    | append_singleton logs log ih =>
      intro hover
      by_cases hbefore : MAX_LOG_DATA_BYTES < logDataBytes logs
      · obtain ⟨before, found, after, rfl, hfits, hfound⟩ :=
          ih (fun other hmem => hall other (mem_append_left _ hmem)) hbefore
        exact ⟨before, found, after ++ [log], by simp, hfits, hfound⟩
      · rw [logDataBytes_append, logDataBytes_cons] at hover
        exact ⟨logs, log, [], rfl, hall log (by simp), hover⟩

namespace Ethereum

/-- What the encoder checks of the logs of a receipt. -/
theorem logs_of_encodeReceipt {receipt : Receipt} {bytes : Bytes}
    (h : encodeEip1559Receipt receipt = .ok bytes) : receipt.logs.length ≤ MAX_LOGS ∧
      ∀ log ∈ receipt.logs, log.data.length ≤ MAX_LOG_DATA_BYTES := by
  obtain ⟨logs, hlogs, _⟩ := bind_eq_ok.mp h
  obtain ⟨hcount, hlogs⟩ := check_bind_eq_ok.mp hlogs
  obtain ⟨hall, _⟩ := check_bind_eq_ok.mp hlogs
  refine ⟨checkLimit_eq_ok.mp hcount, fun log hmem => ?_⟩
  obtain ⟨_, hdata⟩ := check_bind_eq_ok.mp (checkAll_eq_ok.mp hall log hmem)
  exact checkLimit_eq_ok.mp hdata

/-- **The budget of a receipt** that is encoded. -/
theorem withinBudget_iff {receipt : Receipt} {bytes : Bytes}
    (h : encodeEip1559Receipt receipt = .ok bytes) :
    WithinBudget receipt.logs ↔ ¬Overflows receipt.logs := by
  obtain ⟨hcount, hall⟩ := logs_of_encodeReceipt h
  rw [overflows_iff hall, not_lt]
  exact ⟨fun h => h.2, fun h => ⟨hcount, h⟩⟩

/-! ## Receipts over the budget -/

theorem length_encodeList_le (payload : Bytes) :
    (Rlp.encodeList payload).length ≤ payload.length + 9 := by
  have hheader := length_encodeLength_le 0xc0 payload.length
  rw [Rlp.encodeList, length_append, Rlp.listHeader]
  omega

theorem length_encodeLog_le {log : Log} (htopics : log.topics.length ≤ 4) :
    (encodeLog log).length ≤ log.data.length + 220 := by
  have haddress := length_encodeString_le (toBytes log.address)
  have hdata := length_encodeString_le log.data
  have hlist := length_encodeList_le (log.topics.flatMap encodeFixed)
  have hfixed : (log.topics.flatMap encodeFixed).length ≤ log.topics.length * 41 := by
    rw [length_flatMap]
    refine (sum_le_card_nsmul _ 41 fun length hlength => ?_).trans (by simp)
    obtain ⟨topic, _, rfl⟩ := mem_map.mp hlength
    have htopic := length_encodeString_le (toBytes topic)
    exact htopic
  rw [length_toBytes] at haddress
  refine (length_encodeList_le _).trans ?_
  rw [length_append, length_append, encodeFixed]
  omega

/-- Receipts of logs of moderate sizes are encoded. -/
theorem encodeReceipt_of_size {receipt : Receipt} (hcount : receipt.logs.length ≤ MAX_LOGS)
    (htopics : ∀ log ∈ receipt.logs, log.topics.length ≤ 4)
    (hdata : ∀ log ∈ receipt.logs, log.data.length ≤ MAX_LOG_DATA_BYTES)
    (hsize : logDataBytes receipt.logs ≤ 2 * MAX_LOG_DATA_BYTES) :
    ∃ bytes, encodeEip1559Receipt receipt = .ok bytes := by
  obtain ⟨status, gas, bloom, logs⟩ := receipt
  have hlogs : encodeLogs logs = .ok (Rlp.encodeList (logs.flatMap encodeLog)) := by
    refine check_bind_eq_ok.mpr ⟨checkLimit_eq_ok.mpr hcount,
      check_bind_eq_ok.mpr ⟨checkAll_eq_ok.mpr fun log hmem => ?_, rfl⟩⟩
    exact check_bind_eq_ok.mpr ⟨checkLimit_eq_ok.mpr (htopics log hmem),
      checkLimit_eq_ok.mpr (hdata log hmem)⟩
  have hencoded : (logs.flatMap encodeLog).length ≤ logDataBytes logs + 220 * logs.length := by
    clear hcount hdata hsize hlogs
    induction logs with
    | nil => exact Nat.zero_le _
    | cons log logs ih =>
      have hlog := length_encodeLog_le (htopics log mem_cons_self)
      have hrest := ih fun other hmem => htopics other (mem_cons_of_mem _ hmem)
      rw [flatMap_cons, length_append, length_cons, logDataBytes, map_cons, sum_cons]
      rw [logDataBytes] at hrest
      omega
  refine ⟨_, bind_eq_ok.mpr ⟨_, hlogs, check_bind_eq_ok.mpr ⟨rejectIf_eq_ok.mpr ?_, rfl⟩⟩⟩
  have hstatus := length_encodeUint_le (boolByte status)
  have hgas := length_encodeUint_le gas
  have hbloom := length_encodeString_le (toBytes bloom)
  have hlist := length_encodeList_le (logs.flatMap encodeLog)
  rw [length_toBytes] at hbloom
  rw [not_lt]
  refine (Nat.succ_le_succ (length_encodeList_le _)).trans ?_
  rw [length_append, length_append, length_append, encodeFixed]
  dsimp only
  change logs.length ≤ MAX_LOGS at hcount
  change logDataBytes logs ≤ 2 * MAX_LOG_DATA_BYTES at hsize
  unfold MAX_LOGS at hcount
  unfold MAX_LOG_DATA_BYTES at hsize
  unfold MAX_CANONICAL_OBJECT_BYTES
  omega

end Ethereum

namespace Executor

open Ethereum

section Budget

variable [Keccak] [Secp256k1] [Revm] [OrderedTrie]

variable {registry : Option ChainRegistryExecutionContext}

omit [OrderedTrie] in
/-- The receipts of a batch have all been encoded. -/
theorem executeEnvelopes_receipts {spec : ProtocolSpec} {env : DomainEnv} {index : Nat}
    {envelopes : List Bytes} {progress after : Progress}
    (h : executeEnvelopes spec env registry index envelopes progress = .ok after)
    (hstart : progress.receipts = []) :
    ∀ receipt ∈ after.receipts, ∃ bytes, encodeEip1559Receipt receipt = .ok bytes := by
  refine executeEnvelopes_induct (P := fun progress =>
    ∀ receipt ∈ progress.receipts, ∃ bytes, encodeEip1559Receipt receipt = .ok bytes) ?_
    (by simp [hstart]) h
  intro index envelope progress next _ hbefore hnext receipt hreceipt
  obtain ⟨_, _, hnext⟩ := bind_eq_ok.mp hnext
  obtain ⟨_, _, hnext⟩ := bind_eq_ok.mp hnext
  obtain ⟨_, _, hnext⟩ := bind_eq_ok.mp hnext
  obtain ⟨_, _, hnext⟩ := bind_eq_ok.mp hnext
  obtain ⟨bytes, hbytes, hnext⟩ := bind_eq_ok.mp hnext
  obtain ⟨_, _, hnext⟩ := bind_eq_ok.mp hnext
  cases hnext
  rcases mem_append.mp hreceipt with hold | hnew
  · exact hbefore receipt hold
  · rw [mem_singleton.mp hnew]
    exact ⟨bytes, mapError_eq_ok.mp hbytes⟩

omit [OrderedTrie] in
theorem executeEnvelope_of_receipt {spec : ProtocolSpec} {env : DomainEnv} {index : Nat}
    {envelope : Bytes} {progress : Progress} {transaction : Eip1559Transaction} {sender : Address}
    {transactionHash : B256} {prepared : Option (PreparedChainCreation × ExecutionState)}
    {result : EvmExecution} (state : ExecutionState) {gas : U64} {bytes : Bytes}
    {created : List CreatedDomain}
    (hdecoded : decodeEnvelope index env.chainId envelope
      = .ok (transaction, sender, transactionHash))
    (hprepared : prepareRegistryCreation index registry transaction transactionHash = .ok prepared)
    (hexecuted : executeTransactionWithSystem progress.state spec env transaction sender
      (registryRuntime registry (prepared.map (·.1))) = .ok (result, state))
    (hgas : checkedCumulativeGas index progress.cumulativeGas result.gasUsed env.gasLimit = .ok gas)
    (hbytes : encodeEip1559Receipt ⟨result.success, gas, logsBloom result.logs, result.logs⟩
      = .ok bytes)
    (hcreated : createdDomains index result.createdDomain (prepared.map (·.2)) = .ok created) :
    ∃ next, executeEnvelope spec env registry index envelope progress = .ok next ∧
      next.state = state ∧
      next.receipts = progress.receipts ++
        [⟨result.success, gas, logsBloom result.logs, result.logs⟩] ∧
      next.createdDomains = progress.createdDomains ++ created :=
  ⟨_, bind_eq_ok.mpr ⟨_, hdecoded, bind_eq_ok.mpr ⟨prepared, hprepared,
    bind_eq_ok.mpr ⟨_, mapError_eq_ok.mpr hexecuted, bind_eq_ok.mpr ⟨_, hgas,
      bind_eq_ok.mpr ⟨_, mapError_eq_ok.mpr hbytes, bind_eq_ok.mpr ⟨created, hcreated, rfl⟩⟩⟩⟩⟩⟩,
    rfl, rfl, rfl⟩

end Budget

section Sample

@[reducible] def loggingCurve : Secp256k1 :=
  ⟨fun _ => false, fun _ _ _ _ => some 0xfef, fun _ => true⟩

/-- The data a contract logs for a gas limit. -/
def loggedData (gasLimit : U64) : Bytes :=
  List.replicate (if gasLimit = 3000000 then 131073 else 2) 0

@[reducible] def loggingRevm [Keccak] : Revm :=
  plainRevm fun input => .step (.log [] (loggedData input.transaction.gasLimit))
    (.step (.log [] (loggedData input.transaction.gasLimit)) (.done true))

@[reducible] def countingTrie : OrderedTrie := ⟨fun values => BitVec.ofNat 256 values.length⟩

attribute [local instance] scatteringKeccak loggingCurve loggingRevm countingTrie

def loggingEnv : DomainEnv := ⟨2048, 1, 1700000001, 0xfee, 30000000, 1000000000, 3⟩

def loggingTransaction (gasLimit : U64) : Eip1559Transaction :=
  ⟨2048, 0, 0, 2000000000, gasLimit, some 0xabc, 0, [], [], false, 1, 1⟩

def loggingState : ExecutionState :=
  (ExecutionState.fromGenesis ((∅ : BTreeMap Address GenesisAccount).insert 0xfef
    ⟨0, 1000000000000000000000000, [], ∅⟩)).toOption.getD ⟨⟨0, ∅, ∅⟩, ∅, ∅, ∅⟩

def loggingInput (gasLimit : U64) : RevmInput :=
  ⟨loggingEnv, .V1, loggingTransaction gasLimit, 0xfef, loggingState.database, none⟩

def loggingEnvelope (gasLimit : U64) : Bytes :=
  (encodeEip1559 (loggingTransaction gasLimit)).toOption.getD []

def twoLogs (gasLimit : U64) : List Log :=
  [⟨0xabc, [], loggedData gasLimit⟩, ⟨0xabc, [], loggedData gasLimit⟩]

def loggingOutcome (gasLimit : U64) : Transacted :=
  (transact (loggingInput gasLimit)).toOption.getD ⟨false, 0, [], none, Journal.empty, []⟩

def loggingChecks (gasLimit : U64) : Prop :=
  Payable (loggingInput gasLimit) ∧
    (decodeEnvelope 0 loggingEnv.chainId (loggingEnvelope gasLimit)).toOption.map
      (fun found => (found.1, found.2.1)) = some (loggingTransaction gasLimit, 0xfef) ∧
    (loggingState.applyChanges (loggingOutcome gasLimit).journal.accounts.toList).isOk = true ∧
    gasLimit.toNat ≤ 30000000

instance (gasLimit : U64) : Decidable (loggingChecks gasLimit) :=
  inferInstanceAs (Decidable (_ ∧ _))

theorem checks_long : loggingChecks 3000000 := by decide +kernel
theorem checks_short : loggingChecks 30000 := by decide +kernel

theorem run_logging (data : Bytes) (db : Database) (journal : Journal) :
    ((⟨.V1, 2048, none⟩ : ArborPrecompiles).machine db).invoke
      (((⟨.V1, 2048, none⟩ : ArborPrecompiles).machine db).run
        (.step (.log [] data) (.step (.log [] data) (.done true))))
      (outerFrame 0xfef) (.message .call 0xabc 0 [] false) journal
      = .ok ⟨{ journal.touch db 0xabc with
          logs := journal.logs ++ [⟨0xabc, [], data⟩] ++ [⟨0xabc, [], data⟩] }, true, []⟩ := by
  rfl

theorem exists_logging {gasLimit : U64} (h : Payable (loggingInput gasLimit)) :
    ∃ outcome, transact (loggingInput gasLimit) = .ok outcome ∧
      outcome.success = true ∧ outcome.gasUsed = gasLimit ∧
      outcome.journal.logs = twoLogs gasLimit :=
  ⟨_, bind_eq_ok.mpr ⟨_, if_pos h, bind_eq_ok.mpr ⟨_, mapError_eq_ok.mpr
    (run_logging _ _ _), rfl⟩⟩, rfl, rfl, rfl⟩

/-- The execution of one transaction of the machine. -/
theorem exists_execution {gasLimit : U64} (h : loggingChecks gasLimit) : ∃ result state,
    executeTransactionWithSystem loggingState .V1 loggingEnv
      (loggingTransaction gasLimit) 0xfef none
      = .ok (result, state) ∧ result.gasUsed = gasLimit ∧ result.createdDomain = none ∧
      result.logs = twoLogs gasLimit := by
  obtain ⟨outcome, htransact, hsuccess, hgas, hlogs⟩ := exists_logging h.1
  have hsame : loggingOutcome gasLimit = outcome := by
    rw [loggingOutcome, htransact]
    rfl
  have happlied := eq_ok_of_isOk h.2.2.1 loggingState
  rw [hsame] at happlied
  have hfew : ¬ProtocolSpec.V1.maxLogsPerTransaction < outcome.journal.logs.length := by
    rw [hlogs, twoLogs, length_cons, length_singleton]
    decide
  have hrun : runTransaction loggingState .V1 loggingEnv (loggingTransaction gasLimit) 0xfef none
      = .ok outcome :=
    check_bind_eq_ok.mpr ⟨by rfl, bind_eq_ok.mpr ⟨outcome, mapError_eq_ok.mpr htransact,
      check_bind_eq_ok.mpr ⟨rejectIf_eq_ok.mpr hfew, rfl⟩⟩⟩
  have hnone : createdDomain (loggingTransaction gasLimit) outcome.success none = none := by
    rw [hsuccess]
    rfl
  exact ⟨_, _, bind_eq_ok.mpr ⟨outcome, mapError_eq_ok.mpr hrun, bind_eq_ok.mpr ⟨_, happlied, rfl⟩⟩,
    hgas, hnone, hlogs⟩

theorem length_loggedData_le (gasLimit : U64) : (loggedData gasLimit).length ≤ 131073 := by
  rw [loggedData, length_replicate]
  split <;> decide

theorem logDataBytes_twoLogs (gasLimit : U64) :
    logDataBytes (twoLogs gasLimit) = 2 * if gasLimit = 3000000 then 131073 else 2 := by
  rw [twoLogs, logDataBytes_cons, logDataBytes_cons, loggedData, length_replicate]
  exact (Nat.two_mul _).symm

theorem encodes_twoLogs (status : Bool) (gas gasLimit : U64) (bloom : Bloom) :
    ∃ bytes, encodeEip1559Receipt ⟨status, gas, bloom, twoLogs gasLimit⟩ = .ok bytes := by
  have htwo : ∀ log ∈ twoLogs gasLimit,
      log.topics.length ≤ 4 ∧ log.data.length ≤ MAX_LOG_DATA_BYTES := by
    intro log hlog
    simp only [twoLogs, mem_cons, not_mem_nil, or_false, or_self] at hlog
    rw [hlog]
    exact ⟨Nat.zero_le _, (length_loggedData_le gasLimit).trans (by decide)⟩
  refine encodeReceipt_of_size ?_ (fun log hlog => (htwo log hlog).1)
    (fun log hlog => (htwo log hlog).2) ?_
  · exact show 2 ≤ MAX_LOGS by decide
  · have hlength := length_loggedData_le gasLimit
    rw [loggedData, length_replicate] at hlength
    change logDataBytes (twoLogs gasLimit) ≤ _
    rw [logDataBytes_twoLogs]
    unfold MAX_LOG_DATA_BYTES
    omega

/-- A batch of one transaction that logs its data twice is accepted. -/
theorem exists_batch {gasLimit : U64} (h : loggingChecks gasLimit) : ∃ result,
    executeBatchWithRegistry .V1 loggingEnv loggingState [loggingEnvelope gasLimit] none
      = .ok result ∧ ∃ receipt ∈ result.receipts,
      (∃ bytes, encodeEip1559Receipt receipt = .ok bytes) ∧ receipt.logs = twoLogs gasLimit := by
  obtain ⟨result, state, hexecuted, hgas, hcreated, hlogs⟩ := exists_execution h
  obtain ⟨⟨transaction, sender, transactionHash⟩, hdecoded, hfound⟩ :=
    Option.map_eq_some_iff.mp h.2.1
  obtain ⟨rfl, rfl⟩ := Prod.mk.inj hfound
  have hgasOk : checkedCumulativeGas 0 0 result.gasUsed loggingEnv.gasLimit = .ok gasLimit := by
    have hlimit := h.2.2.2
    rw [hgas]
    refine check_bind_eq_ok.mpr ⟨rejectIf_eq_ok.mpr ?_, check_bind_eq_ok.mpr
      ⟨rejectIf_eq_ok.mpr ?_, congrArg _ (BitVec.zero_add gasLimit)⟩⟩
    · change ¬2 ^ 64 ≤ 0 + gasLimit.toNat
      omega
    · change ¬30000000 < 0 + gasLimit.toNat
      omega
  obtain ⟨bytes, hbytes⟩ := encodes_twoLogs result.success gasLimit gasLimit (logsBloom result.logs)
  rw [← hlogs] at hbytes
  have hprepared : prepareRegistryCreation 0 none (loggingTransaction gasLimit) transactionHash
    = .ok none := rfl
  have hnone : createdDomains 0 result.createdDomain none = .ok [] := by
    rw [hcreated]
    rfl
  obtain ⟨next, hnext, _, hreceipts, _⟩ :
      ∃ next, executeEnvelope .V1 loggingEnv none 0 (loggingEnvelope gasLimit)
        ⟨loggingState, 0, 0, [], [], [], []⟩ = .ok next ∧ next.state = state ∧
      next.receipts = [] ++ [⟨result.success, gasLimit, logsBloom result.logs, result.logs⟩] ∧
      next.createdDomains = [] ++ [] := by
    refine executeEnvelope_of_receipt state (toOption_eq_some.mp hdecoded) hprepared ?_ ?_ hbytes
      hnone
    · dsimp only
      exact hexecuted
    · exact hgasOk
  have hbatch : executeEnvelopes .V1 loggingEnv none 0 [loggingEnvelope gasLimit]
      ⟨loggingState, 0, 0, [], [], [], []⟩ = .ok next := bind_eq_ok.mpr ⟨next, hnext, rfl⟩
  refine ⟨_, check_bind_eq_ok.mpr ⟨rejectIf_eq_ok.mpr ?_, bind_eq_ok.mpr ⟨next, hbatch, rfl⟩⟩,
    _, by rw [hreceipts]; exact mem_singleton_self _, ⟨bytes, hbytes⟩, hlogs⟩
  exact show ¬MAX_TRANSACTIONS_PER_BATCH < 1 by decide

end Sample

end Executor

end Arbor
