import ChainLedger.Overflow
import ChainLedger.Position

/-!
# Failures

What can go wrong with the store, the log and the offset oracle, what ends a
batch without acknowledgment, and what stops a computation outright.  Losing a
compare-and-swap is no failure: it is retried, or ends as a lock.
-/

namespace ChainLedger

/-- A failure of the store. -/
inductive StoreError
  /-- The store cannot serve the call. -/
  | unavailable (reason : String)
  /-- The call missed its deadline. -/
  | timeout (operation : String)
  /-- A stored row cannot be read. -/
  | corrupt (reason : String)
deriving DecidableEq, Repr

namespace StoreError

/-- The text of a store failure. -/
def message : StoreError → String
  | unavailable reason => "Summary store unavailable: " ++ reason
  | timeout operation => "Summary store call timed out: " ++ operation
  | corrupt reason => "Summary row corrupt: " ++ reason

/-- Whether trying again may succeed: only after a missed deadline. -/
def isRetryable : StoreError → Bool
  | timeout _ => true
  | unavailable _ | corrupt _ => false

end StoreError

/-- A failure of the log. -/
inductive LogError
  /-- An offset could not be acknowledged. -/
  | commitFailed (partition : Partition) (reason : String)
  /-- No batch could be fetched. -/
  | pollFailed (reason : String)
  /-- The partition is not known. -/
  | unknownPartition (partition : Partition)
deriving DecidableEq, Repr

namespace LogError

/-- The text of a log failure. -/
def message : LogError → String
  | commitFailed p reason => "Offset commit failed for " ++ p.render ++ ": " ++ reason
  | pollFailed reason => "Poll failed: " ++ reason
  | unknownPartition p => "Unknown topic partition " ++ p.render

end LogError

/-- The offset oracle cannot be asked. -/
structure OracleError where
  reason : String
deriving DecidableEq, Repr

namespace OracleError

/-- The text of an oracle failure. -/
def message (e : OracleError) : String := "Offset oracle unavailable: " ++ e.reason

end OracleError

/-- What ends a batch without acknowledging it. -/
inductive Failure
  | store (e : StoreError)
  | log (e : LogError)
  | oracle (e : OracleError)
  /-- The batch holds records of two partitions. -/
  | mixedBatch (first other : Partition)
  /-- The computation for one of the addresses was stopped by a fault. -/
  | workerFailed
  /-- No batch is accepted any more. -/
  | shutDown
deriving DecidableEq, Repr

namespace Failure

/-- The text of a failure. -/
def message : Failure → String
  | store e => e.message
  | log e => e.message
  | oracle e => e.message
  | mixedBatch first other =>
    "Batch mixes partitions: " ++ first.render ++ " and " ++ other.render
  | workerFailed => "Apply worker failed"
  | shutDown => "Reconciliation engine is shut down"

end Failure

/-- What stops a computation outright. -/
inductive Fault
  /-- Its arithmetic. -/
  | overflow (o : Overflow)
  /-- The party that it called. -/
  | injected
  /-- More workers than a pool can have. -/
  | tooManyWorkers
deriving DecidableEq, Repr

namespace Fault

/-- The text of a fault. -/
def message : Fault → String
  | overflow o => o.message
  | injected => "scripted"
  | tooManyWorkers =>
    "a semaphore may not have more than MAX_PERMITS permits (2305843009213693951)"

end Fault

end ChainLedger
