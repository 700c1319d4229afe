import ChainLedger.Position
import ChainLedger.Table

/-!
# Metrics

The events that tell what a batch did, and the counters, sample counts and
offset gauges that they add up to.  The gauge holds a signed number of 64 bits,
so an offset of its upper half shows as a negative number.
-/

namespace ChainLedger

/-- A stage of a batch that is timed. -/
inductive Stage
  | fetch
  | store
  | commitLog
  | reload
  | finalize
  | revert
  | batch
deriving DecidableEq, Repr

namespace Stage

/-- The label of a stage. -/
def label : Stage → String
  | fetch => "fetch"
  | store => "store"
  | commitLog => "commit_log"
  | reload => "reload"
  | finalize => "finalize"
  | revert => "revert"
  | batch => "batch"

end Stage

/-- What a batch tells its observers. -/
inductive Event
  /-- A stage has ended. -/
  | stage (topic : String) (s : Stage)
  /-- A batch is undone because an address is locked. -/
  | lockAbort (topic : String)
  /-- An address was written over another partition's row in doubt. -/
  | forcedApply (topic : String)
  /-- A row stays in doubt after its batch. -/
  | finalizeFailure (topic : String)
  /-- An offset of a partition has been acknowledged. -/
  | offset (p : Partition) (offset : Nat)
deriving DecidableEq, Repr

/-- The values of all metrics that were ever touched, by name and labels. -/
structure Metrics where
  values : Table String Int := .empty
deriving DecidableEq

namespace Metrics

/-- The metric of a name with its label values. -/
def series (name : String) (labels : List String) : String :=
  name ++ "\x7b" ++ ",".intercalate labels ++ "\x7d"

/-- The metrics with a series raised by some count. -/
def add (m : Metrics) (series : String) (count : Nat) : Metrics :=
  ⟨m.values.insert series ((m.values.get? series).getD 0 + count)⟩

/-- The metrics with the offset gauge of a partition set. -/
def setOffset (m : Metrics) (p : Partition) (offset : Nat) : Metrics :=
  let series := series "summary_current_offset" [toString p.number, p.topic]
  ⟨m.values.insert series (Int.bmod offset (Nat.pow 2 64))⟩

/-- The metrics with `count` samples of a stage added. -/
def observe (m : Metrics) (topic : String) (s : Stage) (count : Nat) : Metrics :=
  if count = 0 then m else m.add (series "summary_stage_seconds" [s.label, topic]) count

/-- The metrics after an event. -/
def record (m : Metrics) : Event → Metrics
  | .stage topic s => m.observe topic s 1
  | .lockAbort topic => m.add (series "summary_lock_aborts_total" [topic]) 1
  | .forcedApply topic => m.add (series "summary_forced_applies_total" [topic]) 1
  | .finalizeFailure topic => m.add (series "summary_finalize_failures_total" [topic]) 1
  | .offset p offset => m.setOffset p offset

end Metrics

end ChainLedger
