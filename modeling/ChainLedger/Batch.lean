import ChainLedger.Apply
import ChainLedger.Merge
import ChainLedger.Metrics
import ChainLedger.Pool
import ChainLedger.Record.Effect

/-!
# Batches

A delivered batch is written to all its addresses, then acknowledged to the log,
and only then are its rows marked as settled.  If an address is locked, every
row that the batch wrote is put back and the batch is not acknowledged, so it is
delivered again.  A failure ends the batch at once; the rows it wrote stay in
doubt under its own partition, where the next delivery finds them.
-/

namespace ChainLedger

/-- The work for one address: its merged delta and the row that was fetched. -/
structure Job where
  delta : Delta
  row? : Option Row
deriving DecidableEq

/-- A call of a batch. -/
inductive BatchCall
  /-- Whether a batch is still accepted. -/
  | accepting
  /-- A store call under a deadline. -/
  | store (c : StoreCall) (deadline : Nat)
  /-- The apply loops of all jobs, each run to its own end. -/
  | applyAll (policy : Policy) (jobs : List Job)
  /-- The acknowledgment of the batch to the log. -/
  | acknowledge (b : Bounds)
  /-- An event for the observers. -/
  | tell (e : Event)

/-- The calls of a batch, with their answers. -/
@[reducible] def batchSignature : Signature where
  Call := BatchCall
  Answer
    | .accepting => Bool
    | .store c _ => Timed c.Answer
    | .applyAll _ _ => List (JobEnd Apply.Result)
    | .acknowledge _ => Except LogError Unit
    | .tell _ => Unit

/-- The result of a batch. -/
inductive Outcome
  /-- There were no records. -/
  | empty
  /-- The batch is applied and acknowledged.  The rows of `finalized` are
  settled, those of `unfinalized` are left in doubt. -/
  | committed (b : Bounds) (applied finalized unfinalized : List Address)
  /-- An address was locked; the rows of `restored` are as before. -/
  | reverted (b : Bounds) (locked restored : List Address)
deriving DecidableEq

namespace Outcome

/-- Whether the batch was acknowledged. -/
def isCommitted : Outcome → Bool
  | committed .. => true
  | empty | reverted .. => false

/-- Whether the batch was undone. -/
def isReverted : Outcome → Bool
  | reverted .. => true
  | empty | committed .. => false

end Outcome

/-- A row to be settled, with the version that the batch knows it by. -/
structure Target where
  key : Address
  version : Nat
deriving DecidableEq

/-- Records of one partition in ascending order, with their bounds. -/
structure Batch where
  bounds : Bounds
  records : List Record
deriving DecidableEq

namespace Batch

/-- The batch of some delivered records, if there are any. -/
def ofRecords (rs : List Record) : Except Failure (Option Batch) :=
  let sorted := rs.mergeSort fun a b => a.offset ≤ b.offset
  match sorted with
  | [] => .ok none
  | first :: rest =>
    match rest.find? (·.partition ≠ first.partition) with
    | some other => .error (.mixedBatch first.partition other.partition)
    | none =>
      let last := rest.getLast?.getD first
      .ok (some {
        bounds := {
          partition := first.partition
          first := first.offset
          last := last.offset
          count := sorted.length }
        records := sorted })

/-- The deltas of the batch, in the order of its records. -/
def deltas (b : Batch) : List Delta := b.records.flatMap Record.deltas

/-- The addresses that the batch changes, ascending. -/
def keys (b : Batch) : List Address := Record.keys b.records

/-- A program that makes the calls of a batch. -/
abbrev Step := Prog batchSignature

/-- Tells the observers of one event. -/
def tell (e : Event) : Step Unit := .call (.tell e) .done

/-- Tells the observers that a stage of the batch has ended. -/
def passed (b : Bounds) (s : Stage) : Step Unit := tell (.stage b.partition.topic s)

/-- Makes a store call under the policy's deadline. -/
def store (policy : Policy) (c : StoreCall) : Step (Except StoreError c.Answer) :=
  .call (.store c policy.deadline) fun r => .done (r.result c.name)

/-- The jobs of the merged deltas, in the order of their addresses. -/
def jobs (rows : Table Address Row) (merged : Table Address Delta) : List Job :=
  merged.values.map fun d => ⟨d, rows.get? d.key⟩

/-- The fetched rows in doubt at a position of this batch that nothing is to be
applied to: an earlier delivery wrote them. -/
def carriedOver (b : Batch) (rows : Table Address Row) (merged : Table Address Delta) :
    List Target :=
  b.keys.filterMap fun key =>
    if merged.contains key then none
    else (rows.get? key).bind fun row =>
      if ¬ row.settled ∧ b.bounds.Contains row.source then some ⟨row.key, row.version⟩ else none

/-- The row that an ended loop leaves to be settled. -/
def target? : Ending → Option Target
  | .applied w => some ⟨w.key, w.version⟩
  | .alreadyApplied key version settled => if settled then none else some ⟨key, version⟩
  | .locked _ _ => none

/-- The write of an ended loop. -/
def write? : Ending → Option Write
  | .applied w => some w
  | .alreadyApplied .. | .locked .. => none

/-- The address that an ended loop found locked. -/
def locked? : Ending → Option Address
  | .locked key _ => some key
  | .applied _ | .alreadyApplied .. => none

/-- The first failure among the results. -/
def firstFailure? : List Apply.Result → Option Failure
  | [] => none
  | .error e :: _ => some e
  | .ok _ :: rest => firstFailure? rest

/-- Removes a row that the batch made, if it is still as written.  The answer
says whether it was. -/
def removeOwn (policy : Policy) (w : Write) : Step (Except StoreError Bool) := do
  match ← store policy (.find w.key) with
  | .error e => return .error e
  | .ok none => return .ok false
  | .ok (some row) =>
    if row.version = w.version ∧ ¬ row.settled then
      match ← store policy (.remove w.key) with
      | .error e => return .error e
      | .ok () => return .ok true
    else return .ok false

/-- Puts one row back as it was before the write. -/
def restore (policy : Policy) (w : Write) : Step (Except StoreError Bool) :=
  match w.previous with
  | some row => store policy (.update row w.version)
  | none => removeOwn policy w

/-- Puts every written row back.  The result lists the addresses for which that
succeeded; a row that moved on, or cannot be reached, is left as it is. -/
def restoreAll (policy : Policy) : List Write → Step (List Address)
  | [] => return []
  | w :: ws => do
    match ← restore policy w with
    | .ok true => return w.key :: (← restoreAll policy ws)
    | .ok false | .error _ => restoreAll policy ws

/-- Undoes the batch. -/
def undo (policy : Policy) (b : Bounds) (locked : List Address) (writes : List Write) :
    Step Outcome := do
  tell (.lockAbort b.partition.topic)
  let restored ← restoreAll policy writes
  passed b .revert
  passed b .batch
  return .reverted b locked restored

/-- Whether the row read again is still the one to be settled. -/
def eligible (rows : Table Address Row) (t : Target) : Bool :=
  match rows.get? t.key with
  | some row => row.version = t.version ∧ ¬ row.settled
  | none => false

/-- Settles one row, and says whether that succeeded. -/
def settle (policy : Policy) (rows : Table Address Row) (t : Target) : Step Bool := do
  if eligible rows t then
    match ← store policy (.settle t.key t.version) with
    | .ok done => return done
    | .error _ => return false
  else return false

/-- Settles the rows one by one, into those settled and those left in doubt. -/
def settleAll (policy : Policy) (topic : String) (rows : Table Address Row) :
    List Target → Step (List Address × List Address)
  | [] => return ([], [])
  | t :: ts => do
    if ← settle policy rows t then
      let (finalized, failed) ← settleAll policy topic rows ts
      return (t.key :: finalized, failed)
    else
      tell (.finalizeFailure topic)
      let (finalized, failed) ← settleAll policy topic rows ts
      return (finalized, t.key :: failed)

/-- The second phase: reads the rows again and settles those that are still as
this batch knows them. -/
def finalize (policy : Policy) (b : Bounds) (targets : List Target) :
    Step (List Address × List Address) := do
  if targets.isEmpty then return ([], [])
  let keys := targets.map (·.key)
  match ← store policy (.findAll keys) with
  | .error _ =>
    keys.forM fun _ => tell (.finalizeFailure b.partition.topic)
    return ([], keys)
  | .ok rows =>
    passed b .reload
    let result ← settleAll policy b.partition.topic rows targets
    passed b .finalize
    return result

/-- Acknowledges the batch and settles its rows. -/
def commit (policy : Policy) (b : Bounds) (writes : List Write) (targets : List Target) :
    Step (Except Failure Outcome) := do
  match ← Prog.ask (S := batchSignature) (.acknowledge b) with
  | .error e => return .error (.log e)
  | .ok () =>
    passed b .commitLog
    tell (.offset b.partition b.last)
    let (finalized, failed) ← finalize policy b targets
    passed b .batch
    return .ok (.committed b (writes.map (·.key)) finalized failed)

/-- Goes on from the results of all jobs: to a failure, to undoing the batch, or
to acknowledging it. -/
def conclude (policy : Policy) (b : Bounds) (carried : List Target)
    (results : List Apply.Result) : Step (Except Failure Outcome) := do
  let endings := results.filterMap Except.toOption
  let writes := endings.filterMap write?
  (writes.filter (·.forced)).forM fun _ => tell (.forcedApply b.partition.topic)
  match firstFailure? results with
  | some e => return .error e
  | none =>
    match endings.filterMap locked? with
    | [] => commit policy b writes (carried ++ endings.filterMap target?)
    | locked => return .ok (← undo policy b locked writes)

/-- Processes a batch that was accepted. -/
def run (policy : Policy) (b : Batch) : Step (Except Failure Outcome) := do
  match ← store policy (.findAll b.keys) with
  | .error e => return .error (.store e)
  | .ok rows =>
    passed b.bounds .fetch
    let merged ← .ofExcept (Merge.batch rows b.deltas)
    let ends ← Prog.ask (S := batchSignature) (.applyAll policy (jobs rows merged))
    match JobEnd.collect ends with
    | none => return .error .workerFailed
    | some results =>
      passed b.bounds .store
      conclude policy b.bounds (b.carriedOver rows merged) results

/-- Processes some delivered records, unless batches are refused. -/
def process (policy : Policy) (rs : List Record) : Step (Except Failure Outcome) := do
  if ← Prog.ask (S := batchSignature) .accepting then
    match ofRecords rs with
    | .error e => return .error e
    | .ok none => return .ok .empty
    | .ok (some b) => b.run policy
  else return .error .shutDown

end Batch

end ChainLedger
