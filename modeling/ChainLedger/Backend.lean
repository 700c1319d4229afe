import ChainLedger.EventLog
import ChainLedger.Service
import ChainLedger.Store.Memory

/-!
# Running on memory

The engine on a store and a log in memory.  Every call is answered at once, the
log answers for the offset oracle, and the jobs of a batch run one after another,
each to its end.  No call is late and nobody else acts, so waiting is no more
than a step.
-/

namespace ChainLedger

/-- A store and a log in memory, and what the observers were told. -/
structure Backend where
  store : MemoryStore := {}
  log : EventLog := {}
  /-- Whether batches are still accepted. -/
  accepting : Bool := true
  /-- The events, in their order. -/
  told : List Event := []

namespace Backend

/-- The answer to a store call. -/
def answerStore (b : Backend) (c : StoreCall) : Backend × Except Fault (Timed c.Answer) :=
  let (store, r) := b.store.perform c
  ({ b with store }, r.map .answered)

/-- The answer to a call of an apply loop. -/
def answerApply (b : Backend) : (c : ApplyCall) → Backend × Except Fault (applySignature.Answer c)
  | .store c _ => b.answerStore c
  | .latestOffset p => (b, .ok (.ok (b.log.latestOffset p)))
  | .wait _ => (b, .ok ())

/-- Enough turns for an apply loop that nobody disturbs: each attempt waits and
reads, and one turn writes. -/
def turns (policy : Policy) : Nat := 2 * policy.attempts + 4

/-- Runs the apply loop of a job. -/
def runJob (policy : Policy) (b : Backend) (j : Job) : Backend × JobEnd Apply.Result :=
  match Turn.run answerApply (Apply.turn policy j.delta) (turns policy) b (.start j.row?) with
  | (b, some (.ok r)) => (b, .finished r)
  | (b, some (.error _)) | (b, none) => (b, .crashed)

/-- Runs the apply loops of all jobs, one after another. -/
def runJobs (policy : Policy) (b : Backend) : List Job → Backend × List (JobEnd Apply.Result)
  | [] => (b, [])
  | j :: js =>
    let (b, e) := b.runJob policy j
    let (b, es) := runJobs policy b js
    (b, e :: es)

/-- The answer to a call of a batch that the consumer of a partition delivered. -/
def answerBatch (p : Partition) (b : Backend) :
    (c : BatchCall) → Backend × Except Fault (batchSignature.Answer c)
  | .accepting => (b, .ok b.accepting)
  | .store c _ => b.answerStore c
  | .applyAll policy jobs =>
    let (b, es) := b.runJobs policy jobs
    (b, .ok es)
  | .acknowledge bounds =>
    let (log, r) := b.log.acknowledgeAs p bounds
    ({ b with log }, .ok r)
  | .tell e => ({ b with told := b.told ++ [e] }, .ok ())

/-- The answer to a call of a service that follows a partition. -/
def answerService (p : Partition) (maxBatch : Nat) (b : Backend) :
    (c : ServiceCall) → Backend × Except Fault (serviceSignature.Answer c)
  | .batch c => b.answerBatch p c
  | .poll => (b, .ok (b.log.poll p maxBatch))
  | .wait _ => (b, .ok ())
  | .stopSignalled => (b, .ok false)
  | .pause _ => (b, .ok .over)

/-- Processes some records that the consumer of a partition delivered. -/
def process (policy : Policy) (p : Partition) (b : Backend) (rs : List Record) :
    Backend × Except Fault (Except Failure Outcome) :=
  (Batch.process policy rs).run (answerBatch p) b

/-- Drains a partition, within a number of turns. -/
def drain (settings : Settings) (p : Partition) (maxBatch turns : Nat) (b : Backend) :
    Backend × Option (Except Fault (Except Failure Stats)) :=
  Turn.run (answerService p maxBatch) (Service.drain settings) turns b {}

end Backend

end ChainLedger
