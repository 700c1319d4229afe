import ChainLedger.Batch

/-!
# Following a partition

A consumer of one partition is either drained, which ends when nothing is
pending or a batch fails, or served, which goes on over failures until a stop is
signalled.  Both go turn by turn, with one poll and at most one batch a turn.
-/

namespace ChainLedger

/-- How a pause ends. -/
inductive PauseEnd
  /-- Its time is over, or a signal has come. -/
  | over
  /-- Nobody can send a signal any more. -/
  | abandoned
deriving DecidableEq

/-- A call of a service. -/
inductive ServiceCall
  /-- A call of the batch being processed. -/
  | batch (c : BatchCall)
  /-- The next records. -/
  | poll
  /-- Nothing, for some milliseconds. -/
  | wait (ms : Nat)
  /-- Whether a stop is signalled. -/
  | stopSignalled
  /-- Nothing, for some milliseconds or until a signal comes. -/
  | pause (ms : Nat)

/-- The calls of a service, with their answers. -/
@[reducible] def serviceSignature : Signature where
  Call := ServiceCall
  Answer
    | .batch c => batchSignature.Answer c
    | .poll => Except LogError (List Record)
    | .wait _ => Unit
    | .stopSignalled => Bool
    | .pause _ => PauseEnd

/-- What a service has done. -/
structure Stats where
  /-- Batches acknowledged. -/
  committed : Nat := 0
  /-- Batches undone. -/
  reverted : Nat := 0
  /-- Batches that failed. -/
  failed : Nat := 0
  /-- Records of the acknowledged batches. -/
  records : Nat := 0
deriving DecidableEq, Repr

namespace Stats

/-- The statistics with the outcome of a batch counted. -/
def count (s : Stats) : Outcome → Stats
  | .empty => s
  | .committed b _ _ _ => { s with committed := s.committed + 1, records := s.records + b.count }
  | .reverted _ _ _ => { s with reverted := s.reverted + 1 }

end Stats

namespace Service

/-- A program that makes the calls of a service. -/
abbrev Step := Prog serviceSignature

/-- A batch program as part of a service. -/
def ofBatch {α : Type} : Batch.Step α → Step α
  | .done a => .done a
  | .crash f => .crash f
  | .call c next => .call (.batch c) fun a => ofBatch (next a)

/-- The next records of the consumer. -/
def poll : Step (Except LogError (List Record)) := .call .poll .done

/-- Processes one poll. -/
def once (policy : Policy) : Step (Except Failure Outcome) := do
  match ← poll with
  | .error e => return .error (.log e)
  | .ok rs => ofBatch (Batch.process policy rs)

/-- A turn of draining: one poll and its batch; after a batch that was undone it
waits before the next delivery. -/
def drain (settings : Settings) (stats : Stats) :
    Step (Turn Stats (Except Failure Stats)) := do
  match ← poll with
  | .error e => return .stop (.error (.log e))
  | .ok [] => return .stop (.ok stats)
  | .ok rs =>
    match ← ofBatch (Batch.process settings.policy rs) with
    | .error e => return .stop (.error e)
    | .ok outcome =>
      if outcome.isReverted then
        let () ← Prog.ask (S := serviceSignature) (.wait settings.retryDelay)
      return .again (stats.count outcome)

/-- Pauses before the next turn; the service ends if no signal can come. -/
def pause (ms : Nat) (stats : Stats) : Step (Turn Stats Stats) := do
  match ← Prog.ask (S := serviceSignature) (.pause ms) with
  | .over => return .again stats
  | .abandoned => return .stop stats

/-- A turn of serving: unless a stop is signalled, one poll and its batch, and a
pause after anything but an acknowledged batch. -/
def serve (settings : Settings) (stats : Stats) : Step (Turn Stats Stats) := do
  if ← Prog.ask (S := serviceSignature) .stopSignalled then return .stop stats
  match ← poll with
  | .error _ => pause settings.errorBackoff stats
  | .ok [] => pause settings.pollInterval stats
  | .ok rs =>
    match ← ofBatch (Batch.process settings.policy rs) with
    | .error .shutDown => return .stop stats
    | .error _ => pause settings.errorBackoff { stats with failed := stats.failed + 1 }
    | .ok outcome =>
      let stats := stats.count outcome
      if outcome.isReverted then pause settings.retryDelay stats else return .again stats

end Service

end ChainLedger
