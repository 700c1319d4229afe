import ChainLedger.Program
import ChainLedger.Settings
import ChainLedger.Store

/-!
# Applying one delta

The loop that writes one merged delta over the row of its address.  It goes
turn by turn: a turn either reads the row or acts on the row last read.  A row
that is settled, or in doubt under the delta's own partition, is replaced by
compare-and-swap unless it counts the delta already.  A row in doubt under
another partition is waited for; when the attempts are used up, the offset
oracle decides whether it is written over or the address counts as locked.

A missed deadline uses up one attempt.  Whether the write happened is seen at
the next read: a row of the written version at the delta's position is this
loop's own.
-/

namespace ChainLedger

/-- A call of an apply loop. -/
inductive ApplyCall
  /-- A store call under a deadline. -/
  | store (c : StoreCall) (deadline : Nat)
  /-- The committed position of a partition. -/
  | latestOffset (p : Partition)
  /-- Nothing, for some milliseconds. -/
  | wait (ms : Nat)

/-- The calls of an apply loop, with their answers. -/
@[reducible] def applySignature : Signature where
  Call := ApplyCall
  Answer
    | .store c _ => Timed c.Answer
    | .latestOffset _ => Except OracleError (Option Nat)
    | .wait _ => Unit

/-- Why an address is locked. -/
inductive LockReason
  /-- Another partition's row is in doubt, and that partition has not moved on
  from the holder's position. -/
  | stalledWriter (holder : Position) (committed : Option Nat)
  /-- Too many compare-and-swaps were lost. -/
  | conflicts (count : Nat)
deriving DecidableEq

/-- A write to the row of an address. -/
structure Write where
  key : Address
  /-- The row replaced, if there was one. -/
  previous : Option Row
  /-- The version written. -/
  version : Nat
  /-- Whether the row replaced was in doubt under another partition. -/
  forced : Bool
deriving DecidableEq

/-- How an apply loop ends. -/
inductive Ending
  /-- The loop wrote the delta. -/
  | applied (w : Write)
  /-- The row counts the delta already. -/
  | alreadyApplied (key : Address) (version : Nat) (settled : Bool)
  /-- The address cannot be written; the batch has to be undone. -/
  | locked (key : Address) (reason : LockReason)
deriving DecidableEq

namespace Ending

/-- The address of the loop. -/
def key : Ending → Address
  | applied w => w.key
  | alreadyApplied key _ _ => key
  | locked key _ => key

/-- Whether the batch has to be undone. -/
def isLocked : Ending → Bool
  | locked _ _ => true
  | applied _ | alreadyApplied _ _ _ => false

end Ending

/-- What a row means to a delta that is about to be written. -/
inductive Standing
  /-- There is no row. -/
  | absent
  /-- The row is settled, or in doubt under the delta's own partition. -/
  | open (row : Row)
  /-- The row is in doubt under another partition. -/
  | held (row : Row)
deriving DecidableEq

namespace Standing

/-- What a row means to a delta at a position. -/
def of (row? : Option Row) (source : Position) : Standing :=
  match row? with
  | none => absent
  | some row => if row.settled ∨ row.SameOrigin source then .open row else .held row

end Standing

namespace Apply

/-- What an apply loop knows between two turns.  Its two counters are numbers without
a width.  Between two turns they are within the bounds of the policy, and a turn
adds at most one, so none of them passes its bound by more than one. -/
structure State where
  /-- Attempts used up by waiting and by missed deadlines. -/
  spent : Nat := 0
  /-- Compare-and-swaps lost. -/
  conflicts : Nat := 0
  /-- A write that missed its deadline. -/
  inFlight : Option Write := none
  /-- The row last read, unless it has to be read again. -/
  seen : Option (Option Row)
deriving DecidableEq

/-- The result of an apply loop. -/
abbrev Result := Except Failure Ending

/-- A turn of an apply loop. -/
abbrev Step := Prog applySignature (Turn State Result)

variable (policy : Policy) (d : Delta)

/-- The start of the loop at a row that was read before. -/
def State.start (row? : Option Row) : State where
  seen := some row?

/-- The loop has to read the row again. -/
def State.reread (s : State) : State := { s with seen := none }

/-- Makes a store call under the policy's deadline. -/
def store (c : StoreCall) : Prog applySignature (Except StoreError c.Answer) :=
  .call (.store c policy.deadline) fun r => .done (r.result c.name)

/-- The loop ends. -/
def finish (e : Ending) : Step := .done (.stop (.ok e))

/-- The loop goes on after a store failure, which has to be a missed deadline
within the attempts. -/
def retry (s : State) (e : StoreError) (inFlight : Option Write) : Step :=
  if e.isRetryable ∧ s.spent + 1 < policy.attempts then
    .done (.again { s with spent := s.spent + 1, inFlight := inFlight, seen := none })
  else .done (.stop (.error (.store e)))

/-- The row read is the outcome of a write in flight. -/
def Landed (w : Write) (row : Row) : Prop := row.version = w.version ∧ row.source = d.source

instance (w : Write) (row : Row) : Decidable (Landed d w row) :=
  inferInstanceAs (Decidable (_ ∧ _))

/-- Reads the row, and ends if a write in flight turns out to have happened. -/
def read (s : State) : Step := do
  match ← store policy (.find d.key) with
  | .error e => retry policy s e s.inFlight
  | .ok row? =>
    match s.inFlight, row? with
    | some w, some row =>
      if Landed d w row then finish (.applied w)
      else return .again { s with inFlight := none, seen := some (some row) }
    | _, _ => return .again { s with inFlight := none, seen := some row? }

/-- Makes the first row of the address. -/
def insert (s : State) : Step := do
  let write : Write := { key := d.key, previous := none, version := 0, forced := false }
  match ← store policy (.insert (Row.ofDelta d)) with
  | .ok true => finish (.applied write)
  | .ok false => return .again s.reread
  | .error e => retry policy s e (some write)

/-- Replaces a row, if it is still the one that was read. -/
def replace (s : State) (row : Row) (forced : Bool) : Step := do
  let updated ← .ofExcept (row.apply d)
  let write : Write := { key := d.key, previous := some row, version := updated.version, forced }
  match ← store policy (.update updated row.version) with
  | .ok true => finish (.applied write)
  | .ok false =>
    if s.conflicts + 1 > policy.conflicts then
      finish (.locked d.key (.conflicts (s.conflicts + 1)))
    else return .again { s with conflicts := s.conflicts + 1, seen := none }
  | .error e => retry policy s e (some write)

/-- Waits for a row in doubt under another partition, or asks the oracle about
it once all attempts are used up. -/
def contend (s : State) (row : Row) : Step := do
  if s.spent < policy.attempts then
    let () ← Prog.ask (S := applySignature) (.wait policy.retryDelay)
    return .again { s with spent := s.spent + 1, seen := none }
  else
    match ← Prog.ask (S := applySignature) (.latestOffset row.source.partition) with
    | .error e => return .stop (.error (.oracle e))
    | .ok committed =>
      if policy.takeover.allows committed row.source.offset then replace policy d s row true
      else finish (.locked d.key (.stalledWriter row.source committed))

/-- One turn of the loop. -/
def turn (s : State) : Step :=
  match s.seen with
  | none => read policy d s
  | some row? =>
    match Standing.of row? d.source with
    | .absent => insert policy d s
    | .open row =>
      if row.Reflects d.source then finish (.alreadyApplied d.key row.version row.settled)
      else replace policy d s row false
    | .held row => contend policy d s row

end Apply

end ChainLedger
