import ChainLedger.Delta
import ChainLedger.Record

/-!
# The effect of a record

A block or an uncle pays its miner; a transaction takes value and fee from the
sender and gives the value to the receiver.  A record that left the chain takes
back what it did, and one that is only pooled does nothing.  A payload whose
amounts do not fit, or a transaction that nobody receives, is malformed and has
no effect at all.
-/

namespace ChainLedger

/-- Why a payload has no effect. -/
inductive Defect
  /-- The parts of a block reward add up to more than 128 bits. -/
  | rewardTooLarge
  /-- An amount is no signed number of 128 bits. -/
  | amountTooLarge
  /-- Nobody receives the value. -/
  | noReceiver
  /-- Value and fee add up to more than 128 bits. -/
  | spendingTooLarge
deriving DecidableEq, Repr

namespace Defect

/-- The text of a defect. -/
def message : Defect → String
  | rewardTooLarge => "block reward overflows"
  | amountTooLarge => "amount exceeds signed 128-bit range"
  | noReceiver => "transaction has neither receiver nor created contract"
  | spendingTooLarge => "value + fee overflows"

end Defect

/-- The amount as a signed number of 128 bits. -/
def signedAmount (amount : Nat) : Except Defect Int :=
  if FitsSigned 128 (amount : Int) then .ok amount else .error .amountTooLarge

/-- The value, or the defect that its absence is. -/
def orDefect (defect : Defect) {α : Type} : Option α → Except Defect α
  | some a => .ok a
  | none => .error defect

namespace Payload

/-- The deltas of a payload that joins the chain at a position, the sender's
before the receiver's. -/
def deltas (source : Position) : Payload → Except Defect (List Delta)
  | .block b => do
    let reward ← signedAmount (← orDefect .rewardTooLarge b.reward?)
    return [{
      key := b.miner
      change := { balance := reward, received := reward, blocks := 1 }
      source := source
      time := b.time }]
  | .uncle u => do
    let reward ← signedAmount u.reward
    return [{
      key := u.miner
      change := { balance := reward, received := reward, uncles := 1 }
      source := source
      time := u.time }]
  | .transaction t => do
    let receiver ← orDefect .noReceiver t.receiver?
    let value ← signedAmount t.value
    let spent ← signedAmount (← orDefect .spendingTooLarge (addUnsigned? 128 t.value t.fee))
    return [
      { key := t.sender
        change := { balance := -spent, transfers := 1 }
        source := source
        time := t.time },
      { key := receiver
        change := { balance := value, received := value, transfers := 1 }
        source := source
        time := t.time }]

end Payload

namespace Record

/-- The deltas of a record, or the defect of its payload. -/
def effect (r : Record) : Except Defect (List Delta) :=
  match r.kind with
  | .added => r.payload.deltas r.position
  | .dropped => (r.payload.deltas r.position).map (·.map Delta.negated)
  | .pooled | .unknown => .ok []

/-- The deltas of a record; a malformed one has none. -/
def deltas (r : Record) : List Delta :=
  match r.effect with
  | .ok ds => ds
  | .error _ => []

/-- The reason why a malformed record is passed over. -/
def skipped? (r : Record) : Option Defect :=
  match r.effect with
  | .ok _ => none
  | .error e => some e

/-- The distinct addresses that the records change, ascending. -/
def keys (rs : List Record) : List Address := Delta.keys (rs.flatMap deltas)

end Record

end ChainLedger
