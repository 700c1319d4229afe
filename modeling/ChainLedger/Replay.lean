import ChainLedger.Backend
import ChainLedger.Json.Reader
import ChainLedger.Record.Format
import ChainLedger.Text.Blank

/-!
# Replaying records

A text of records, one a line, is appended to an empty log; then each partition
is drained into an empty store, and the store's rows are the result.  Offsets
are assigned anew, and blank lines count only as lines.
-/

namespace ChainLedger

namespace Replay

/-- Why a replay has no result. -/
inductive Stop
  /-- A line is no record; lines are counted from one. -/
  | badRecord (line : Nat)
  /-- A partition could not be drained. -/
  | failed (p : Partition) (e : Failure)
  | fault (f : Fault)
deriving DecidableEq

/-- The lines of a text. -/
def lines : List Char → List (List Char)
  | [] => [[]]
  | c :: cs =>
    if c = '\n' then [] :: lines cs
    else
      match lines cs with
      | l :: ls => (c :: l) :: ls
      | [] => [[c]]

/-- The record of a line, if the line is one. -/
def record? (line : List Char) : Option Record := (Json.ofChars? line).bind Record.ofJson?

/-- The records of lines that are counted from `number`. -/
def records (number : Nat) : List (List Char) → Except Stop (List Record)
  | [] => .ok []
  | l :: ls =>
    if l.all Text.isBlank then records (number + 1) ls
    else
      match record? l with
      | none => .error (.badRecord number)
      | some r => (records (number + 1) ls).map (r :: ·)

/-- Drains partitions one after another.  Each turn but the last acknowledges a
record at least, so there are turns enough. -/
def drainAll (settings : Settings) : List Partition → Backend → Except Stop Backend
  | [], b => .ok b
  | p :: ps, b =>
    match b.drain settings p settings.batchSize (b.log.lag p + 1) with
    | (_, some (.error f)) => .error (.fault f)
    | (_, some (.ok (.error e))) => .error (.failed p e)
    | (b, _) => drainAll settings ps b

/-- The rows that the records of a text add up to, ascending by address. -/
def rows (settings : Settings) (text : String) : Except Stop (List Row) := do
  let rs ← records 1 (lines text.toList)
  let _ ← (Pool.ofSize settings.workers).mapError .fault
  let b : Backend := { log := EventLog.appendAll {} rs }
  let b ← drainAll settings b.log.partitions.keys b
  return b.store.rows.values

/-- A row as it is printed. -/
def toJson (r : Row) : Json :=
  Json.object [("address", Json.text (Address.render r.key)),
    ("balance", Json.text (toString r.totals.balance)),
    ("total_received", Json.text (toString r.totals.received)),
    ("tx_number", Json.int r.totals.transfers),
    ("mined_block_number", Json.int r.totals.blocks),
    ("mined_uncle_number", Json.int r.totals.uncles),
    ("version", Json.nat r.version),
    ("offset_committed", Json.bool r.settled),
    ("first_seen_at", Json.nat r.firstSeen),
    ("last_seen_at", Json.nat r.lastSeen)]

end Replay

end ChainLedger
