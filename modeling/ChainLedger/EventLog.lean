import ChainLedger.Failure
import ChainLedger.Record
import ChainLedger.Table

/-!
# The event log in memory

A partitioned log.  The records of a partition are numbered from zero, and each
partition remembers the offset last acknowledged.  A consumer always polls from
the record after that one, so what is not acknowledged is delivered again.
-/

namespace ChainLedger

/-- One partition of the log. -/
structure PartitionLog where
  /-- Its records; a record's offset is its place in the list. -/
  records : List Record := []
  /-- The offset last acknowledged. -/
  acknowledged : Option Nat := none
deriving DecidableEq

namespace PartitionLog

/-- The first offset that is not acknowledged. -/
def firstPending (l : PartitionLog) : Nat :=
  match l.acknowledged with
  | some offset => offset + 1
  | none => 0

/-- The number of records that are not acknowledged. -/
def lag (l : PartitionLog) : Nat := l.records.length - l.firstPending

/-- The records that are not acknowledged, at most `max` of them. -/
def pending (l : PartitionLog) (max : Nat) : List Record :=
  (l.records.drop l.firstPending).take max

/-- The partition with everything up to an offset acknowledged. -/
def acknowledge (l : PartitionLog) (offset : Nat) : PartitionLog :=
  { l with acknowledged := some (match l.acknowledged with
      | some old => max old offset
      | none => offset) }

end PartitionLog

/-- A partitioned log, which can be told to refuse the next acknowledgment. -/
structure EventLog where
  partitions : Table Partition PartitionLog := .empty
  failNext : Bool := false
deriving DecidableEq

namespace EventLog

/-- The partition, empty if it is not known. -/
def partition (log : EventLog) (p : Partition) : PartitionLog :=
  (log.partitions.get? p).getD {}

/-- The offset of the next record appended to a partition. -/
def nextOffset (log : EventLog) (p : Partition) : Nat := (log.partition p).records.length

/-- The log with a record appended to a partition. -/
def append (log : EventLog) (p : Partition) (kind : Kind) (payload : Payload) : EventLog :=
  let l := log.partition p
  let record : Record := { kind, payload, partition := p, offset := log.nextOffset p }
  { log with partitions := log.partitions.insert p { l with records := l.records ++ [record] } }

/-- The log with records appended to their own partitions, their offsets
assigned anew. -/
def appendAll (log : EventLog) (rs : List Record) : EventLog :=
  rs.foldl (fun log r => log.append r.partition r.kind r.payload) log

/-- The offset last acknowledged in a partition. -/
def acknowledged (log : EventLog) (p : Partition) : Option Nat := (log.partition p).acknowledged

/-- The number of records of a partition that are not acknowledged. -/
def lag (log : EventLog) (p : Partition) : Nat := (log.partition p).lag

/-- The committed position of a partition: the next offset to be consumed. -/
def latestOffset (log : EventLog) (p : Partition) : Option Nat :=
  (log.acknowledged p).map (· + 1)

/-- The next records of a partition, at least one if any is pending. -/
def poll (log : EventLog) (p : Partition) (maxBatch : Nat) : Except LogError (List Record) :=
  match log.partitions.get? p with
  | some l => .ok (l.pending (max maxBatch 1))
  | none => .error (.unknownPartition p)

/-- The log after a batch is acknowledged. -/
def acknowledge (log : EventLog) (b : Bounds) : EventLog × Except LogError Unit :=
  if log.failNext then
    ({ log with failNext := false }, .error (.commitFailed b.partition "injected failure"))
  else
    match log.partitions.get? b.partition with
    | none => (log, .error (.unknownPartition b.partition))
    | some l =>
      if b.last < l.records.length then
        let l := l.acknowledge b.last
        ({ log with partitions := log.partitions.insert b.partition l }, .ok ())
      else
        let reason := "offset " ++ toString b.last ++ " beyond log end"
        (log, .error (.commitFailed b.partition reason))

/-- The log after the consumer of a partition acknowledges a batch, which has to
be of that partition. -/
def acknowledgeAs (log : EventLog) (p : Partition) (b : Bounds) :
    EventLog × Except LogError Unit :=
  if b.partition = p then log.acknowledge b else (log, .error (.unknownPartition b.partition))

end EventLog

end ChainLedger
