import Mathlib.Data.List.Induction
import ChainLedger.Proofs.Accounts
import ChainLedger.Proofs.Draining

/-!
# Offsets of the log

However a log is used, from its first record on: the records of each partition are numbered from
zero, what is acknowledged is there and is not forgotten, what is pending makes up the rest, and
partitions do not interfere.  Consumers may acknowledge anything, be it old, beyond the end or of
another partition, and acknowledgments may be told to fail.
-/

namespace ChainLedger

namespace EventLog

/-- What may be done with a log. -/
inductive Operation
  | append (p : Partition) (kind : Kind) (payload : Payload)
  | poll (p : Partition) (maxBatch : Nat)
  /-- The consumer of the partition acknowledges a batch. -/
  | acknowledge (p : Partition) (b : Bounds)
  /-- The next acknowledgment is told to fail. -/
  | failNext

/-- The partition that an operation is on. -/
def Operation.partition? : Operation → Option Partition
  | append p _ _ => some p
  | poll p _ => some p
  | acknowledge p _ => some p
  | failNext => none

/-- What an operation appends to a partition, if it does. -/
def Operation.appends? (op : Operation) (q : Partition) : Option (Kind × Payload) :=
  match op with
  | append p kind payload => if q = p then some (kind, payload) else none
  | poll _ _ | acknowledge _ _ | failNext => none

/-- The log after an operation. -/
def after (log : EventLog) : Operation → EventLog
  | .append p kind payload => log.append p kind payload
  | .poll _ _ => log
  | .acknowledge p b => (log.acknowledgeAs p b).1
  | .failNext => { log with failNext := true }

/-- The log after some operations. -/
def afterAll (log : EventLog) (ops : List Operation) : EventLog := ops.foldl after log

variable {log : EventLog} {p q : Partition} {b : Bounds}

/-! ### One operation -/

/-- An acknowledgment by the consumer of a partition is accepted, if the log has its offset, and
else fails and changes nothing but that the log is no longer told to refuse. -/
theorem acknowledgeAs_cases (log : EventLog) (p : Partition) (b : Bounds) :
  (∃ e, log.acknowledgeAs p b = (log, .error e)) ∨
    (log.failNext = true
      ∧ ∃ e, log.acknowledgeAs p b = ({ log with failNext := false }, .error e)) ∨
    ∃ l, log.partitions.get? p = some l ∧ b.last < l.records.length ∧ log.acknowledgeAs p b
      = ({ log with partitions := log.partitions.insert p (l.acknowledge b.last) }, .ok ())
  := by
  rw [acknowledgeAs]
  split
  · next hp =>
      rw [acknowledge, hp]
      split
      · next hfail => exact .inr (.inl ⟨hfail, _, rfl⟩)
      · cases hl : log.partitions.get? p with
        | none => exact .inl ⟨_, rfl⟩
        | some l =>
            dsimp only
            split
            · next hlast => exact .inr (.inr ⟨l, rfl, hlast, rfl⟩)
            · exact .inl ⟨_, rfl⟩
  · exact .inl ⟨_, rfl⟩

/-- An operation on one partition leaves all others as they are. -/
theorem get?_after {op : Operation} (hq : op.partition? ≠ some q) :
  (log.after op).partitions.get? q = log.partitions.get? q
  := by
  have hne : ∀ p, op.partition? = some p → q ≠ p := by
    rintro p hp rfl
    exact hq hp
  cases op with
  | append p kind payload =>
      rw [after, append, Table.get?_insert, if_neg (hne p rfl)]
  | poll => rfl
  | acknowledge p b =>
      rw [after]
      rcases log.acknowledgeAs_cases p b with ⟨e, heq⟩ | ⟨-, e, heq⟩ | ⟨l, -, -, heq⟩
      · rw [heq]
      · rw [heq]
      · rw [heq, Table.get?_insert, if_neg (hne p rfl)]
  | failNext => rfl

/-- An operation keeps a log sound. -/
theorem Sound.after (h : log.Sound) (op : Operation) :
  (log.after op).Sound
  := by
  cases op with
  | append p kind payload => exact h.append p kind payload
  | poll => exact h
  | acknowledge p b =>
      rw [EventLog.after, acknowledgeAs]
      split
      · exact h.acknowledge b
      · exact h
  | failNext => exact h.congr rfl

/-- What was acknowledged, or more, stays acknowledged. -/
def Remembers (log log' : EventLog) (p : Partition) : Prop :=
  ∀ n ∈ log.acknowledged p, ∃ n' ∈ log'.acknowledged p, n ≤ n'

theorem Remembers.refl (log : EventLog) (p : Partition) :
  log.Remembers log p
  := fun n hn => ⟨n, hn, Nat.le_refl n⟩

theorem Remembers.trans {log' log'' : EventLog} (h : log.Remembers log' p)
    (h' : log'.Remembers log'' p) :
  log.Remembers log'' p
  := by
  intro n hn
  obtain ⟨n', hn', hle⟩ := h n hn
  obtain ⟨n'', hn'', hle'⟩ := h' n' hn'
  exact ⟨n'', hn'', Nat.le_trans hle hle'⟩

/-- A partition that stays as it is forgets nothing. -/
theorem Remembers.of_get? {log' : EventLog}
    (h : log'.partitions.get? p = log.partitions.get? p) :
  log.Remembers log' p
  := by
  intro n hn
  refine ⟨n, ?_, Nat.le_refl n⟩
  rwa [acknowledged, partition, h]

/-- No operation makes a partition forget what is acknowledged. -/
theorem remembers_after (log : EventLog) (op : Operation) (q : Partition) :
  log.Remembers (log.after op) q
  := by
  by_cases hq : op.partition? = some q
  · cases op with
    | append p kind payload =>
        obtain rfl : p = q := Option.some.inj hq
        intro n hn
        refine ⟨n, ?_, Nat.le_refl n⟩
        rwa [acknowledged, after, append, partition_insert, if_pos rfl]
    | poll => exact .refl log q
    | acknowledge p b =>
        obtain rfl : p = q := Option.some.inj hq
        rw [after]
        rcases log.acknowledgeAs_cases p b with ⟨e, heq⟩ | ⟨-, e, heq⟩ | ⟨l, hl, -, heq⟩
        · rw [heq]
          exact .refl log p
        · rw [heq]
          exact .of_get? rfl
        · rw [heq]
          intro n hn
          rw [acknowledged, partition, hl, Option.getD_some] at hn
          rw [acknowledged, partition_insert, if_pos rfl, PartitionLog.acknowledge, hn]
          exact ⟨_, rfl, Nat.le_max_left n b.last⟩
    | failNext => cases hq
  · exact .of_get? (get?_after hq)

/-- The records of a partition after an operation: only what is appended to it comes to them, at the
next offset. -/
theorem records_after (log : EventLog) (op : Operation) (q : Partition) :
  ((log.after op).partition q).records = (log.partition q).records ++
    ((op.appends? q).map fun x => ⟨x.1, x.2, q, (log.partition q).records.length⟩).toList
  := by
  cases op with
  | append p kind payload =>
      rw [after, records_append, Operation.appends?]
      split
      · next hq =>
          subst hq
          rfl
      · rfl
  | poll => exact (List.append_nil _).symm
  | acknowledge p b =>
      rw [after, Operation.appends?, Option.map_none, Option.toList_none, List.append_nil]
      rcases log.acknowledgeAs_cases p b with ⟨e, heq⟩ | ⟨-, e, heq⟩ | ⟨l, hl, -, heq⟩
      · rw [heq]
      · rw [heq]
        rfl
      · rw [heq]
        exact (advances_acknowledge hl b.last).records q
  | failNext => exact (List.append_nil _).symm

/-- A partition is known from the first record that is appended to it. -/
theorem mem_keys_after (log : EventLog) (op : Operation) (q : Partition) :
  q ∈ (log.after op).partitions.keys ↔ q ∈ log.partitions.keys ∨ op.appends? q ≠ none
  := by
  have hinsert : ∀ (p : Partition) (l : PartitionLog),
      q ∈ (log.partitions.insert p l).keys ↔ q ∈ log.partitions.keys ∨ q = p := by
    intro p l
    rw [Table.mem_keys_iff, Table.get?_insert, Table.mem_keys_iff]
    split
    · next hq => simp [hq]
    · next hq => simp [hq]
  cases op with
  | append p kind payload =>
      rw [after, append, hinsert, Operation.appends?]
      simp
  | poll => simp [after, Operation.appends?]
  | acknowledge p b =>
      rw [after]
      rcases log.acknowledgeAs_cases p b with ⟨e, heq⟩ | ⟨-, e, heq⟩ | ⟨l, hl, -, heq⟩
      · simp [heq, Operation.appends?]
      · simp [heq, Operation.appends?]
      · have hp : p ∈ log.partitions.keys := Table.mem_keys_iff.mpr ⟨l, hl⟩
        rw [heq, hinsert]
        simp only [Operation.appends?, ne_eq, not_true_eq_false, or_false, or_iff_left_iff_imp]
        rintro rfl
        exact hp
  | failNext => simp [after, Operation.appends?]

/-! ### Many operations -/

/-- What some operations append to a partition, in their order. -/
def appended (p : Partition) (ops : List Operation) : List (Kind × Payload) :=
  ops.filterMap (·.appends? p)

theorem afterAll_concat (log : EventLog) (ops : List Operation) (op : Operation) :
  log.afterAll (ops ++ [op]) = (log.afterAll ops).after op
  := List.foldl_concat ..

theorem appended_concat (p : Partition) (ops : List Operation) (op : Operation) :
  appended p (ops ++ [op]) = appended p ops ++ (op.appends? p).toList
  := by
  rw [appended, List.filterMap_append, List.filterMap_cons, appended]
  cases op.appends? p with
  | none => rfl
  | some x => rfl

/-- The records of a partition are those that were appended to it, at the offsets from zero on. -/
theorem records_afterAll (ops : List Operation) (p : Partition) :
  ((afterAll {} ops).partition p).records
    = (appended p ops).mapIdx fun n x => ⟨x.1, x.2, p, n⟩
  := by
  induction ops using List.reverseRecOn with
  | nil => rfl
  | append_singleton ops op ih =>
      rw [afterAll_concat, records_after, appended_concat, ih, List.length_mapIdx]
      cases op.appends? p with
      | none => rw [Option.map_none, Option.toList_none, Option.toList_none, List.append_nil,
          List.append_nil]
      | some x => exact List.mapIdx_concat.symm

/-- The partitions known are those to which something was appended. -/
theorem mem_keys_afterAll (ops : List Operation) (p : Partition) :
  p ∈ (afterAll {} ops).partitions.keys ↔ appended p ops ≠ []
  := by
  induction ops using List.reverseRecOn with
  | nil => exact iff_of_false List.not_mem_nil (not_not_intro rfl)
  | append_singleton ops op ih =>
      rw [afterAll_concat, mem_keys_after, ih, appended_concat]
      simp only [ne_eq, List.append_eq_nil_iff, Option.toList_eq_nil_iff, not_and_or]

theorem sound_afterAll (ops : List Operation) :
  (afterAll {} ops).Sound
  := by
  induction ops using List.reverseRecOn with
  | nil => exact sound_of_empty fun _ => rfl
  | append_singleton ops op ih =>
      rw [afterAll_concat]
      exact ih.after op

theorem remembers_afterAll (log : EventLog) (ops : List Operation) (p : Partition) :
  log.Remembers (log.afterAll ops) p
  := by
  induction ops using List.reverseRecOn with
  | nil => exact .refl log p
  | append_singleton ops op ih =>
      rw [afterAll_concat]
      exact ih.trans (remembers_after _ op p)

/-- A partition is in order: its records are those given at the offsets from zero on, what is
acknowledged is there, and the records from the first pending one on make up the rest. -/
structure InOrder (log : EventLog) (p : Partition) (xs : List (Kind × Payload)) : Prop where
  records : (log.partition p).records = xs.mapIdx fun n x => ⟨x.1, x.2, p, n⟩
  length : log.nextOffset p = xs.length
  known : p ∈ log.partitions.keys ↔ xs ≠ []
  acknowledged : ∀ n ∈ log.acknowledged p, n < log.nextOffset p
  pending : (log.partition p).firstPending + log.lag p = log.nextOffset p
  latest : ∀ n, log.latestOffset p = some n ↔ ∃ m, log.acknowledged p = some m ∧ n = m + 1
  polls : p ∈ log.partitions.keys → ∀ maxBatch, ∃ rs, log.poll p maxBatch = .ok rs ∧
    rs <+: (log.partition p).records.drop (log.partition p).firstPending ∧
    rs.length = min (log.lag p) (max maxBatch 1) ∧ (rs = [] ↔ log.lag p = 0)

/-- The pending records of a partition that is known are polled from the first one on. -/
theorem exists_poll (h : p ∈ log.partitions.keys) (maxBatch : Nat) :
  ∃ rs, log.poll p maxBatch = .ok rs ∧ rs <+: log.remaining p ∧
    rs.length = min (log.lag p) (max maxBatch 1) ∧ (rs = [] ↔ log.lag p = 0)
  := by
  have hlength : ((log.remaining p).take (max maxBatch 1)).length
      = min (log.lag p) (max maxBatch 1) := by
    rw [List.length_take, log.lag_eq, Nat.min_comm]
  refine ⟨_, log.poll_eq h maxBatch, List.take_prefix _ _, hlength, ?_⟩
  rw [← List.length_eq_zero_iff, hlength]
  omega

/-- In a sound log, a partition that has the records given is in order. -/
theorem Sound.inOrder (h : log.Sound) {xs : List (Kind × Payload)}
    (hrecords : (log.partition p).records = xs.mapIdx fun n x => ⟨x.1, x.2, p, n⟩)
    (hknown : p ∈ log.partitions.keys ↔ xs ≠ []) :
  log.InOrder p xs
  := by
  have hbound : (log.partition p).firstPending ≤ (log.partition p).records.length := h.bounded p
  constructor
  · exact hrecords
  · rw [nextOffset, hrecords, List.length_mapIdx]
  · exact hknown
  · intro n hn
    rw [PartitionLog.firstPending, show (log.partition p).acknowledged = some n from hn] at hbound
    exact hbound
  · rw [lag, PartitionLog.lag, nextOffset]
    omega
  · intro n
    rw [latestOffset, Option.map_eq_some_iff]
    simp only [eq_comm]
  · exact exists_poll

/-- After any operations on an empty log, with any consumers, bounds and failures: every partition
is in order, with the records that were appended to it; whatever is done next, what is acknowledged
stays so; an operation on one partition leaves all others as they are; and an acknowledgment that
fails changes nothing but that the log, if it was told to refuse, no longer is. -/
theorem in_order_afterAll (ops : List Operation) (p : Partition) :
  (afterAll {} ops).InOrder p (appended p ops) ∧
    (∀ more, (afterAll {} ops).Remembers (afterAll {} (ops ++ more)) p) ∧
    (∀ op, op.partition? ≠ some p →
      ((afterAll {} ops).after op).partitions.get? p = (afterAll {} ops).partitions.get? p) ∧
    ∀ b e log', (afterAll {} ops).acknowledgeAs p b = (log', .error e) →
      log' = afterAll {} ops ∨
        (afterAll {} ops).failNext = true ∧ log' = { afterAll {} ops with failNext := false }
  := by
  refine ⟨?_, ?_, ?_, ?_⟩
  · exact (sound_afterAll ops).inOrder (records_afterAll ops p) (mem_keys_afterAll ops p)
  · intro more
    rw [afterAll, afterAll, List.foldl_append]
    exact remembers_afterAll _ more p
  · exact fun op hop => get?_after hop
  · intro b e log' heq
    rcases (afterAll {} ops).acknowledgeAs_cases p b with ⟨e', heq'⟩ | ⟨hfail, e', heq'⟩ |
      ⟨l, -, -, heq'⟩
    · exact .inl (Prod.mk.inj (heq.symm.trans heq')).1
    · exact .inr ⟨hfail, (Prod.mk.inj (heq.symm.trans heq')).1⟩
    · cases (Prod.mk.inj (heq.symm.trans heq')).2

end EventLog

end ChainLedger
