import ChainLedger.EventLog
import ChainLedger.Proofs.Plan

/-!
# Polling the log

The records of a partition that count for a row are those acknowledged, and those up to the
position of the row if that lies in the partition.  A polled batch goes on from the first
record that is not acknowledged, so what is pending for a row are the deltas from the first
record that does not count to the end of the batch.
-/

namespace ChainLedger

/-- What some deltas add up to. -/
def Delta.total (ds : List Delta) : Totals := (ds.map (·.change)).sum

/-- The number of records of a partition up to the position of the row. -/
def Row.reach (p : Partition) (row? : Option Row) : Nat :=
  match row? with
  | some row => if row.source.partition = p then row.source.offset + 1 else 0
  | none => 0

/-- A position is beyond the reach of a row exactly if the row does not reflect it. -/
theorem Row.reach_le_iff {p : Partition} {q : Position} (hq : q.partition = p)
    {row? : Option Row} :
  Row.reach p row? ≤ q.offset ↔ ∀ row ∈ row?, ¬ row.Reflects q
  := by
  cases row? with
  | none => simp [Row.reach]
  | some row =>
      simp only [Row.reach, Option.mem_some_iff, forall_eq', Row.Reflects, Row.SameOrigin, hq]
      split
      · next hsame =>
          simp only [hsame, true_and]
          omega
      · next hsame => simp only [hsame, false_and, not_false_iff, Nat.zero_le]

/-- The deltas of either of two conditions that exclude each other add up to what those of
each add up to. -/
theorem Delta.total_filter_add {ds : List Delta} {P Q R : Delta → Prop} [DecidablePred P]
    [DecidablePred Q] [DecidablePred R] (hR : ∀ d ∈ ds, R d ↔ P d ∨ Q d)
    (hexclude : ∀ d ∈ ds, P d → ¬ Q d) :
  total (ds.filter R) = total (ds.filter P) + total (ds.filter Q)
  := by
  induction ds with
  | nil => rfl
  | cons d ds ih =>
      have hrest := ih (fun d' hd' => hR d' (.tail _ hd')) fun d' hd' => hexclude d' (.tail _ hd')
      have hd := hR d (.head _)
      by_cases hP : P d
      · have hQ := hexclude d (.head _) hP
        simp only [List.filter_cons, hd, hP, hQ, or_false, decide_true, decide_false, if_true,
          Bool.false_eq_true, if_false, total, List.map_cons, List.sum_cons]
        rw [add_assoc]
        apply congrArg _ hrest
      · by_cases hQ : Q d
        · simp only [List.filter_cons, hd, hP, hQ, false_or, decide_true, decide_false, if_true,
            Bool.false_eq_true, if_false, total, List.map_cons, List.sum_cons]
          rw [add_left_comm]
          apply congrArg _ hrest
        · simp only [List.filter_cons, hd, hP, hQ, or_false, decide_false, Bool.false_eq_true,
            if_false]
          apply hrest

/-- After an acknowledgment, what is pending starts behind it, and no earlier than before. -/
theorem PartitionLog.firstPending_acknowledge (l : PartitionLog) (n : Nat) :
  (l.acknowledge n).firstPending = max l.firstPending (n + 1)
  := by
  rw [acknowledge, firstPending, firstPending]
  cases l.acknowledged with
  | none => simp
  | some old =>
      dsimp only
      omega

namespace EventLog

/-- The number of records of a partition that count for the row. -/
def counted (log : EventLog) (row? : Option Row) (p : Partition) : Nat :=
  max (log.partition p).firstPending (Row.reach p row?)

/-- The changes to an address by the first `n` records of a partition. -/
def changes (log : EventLog) (key : Address) (p : Partition) (n : Nat) : Totals :=
  Delta.total ((((log.partition p).records.take n).flatMap Record.deltas).filter (·.key = key))

/-- Every record is at its position, and what is acknowledged is there. -/
structure Sound (log : EventLog) : Prop where
  placed : ∀ p n (r : Record), (log.partition p).records[n]? = some r → r.position = ⟨p, n⟩
  bounded : ∀ p, (log.partition p).firstPending ≤ (log.partition p).records.length

variable {log : EventLog} {key : Address} {row? : Option Row} {p : Partition}
  {rs : List Record} {b : Batch}

/-! ### Changes by offset -/

/-- All deltas of a partition. -/
def deltas (log : EventLog) (p : Partition) : List Delta :=
  (log.partition p).records.flatMap Record.deltas

theorem Sound.source_of_mem_take (h : log.Sound) {n : Nat} {d : Delta}
    (hd : d ∈ ((log.partition p).records.take n).flatMap Record.deltas) :
  d.source.partition = p ∧ d.source.offset < n
  := by
  obtain ⟨r, hr, hd⟩ := List.mem_flatMap.mp hd
  obtain ⟨i, hi, rfl⟩ := List.mem_take_iff_getElem.mp hr
  rw [Record.source_of_mem_deltas hd, h.placed p i _ (List.getElem?_eq_getElem _)]
  exact ⟨rfl, by dsimp only; omega⟩

theorem Sound.source_of_mem_drop (h : log.Sound) {n : Nat} {d : Delta}
    (hd : d ∈ ((log.partition p).records.drop n).flatMap Record.deltas) :
  d.source.partition = p ∧ n ≤ d.source.offset
  := by
  obtain ⟨r, hr, hd⟩ := List.mem_flatMap.mp hd
  obtain ⟨i, hi, rfl⟩ := List.mem_drop_iff_getElem.mp hr
  rw [Record.source_of_mem_deltas hd, h.placed p (n + i) _ (List.getElem?_eq_getElem _)]
  exact ⟨rfl, by dsimp only; omega⟩

/-- The deltas of the first records are those of the lower offsets. -/
theorem Sound.flatMap_take (h : log.Sound) (p : Partition) (n : Nat) :
  ((log.partition p).records.take n).flatMap Record.deltas
    = (log.deltas p).filter (·.source.offset < n)
  := by
  conv_rhs => rw [deltas, ← List.take_append_drop n (log.partition p).records]
  rw [List.flatMap_append, List.filter_append, List.filter_eq_self.mpr,
    List.filter_eq_nil_iff.mpr, List.append_nil]
  · intro d hd
    have hle := (h.source_of_mem_drop hd).2
    simp only [decide_eq_true_eq]
    omega
  · intro d hd
    have hlt := (h.source_of_mem_take hd).2
    simp only [decide_eq_true_eq]
    omega

/-- The deltas of the first records after some others are those of the offsets between. -/
theorem Sound.flatMap_drop_take (h : log.Sound) (p : Partition) (m n : Nat) :
  (((log.partition p).records.take n).drop m).flatMap Record.deltas
    = (log.deltas p).filter fun d => m ≤ d.source.offset ∧ d.source.offset < n
  := by
  have hfront : ((log.partition p).records.take n).take m = (log.partition p).records.take (min m n)
    := List.take_take
  have hsplit : (((log.partition p).records.take n).flatMap Record.deltas).filter
        (fun d => m ≤ d.source.offset)
      = (((log.partition p).records.take n).drop m).flatMap Record.deltas := by
    conv_lhs => rw [← List.take_append_drop m ((log.partition p).records.take n)]
    rw [hfront, List.flatMap_append, List.filter_append, List.filter_eq_nil_iff.mpr,
      List.filter_eq_self.mpr, List.nil_append]
    · intro d hd
      rw [List.drop_take] at hd
      obtain ⟨r, hr, hd⟩ := List.mem_flatMap.mp hd
      have hle := h.source_of_mem_drop
        (List.mem_flatMap.mpr ⟨r, List.mem_of_mem_take hr, hd⟩)
      simpa using hle.2
    · intro d hd
      have hlt := (h.source_of_mem_take hd).2
      simp only [decide_eq_true_eq]
      omega
  rw [← hsplit, h.flatMap_take, List.filter_filter]
  simp only [Bool.decide_and]

/-- The changes by the first records are those of the deltas of lower offsets. -/
theorem Sound.changes_eq (h : log.Sound) (key : Address) (p : Partition) (n : Nat) :
  log.changes key p n
    = Delta.total ((log.deltas p).filter fun d => d.key = key ∧ d.source.offset < n)
  := by
  rw [changes, h.flatMap_take, List.filter_filter]
  simp only [Bool.decide_and]

/-- Of records that are those of some offsets, what is pending for a row are the deltas of
the address from the first offset that the row does not reach. -/
theorem Sound.pendingFor_perm (hlog : log.Sound) (hb : b.Collects rs) {m n : Nat}
    (hdeltas : rs.flatMap Record.deltas
      = (log.deltas p).filter fun d => m ≤ d.source.offset ∧ d.source.offset < n)
    (key : Address) (row? : Option Row) :
  (b.pendingFor key row?).Perm ((log.deltas p).filter fun d => d.key = key ∧
    max m (Row.reach p row?) ≤ d.source.offset ∧ d.source.offset < n)
  := by
  have hperm : b.deltas.Perm (rs.flatMap Record.deltas) := hb.perm.flatMap_right _
  rw [Batch.pendingFor, Merge.pending]
  apply ((hperm.filter _).filter _).trans
  rw [hdeltas, List.filter_filter, List.filter_filter]
  apply List.Perm.of_eq
  apply List.filter_congr
  intro d hd
  have hpartition := (hlog.source_of_mem_drop (n := 0) hd).1
  simp only [← Bool.decide_and, decide_eq_decide]
  rw [← Row.reach_le_iff hpartition]
  constructor
  · rintro ⟨⟨hnew, hkey⟩, hfirst, hlast⟩
    refine ⟨hkey, ?_, hlast⟩
    omega
  · rintro ⟨hkey, hnew, hlast⟩
    refine ⟨⟨?_, hkey⟩, ?_, hlast⟩
    · omega
    · omega

/-! ### Polled batches -/

/-- The batch is the next one of a partition: its records are those from the first pending
one to the last of the batch. -/
structure Polled (log : EventLog) (p : Partition) (rs : List Record) (b : Batch) : Prop where
  collects : b.Collects rs
  partition : b.bounds.partition = p
  known : p ∈ log.partitions.keys
  first : (log.partition p).firstPending ≤ b.bounds.last
  last : b.bounds.last < (log.partition p).records.length
  deltas : rs.flatMap Record.deltas = (log.deltas p).filter fun d =>
    (log.partition p).firstPending ≤ d.source.offset ∧ d.source.offset < b.bounds.last + 1

/-- A poll of a partition that is there delivers records from the first pending one on. -/
theorem poll_eq_ok_iff {maxBatch : Nat} :
  log.poll p maxBatch = .ok rs
    ↔ p ∈ log.partitions.keys ∧ rs = (log.partition p).pending (max maxBatch 1)
  := by
  rw [poll, Table.mem_keys_iff, EventLog.partition]
  cases log.partitions.get? p with
  | none => simp
  | some l => simp [eq_comm]

/-- The records of a poll are at the positions from the first pending one on. -/
theorem Sound.position_of_poll (h : log.Sound) {maxBatch : Nat}
    (hpoll : log.poll p maxBatch = .ok rs) {i : Nat} (hi : i < rs.length) :
  rs[i].position = ⟨p, (log.partition p).firstPending + i⟩
  := by
  obtain ⟨-, hrecords⟩ := poll_eq_ok_iff.mp hpoll
  apply h.placed
  have hr := List.getElem?_eq_getElem hi
  conv_lhs at hr => rw [hrecords, PartitionLog.pending]
  rw [List.getElem?_take] at hr
  split at hr
  · rwa [List.getElem?_drop] at hr
  · cases hr

/-- The last record of a polled batch is as far from the first pending one as it has records. -/
theorem Sound.last_of_poll (h : log.Sound) {maxBatch : Nat} (hpoll : log.poll p maxBatch = .ok rs)
    (hrs : Batch.ofRecords rs = .ok (some b)) :
  b.bounds.last + 1 = (log.partition p).firstPending + rs.length
  := by
  have hoffset : ∀ (i : Nat) (hi : i < rs.length),
      rs[i].offset = (log.partition p).firstPending + i :=
    fun i hi => congrArg Position.offset (h.position_of_poll hpoll hi)
  obtain ⟨hlast, hle⟩ := (Batch.collects_of_ofRecords hrs).last
  obtain ⟨r, hr, hlast⟩ := List.mem_map.mp hlast
  obtain ⟨i, hi, rfl⟩ := List.mem_iff_getElem.mp hr
  -- the greatest offset is that of the record at the end
  have hend := hle _ (List.getElem_mem (show rs.length - 1 < rs.length by omega))
  rw [hoffset] at hend hlast
  omega

/-- The records that a poll delivers amount to the next batch. -/
theorem Sound.polled (h : log.Sound) {maxBatch : Nat} (hpoll : log.poll p maxBatch = .ok rs)
    (hrs : Batch.ofRecords rs = .ok (some b)) :
  log.Polled p rs b
  := by
  have hb := Batch.collects_of_ofRecords hrs
  obtain ⟨hknown, hrecords⟩ := poll_eq_ok_iff.mp hpoll
  rw [PartitionLog.pending] at hrecords
  have hlength := h.last_of_poll hpoll hrs
  obtain ⟨r, hr, -⟩ := List.mem_map.mp hb.last.1
  obtain ⟨i, hi, rfl⟩ := List.mem_iff_getElem.mp hr
  have hcut : rs = ((log.partition p).records.take (b.bounds.last + 1)).drop
      (log.partition p).firstPending := by
    rw [hlength, List.drop_take, Nat.add_sub_cancel_left]
    conv_rhs => rw [hrecords, List.length_take, ← List.take_eq_take_min]
    apply hrecords
  constructor
  · apply hb
  · rw [← hb.partition _ hr]
    apply congrArg Position.partition (h.position_of_poll hpoll hi)
  · apply hknown
  · omega
  · have hbound : rs.length ≤ (log.partition p).records.length - (log.partition p).firstPending := by
      conv_lhs => rw [hrecords, List.length_take, List.length_drop]
      apply Nat.min_le_right
    omega
  · conv_lhs => rw [hcut]
    apply h.flatMap_drop_take

/-- If records are pending, a poll delivers a batch. -/
theorem Sound.exists_polled (h : log.Sound) (hlag : 0 < log.lag p) (maxBatch : Nat) :
  ∃ rs b, log.poll p maxBatch = .ok rs ∧ Batch.ofRecords rs = .ok (some b)
  := by
  have hlag : 0 < (log.partition p).records.length - (log.partition p).firstPending := hlag
  have hknown : p ∈ log.partitions.keys := by
    apply Table.mem_keys_iff.mpr
    cases hl : log.partitions.get? p with
    | none =>
        rw [EventLog.partition, hl, Option.getD_none] at hlag
        cases hlag
    | some l => exact ⟨l, rfl⟩
  have hpoll : log.poll p maxBatch = .ok _ := poll_eq_ok_iff.mpr ⟨hknown, rfl⟩
  have hsame : ∀ r ∈ (log.partition p).pending (max maxBatch 1), r.partition = p := by
    intro r hr
    obtain ⟨i, hi, rfl⟩ := List.mem_iff_getElem.mp hr
    apply congrArg Position.partition (h.position_of_poll hpoll hi)
  have hne : (log.partition p).pending (max maxBatch 1) ≠ [] := by
    intro hnil
    have hlength := congrArg List.length hnil
    rw [PartitionLog.pending, List.length_take, List.length_drop, List.length_nil] at hlength
    omega
  obtain ⟨b, hb⟩ := Batch.exists_ofRecords hne hsame
  exact ⟨_, b, hpoll, hb⟩

/-- What is pending for a row are the deltas of the address from the first one that does
not count to the end of the batch. -/
theorem Polled.pendingFor_perm (h : log.Polled p rs b) (hlog : log.Sound) (key : Address)
    (row? : Option Row) :
  (b.pendingFor key row?).Perm ((log.deltas p).filter fun d => d.key = key ∧
    log.counted row? p ≤ d.source.offset ∧ d.source.offset < b.bounds.last + 1)
  := hlog.pendingFor_perm h.collects h.deltas key row?

/-- The records that count, with those of the batch, change an address by what is pending
more than those that count. -/
theorem Polled.changes_all (h : log.Polled p rs b) (hlog : log.Sound) (key : Address)
    (row? : Option Row) :
  log.changes key p (max (log.counted row? p) (b.bounds.last + 1))
    = log.changes key p (log.counted row? p) + Delta.total (b.pendingFor key row?)
  := by
  have hpending : Delta.total (b.pendingFor key row?) = Delta.total _ :=
    ((h.pendingFor_perm hlog key row?).map _).sum_eq
  rw [hpending, hlog.changes_eq, hlog.changes_eq]
  apply Delta.total_filter_add
  · intro d _
    by_cases hkey : d.key = key
    · simp only [hkey, true_and]
      omega
    · simp only [hkey, false_and, or_false]
  · rintro d _ ⟨-, hlt⟩ ⟨-, hle, -⟩
    omega

/-- The records that count for a row that the batch has written change the address by the
delta applied more than those that counted before. -/
theorem Polled.changes_written (h : log.Polled p rs b) (hlog : log.Sound) {d : Delta}
    (hd : b.toApply key row? = some d) :
  log.changes key p (max (log.partition p).firstPending (d.source.offset + 1))
    = log.changes key p (log.counted row? p) + d.change
  := by
  have hperm := h.pendingFor_perm hlog key row?
  obtain ⟨rfl, hne⟩ := Batch.eq_whole_of_toApply hd
  let offset := greatest ((b.pendingFor key row?).map (·.source.offset))
  have hchange : (Merge.whole key b.bounds.partition (b.pendingFor key row?)).change
      = Delta.total _ := (hperm.map _).sum_eq
  have hgreatest : offset ∈ (b.pendingFor key row?).map (·.source.offset) :=
    greatest_mem (List.map_eq_nil_iff.not.mpr hne)
  obtain ⟨d₀, hd₀, hoffset⟩ := List.mem_map.mp hgreatest
  have hbetween := List.mem_filter.mp (hperm.mem_iff.mp hd₀)
  simp only [decide_eq_true_eq, hoffset] at hbetween
  obtain ⟨-, -, hcounted, hlast⟩ := hbetween
  have hfirst := h.first
  rw [hchange, hlog.changes_eq, hlog.changes_eq]
  change Delta.total ((log.deltas p).filter fun d => d.key = key ∧
    d.source.offset < max _ (offset + 1)) = _
  apply Delta.total_filter_add
  · intro d hd
    constructor
    · rintro ⟨hkey, hlt⟩
      by_cases hbefore : d.source.offset < log.counted row? p
      · apply Or.inl ⟨hkey, hbefore⟩
      · apply Or.inr ⟨hkey, Nat.le_of_not_lt hbefore, by omega⟩
    · rintro (⟨hkey, hlt⟩ | hpending)
      · refine ⟨hkey, ?_⟩
        rw [counted] at hlt hcounted
        omega
      · have hmem : d ∈ b.pendingFor key row? :=
          hperm.mem_iff.mpr (List.mem_filter.mpr ⟨hd, by simpa using hpending⟩)
        have hle : d.source.offset ≤ offset := le_greatest (List.mem_map_of_mem hmem)
        refine ⟨hpending.1, ?_⟩
        omega
  · rintro d _ ⟨-, hlt⟩ ⟨-, hle, -⟩
    omega

/-! ### Acknowledgments -/

/-- What comes before the first pending offset is acknowledged. -/
theorem exists_acknowledged {n : Nat} (h : n < (log.partition p).firstPending) :
  ∃ m, log.acknowledged p = some m ∧ n ≤ m
  := by
  rw [PartitionLog.firstPending] at h
  rw [EventLog.acknowledged]
  cases hold : (log.partition p).acknowledged with
  | none =>
      rw [hold] at h
      cases h
  | some m =>
      rw [hold] at h
      exact ⟨m, rfl, Nat.le_of_lt_succ h⟩

/-- Another log has the same records, and those of one partition are acknowledged before an
offset. -/
structure Advances (log log' : EventLog) (p : Partition) (n : Nat) : Prop where
  records : ∀ q, (log'.partition q).records = (log.partition q).records
  here : (log'.partition p).firstPending = n
  elsewhere : ∀ q ≠ p, (log'.partition q).firstPending = (log.partition q).firstPending
  keys : log'.partitions.keys.Perm log.partitions.keys

theorem partition_insert (log : EventLog) (p : Partition) (l : PartitionLog) (q : Partition) :
  ({ log with partitions := log.partitions.insert p l } : EventLog).partition q
    = if q = p then l else log.partition q
  := by
  rw [EventLog.partition, Table.get?_insert]
  split
  · rfl
  · rfl

/-- A log advances when an offset of a partition that it knows is acknowledged. -/
theorem advances_acknowledge {l : PartitionLog} (hl : log.partitions.get? p = some l) (n : Nat) :
  log.Advances { log with partitions := log.partitions.insert p (l.acknowledge n) } p
    (max (log.partition p).firstPending (n + 1))
  := by
  have hpartition : log.partition p = l := by rw [EventLog.partition, hl, Option.getD_some]
  constructor
  · intro q
    rw [partition_insert]
    split
    · next hq =>
        rw [hq, hpartition]
        rfl
    · rfl
  · rw [partition_insert, if_pos rfl, hpartition]
    apply PartitionLog.firstPending_acknowledge
  · intro q hq
    rw [partition_insert, if_neg hq]
  · apply Table.keys_insert_of_mem (Table.mem_keys_iff.mpr ⟨l, hl⟩)

/-- The log accepts the acknowledgment of a polled batch. -/
theorem Polled.of_acknowledge (h : log.Polled p rs b) (hfail : log.failNext = false) :
  (log.acknowledgeAs p b.bounds).2 = .ok ()
    ∧ log.Advances (log.acknowledgeAs p b.bounds).1 p (b.bounds.last + 1)
  := by
  obtain ⟨l, hl⟩ := Table.mem_keys_iff.mp h.known
  have hadvances := advances_acknowledge hl b.bounds.last
  have hlast := h.last
  have haccepts : ¬ log.failNext = true := by rw [hfail]; exact Bool.false_ne_true
  rw [Nat.max_eq_right (Nat.le_succ_of_le h.first)] at hadvances
  rw [EventLog.partition, hl, Option.getD_some] at hlast
  rw [acknowledgeAs, if_pos h.partition, acknowledge, if_neg haccepts, h.partition, hl]
  dsimp only
  rw [if_pos hlast]
  exact ⟨rfl, hadvances⟩

/-- An acknowledgment is refused and leaves the partitions, or it is accepted and what is
acknowledged is there. -/
theorem acknowledge_cases (log : EventLog) (b : Bounds) :
  (log.acknowledge b).2 ≠ .ok () ∧ (log.acknowledge b).1.partitions = log.partitions ∨
    (log.acknowledge b).2 = .ok () ∧ b.last < (log.partition b.partition).records.length ∧
      log.Advances (log.acknowledge b).1 b.partition
        (max (log.partition b.partition).firstPending (b.last + 1))
  := by
  have hrefused : ∀ e : LogError, Except.error e ≠ .ok () := by
    rintro e ⟨⟩
  rw [acknowledge]
  split
  · exact .inl ⟨hrefused _, rfl⟩
  · cases hl : log.partitions.get? b.partition with
    | none => exact .inl ⟨hrefused _, rfl⟩
    | some l =>
        dsimp only
        split
        · next hlast =>
            refine .inr ⟨rfl, ?_, advances_acknowledge hl b.last⟩
            rwa [EventLog.partition, hl, Option.getD_some]
        · exact .inl ⟨hrefused _, rfl⟩

/-- A log that was told to refuse an acknowledgment refuses it, and keeps its partitions. -/
theorem Polled.of_acknowledge_failing (h : log.Polled p rs b) (hfail : log.failNext = true) :
  (log.acknowledgeAs p b.bounds).2 ≠ .ok ()
    ∧ (log.acknowledgeAs p b.bounds).1.partitions = log.partitions
  := by
  rw [acknowledgeAs, if_pos h.partition, acknowledge, hfail, if_pos rfl]
  constructor
  · rintro ⟨⟩
  · rfl

end EventLog

end ChainLedger
