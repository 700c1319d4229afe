import ChainLedger.Proofs.Course
import ChainLedger.Proofs.Feeding

/-!
# Rewinding delivery

A partition whose records are delivered in ranges that may start anywhere before the first
record not delivered yet.  What a row counts is what the records up to its position have
changed, except for those that were skipped: records behind the row that lie before the range
when it is written.  A row that keeps up skips nothing.  But an address whose changes cancel has
no row, and so no position; if a later range starts in the midst of these changes, then those
before it are skipped.
-/

namespace ChainLedger

open Prog

namespace EventLog

/-- The records of a partition from one offset up to another. -/
def range (log : EventLog) (p : Partition) (first stop : Nat) : List Record :=
  ((log.partition p).records.take stop).drop first

/-- The changes to an address by the records from one offset up to another. -/
def between (log : EventLog) (key : Address) (p : Partition) (first stop : Nat) : Totals :=
  Delta.total (((log.range p first stop).flatMap Record.deltas).filter (·.key = key))

variable {log : EventLog} {key : Address} {p : Partition} {first stop n : Nat}

theorem range_of_le (log : EventLog) (p : Partition) (hle : stop ≤ first) :
  log.range p first stop = []
  := by
  apply List.drop_of_length_le
  rw [List.length_take]
  omega

/-! ### Changes between offsets -/

theorem Sound.between_eq (h : log.Sound) (key : Address) (p : Partition) (first stop : Nat) :
  log.between key p first stop = Delta.total ((log.deltas p).filter fun d =>
    d.key = key ∧ first ≤ d.source.offset ∧ d.source.offset < stop)
  := by
  rw [between, range, h.flatMap_drop_take, List.filter_filter]
  simp only [Bool.decide_and]

/-- Up to an offset an address is changed by what comes before another one, and what comes
from there on. -/
theorem Sound.changes_add (h : log.Sound) (hle : first ≤ stop) :
  log.changes key p stop = log.changes key p first + log.between key p first stop
  := by
  rw [h.changes_eq, h.changes_eq, h.between_eq]
  apply Delta.total_filter_add
  · intro d _
    by_cases hkey : d.key = key
    · simp only [hkey, true_and]
      omega
    · simp only [hkey, false_and, or_false]
  · rintro d _ ⟨-, hlt⟩ ⟨-, hle, -⟩
    omega

theorem between_of_le (log : EventLog) (key : Address) (p : Partition) (hle : stop ≤ first) :
  log.between key p first stop = 0
  := by
  rw [between, log.range_of_le p hle]
  rfl

/-- Up to the end of a range an address is changed by what comes before some offset, what lies
between this and the range, and what of the range comes from there on. -/
theorem Sound.changes_split (h : log.Sound) (key : Address) (p : Partition) (hfirst : first ≤ stop)
    (hn : n ≤ stop) :
  log.changes key p stop
    = log.changes key p n + log.between key p n first + log.between key p (max first n) stop
  := by
  rcases Nat.le_total first n with hle | hle
  · rw [log.between_of_le key p hle, add_zero, Nat.max_eq_right hle, ← h.changes_add hn]
  · rw [Nat.max_eq_left hle, ← h.changes_add hle, ← h.changes_add hfirst]

/-- If no record between the one at an offset and a later offset changes the address, it is
changed by the same up to either. -/
theorem Sound.changes_of_latest (h : log.Sound) {m : Nat} (hlt : m < n)
    (hlatest : ∀ d ∈ log.deltas p, d.key = key → m < d.source.offset → n ≤ d.source.offset) :
  log.changes key p (m + 1) = log.changes key p n
  := by
  rw [h.changes_eq, h.changes_eq]
  apply congrArg
  apply List.filter_congr
  intro d hd
  simp only [decide_eq_decide]
  apply and_congr_right
  intro hkey
  have hd := hlatest d hd hkey
  omega

/-! ### Batches of a range -/

variable {b : Batch} {row? : Option Row}

/-- What is pending for a row are the deltas of the range that the row does not reach. -/
theorem Sound.mem_pendingFor_range (h : log.Sound) (hb : b.Collects (log.range p first stop))
    {d : Delta} :
  d ∈ b.pendingFor key row? ↔ d ∈ log.deltas p ∧ d.key = key ∧
    max first (Row.reach p row?) ≤ d.source.offset ∧ d.source.offset < stop
  := by
  rw [(h.pendingFor_perm hb (h.flatMap_drop_take p first stop) key row?).mem_iff,
    List.mem_filter]
  simp only [decide_eq_true_eq]

theorem Sound.total_pendingFor_range (h : log.Sound)
    (hb : b.Collects (log.range p first stop)) :
  Delta.total (b.pendingFor key row?)
    = log.between key p (max first (Row.reach p row?)) stop
  := by
  rw [h.between_eq]
  apply ((h.pendingFor_perm hb (h.flatMap_drop_take p first stop) key row?).map _).sum_eq

/-- The records of a range are at its positions. -/
theorem Sound.position_of_range (h : log.Sound) {i : Nat}
    (hi : i < (log.range p first stop).length) :
  (log.range p first stop)[i].position = ⟨p, first + i⟩
  := by
  apply h.placed
  have hr := List.getElem?_eq_getElem hi
  conv_lhs at hr => rw [range]
  rw [List.getElem?_drop, List.getElem?_take] at hr
  split at hr
  · apply hr
  · cases hr

/-- The records of a range belong to the partition. -/
theorem Sound.partition_of_range (h : log.Sound) {r : Record} (hr : r ∈ log.range p first stop) :
  r.partition = p
  := by
  obtain ⟨i, hi, rfl⟩ := List.mem_iff_getElem.mp hr
  apply congrArg Position.partition (h.position_of_range hi)

theorem length_range (hstop : stop ≤ (log.partition p).records.length) :
  (log.range p first stop).length = stop - first
  := by
  rw [range, List.length_drop, List.length_take, Nat.min_eq_left hstop]

/-- The batch of the records of a partition from one offset up to another. -/
def rangeBatch (log : EventLog) (p : Partition) (first stop : Nat) : Batch where
  bounds := ⟨p, first, stop - 1, stop - first⟩
  records := log.range p first stop

/-- The records of a range amount to its batch. -/
theorem Sound.ofRecords_range (h : log.Sound) (hlt : first < stop)
    (hstop : stop ≤ (log.partition p).records.length) :
  Batch.ofRecords (log.range p first stop) = .ok (some (log.rangeBatch p first stop))
  := by
  rw [rangeBatch]
  have hlength : (log.range p first stop).length = stop - first := length_range hstop
  have hposition : ∀ (i : Nat) (hi : i < (log.range p first stop).length),
      (log.range p first stop)[i].position = ⟨p, first + i⟩ := fun i hi => h.position_of_range hi
  generalize log.range p first stop = rs at hlength hposition ⊢
  cases rs with
  | nil =>
      rw [List.length_nil] at hlength
      omega
  | cons r rest =>
      have hp : ∀ r' ∈ r :: rest, r'.partition = p := by
        intro r' hr'
        obtain ⟨i, hi, rfl⟩ := List.mem_iff_getElem.mp hr'
        apply congrArg Position.partition (hposition i hi)
      have hoffset : ∀ (i : Nat) (hi : i < (r :: rest).length),
          (r :: rest)[i].offset = first + i :=
        fun i hi => congrArg Position.offset (hposition i hi)
      have hfirst : r.offset = first := hoffset 0 (Nat.succ_pos _)
      have hlast : (rest.getLast?.getD r).offset = stop - 1 := by
        have hmem : rest.getLast?.getD r = (r :: rest).getLast (List.cons_ne_nil _ _) := by
          rw [List.getLast_eq_getLastD]
          simp
        rw [hmem, List.getLast_eq_getElem, hoffset, hlength]
        omega
      rw [Batch.ofRecords_of_ascending, hp r (.head _), hfirst, hlast, ← hlength,
        List.length_cons]
      · apply List.pairwise_iff_getElem.mpr
        intro i j hi hj hlt
        rw [hoffset i hi, hoffset j hj]
        omega
      · intro r' hr'
        rw [hp r' (.tail _ hr'), hp r (.head _)]

/-- A range without records has nothing to apply. -/
theorem toApply_rangeBatch_of_le (log : EventLog) (key : Address) (p : Partition)
    (row? : Option Row) (hle : stop ≤ first) :
  (log.rangeBatch p first stop).toApply key row? = none
  := by
  have hpending : (log.rangeBatch p first stop).pendingFor key row? = [] := by
    rw [Batch.pendingFor, Batch.deltas, rangeBatch, log.range_of_le p hle]
    rfl
  rw [Batch.toApply, if_pos (.inl hpending)]

/-! ### What a delivery does -/

/-- The greatest offset pending is one of the range beyond the row, and no delta of the
range comes after it. -/
theorem Sound.greatest_pendingFor (h : log.Sound) (hb : b.Collects (log.range p first stop))
    (hne : b.pendingFor key row? ≠ []) {m : Nat}
    (hm : m = greatest ((b.pendingFor key row?).map (·.source.offset))) :
  max first (Row.reach p row?) ≤ m ∧ m < stop ∧
    ∀ d ∈ log.deltas p, d.key = key → m < d.source.offset → stop ≤ d.source.offset
  := by
  have hmem : m ∈ (b.pendingFor key row?).map (·.source.offset) :=
    hm ▸ greatest_mem (List.map_eq_nil_iff.not.mpr hne)
  obtain ⟨d₀, hd₀, hoffset⟩ := List.mem_map.mp hmem
  obtain ⟨-, -, hfirst, hstop⟩ := (h.mem_pendingFor_range hb).mp hd₀
  rw [hoffset] at hfirst hstop
  refine ⟨hfirst, hstop, ?_⟩
  intro d hd hkey hlt
  apply Classical.byContradiction
  intro hnot
  have hpending : d ∈ b.pendingFor key row? :=
    (h.mem_pendingFor_range hb).mpr ⟨hd, hkey, by omega, by omega⟩
  have hle : d.source.offset ≤ m := hm ▸ le_greatest (List.mem_map_of_mem hpending)
  omega

/-- What a delivery of a range does to the row of an address. -/
inductive Delivers (log : EventLog) (key : Address) (p : Partition) (first stop : Nat)
    (row? row'? : Option Row) : Prop
  /-- Nothing is applied, and all that the range has beyond the row cancels. -/
  | idle (hnone : (log.rangeBatch p first stop).toApply key row? = none)
      (htotals : row'?.elim 0 Row.totals = row?.elim 0 Row.totals)
      (hreach : Row.reach p row'? = Row.reach p row?)
      (hnothing : log.between key p (max first (Row.reach p row?)) stop = 0) :
      Delivers log key p first stop row? row'?
  /-- All that the range has beyond the row is applied, and nothing comes after it. -/
  | applied {d : Delta} (hsome : (log.rangeBatch p first stop).toApply key row? = some d)
      (hfirst : first ≤ stop) (hold : Row.reach p row? ≤ stop)
      (htotals : row'?.elim 0 Row.totals
        = row?.elim 0 Row.totals + log.between key p (max first (Row.reach p row?)) stop)
      (hreach : Row.reach p row'? ≤ stop)
      (hlatest : log.changes key p (Row.reach p row'?) = log.changes key p stop) :
      Delivers log key p first stop row? row'?

/-- After a delivery a row reaches no further than before, or up to the end of the range. -/
theorem Delivers.reach_le {row'? : Option Row} (h : log.Delivers key p first stop row? row'?)
    (hn : Row.reach p row? ≤ n) :
  Row.reach p row'? ≤ max n stop
  := by
  cases h with
  | idle _ _ hreach _ =>
      rw [hreach]
      apply Nat.le_trans hn (Nat.le_max_left n stop)
  | applied _ _ _ _ hreach _ => apply Nat.le_trans hreach (Nat.le_max_right n stop)

/-- A batch of a range that has done all that it is to do has delivered the range. -/
theorem Sound.delivers (h : log.Sound)
    (hb : (log.rangeBatch p first stop).Collects (log.range p first stop))
    (hwritten : ∀ d, (log.rangeBatch p first stop).toApply key row? = some d →
      ∃ row', Row.written row? d = .ok row') :
  log.Delivers key p first stop row? ((log.rangeBatch p first stop).finalAt key row?)
  := by
  -- settling changes neither the totals nor the position
  have hkeeps : ((log.rangeBatch p first stop).finalAt key row?).elim 0 Row.totals
        = ((log.rangeBatch p first stop).writtenAt key row?).elim 0 Row.totals ∧
      Row.reach p ((log.rangeBatch p first stop).finalAt key row?)
        = Row.reach p ((log.rangeBatch p first stop).writtenAt key row?) := by
    rw [Batch.finalAt]
    split
    · cases (log.rangeBatch p first stop).writtenAt key row? with
      | none => exact ⟨rfl, rfl⟩
      | some row => exact ⟨rfl, rfl⟩
    · exact ⟨rfl, rfl⟩
  obtain ⟨htotals, hreach⟩ := hkeeps
  have hpending : Delta.total ((log.rangeBatch p first stop).pendingFor key row?)
      = log.between key p (max first (Row.reach p row?)) stop := h.total_pendingFor_range hb
  cases hd : (log.rangeBatch p first stop).toApply key row? with
  | none =>
      have hat : (log.rangeBatch p first stop).writtenAt key row? = row? := by
        rw [Batch.writtenAt, hd]
      rw [hat] at htotals hreach
      apply Delivers.idle hd htotals hreach
      rw [← hpending]
      apply total_pendingFor_of_none hd
  | some d =>
      obtain ⟨row', hrow'⟩ := hwritten d hd
      obtain ⟨hwhole, hne⟩ := Batch.eq_whole_of_toApply hd
      obtain ⟨hge, hlt, hlatest⟩ := h.greatest_pendingFor hb hne rfl
      have hsource : row'.source = ⟨p, greatest
          (((log.rangeBatch p first stop).pendingFor key row?).map (·.source.offset))⟩ := by
        rw [(Row.of_written hrow').1, hwhole]
        rfl
      have hreach' : Row.reach p (some row') = greatest
          (((log.rangeBatch p first stop).pendingFor key row?).map (·.source.offset)) + 1 := by
        rw [Row.reach, hsource, if_pos rfl]
      rw [Batch.writtenAt_of_written hd hrow'] at htotals hreach
      rw [hreach'] at hreach
      apply Delivers.applied hd
      · omega
      · omega
      · apply htotals.trans
        apply (Row.totals_of_written hrow').trans
        rw [hwhole, ← hpending]
        rfl
      · omega
      · rw [hreach]
        apply h.changes_of_latest hlt hlatest

/-! ### Deliveries one after another -/

/-- A delivery of a range of records: its offsets, and the rows that it has found. -/
structure Delivery where
  first : Nat
  stop : Nat
  rows : Table Address Row

/-- Whether the delivery has something to apply to the row of the address. -/
def Delivery.applies (log : EventLog) (key : Address) (p : Partition) (d : Delivery) : Bool :=
  ((log.rangeBatch p d.first d.stop).toApply key (d.rows.get? key)).isSome

/-- What the records beyond the row of the address change it by that lie before the range: from
the first record of all, if there is no row. -/
def Delivery.skipped (log : EventLog) (key : Address) (p : Partition) (d : Delivery) : Totals :=
  log.between key p (Row.reach p (d.rows.get? key)) d.first

/-- What some deliveries have skipped that have applied something. -/
def skippedBy (log : EventLog) (key : Address) (p : Partition) (ds : List Delivery) : Totals :=
  ((ds.filter (·.applies log key p)).map (·.skipped log key p)).sum

theorem skippedBy_concat (log : EventLog) (key : Address) (p : Partition) (ds : List Delivery)
    (d : Delivery) :
  log.skippedBy key p (ds ++ [d])
    = log.skippedBy key p ds + if d.applies log key p then d.skipped log key p else 0
  := by
  rw [skippedBy, List.filter_append, List.map_append, List.sum_append]
  apply congrArg
  rw [List.filter_singleton]
  split
  · next happlies => simp [happlies]
  · next hnot => simp [hnot]

variable {Λ : Type}

/-- From an empty store on, ranges of the records of a partition are delivered one after
another, and processed while no call is lost, nothing overflows and the log accepts every
batch.  Each range starts at or before the first record not delivered yet.  Meanwhile the
log and what the oracle tells may change. -/
inductive Rewinds (policy : Policy) (parties : Parties Λ) (log : EventLog) (p : Partition) :
    List Delivery → Nat → Table Address Row → Prop
  | start : Rewinds policy parties log p [] 0 .empty
  | deliver {ds : List Delivery} {n first stop : Nat} {rows : Table Address Row} {state : Λ}
      {r : Except Fault (Except Failure Outcome)} {s' : Site Λ}
      (h : Rewinds policy parties log p ds n rows) (hfirst : first ≤ n)
      (hstop : stop ≤ (log.partition p).records.length)
      (hexec : Exec (BatchAnswers False parties) ⟨rows, state⟩
        (Batch.process policy (log.range p first stop)) r s')
      (hcalm : ¬ Overflowed r)
      (haccepts : ∀ b, Batch.ofRecords (log.range p first stop) = .ok (some b) →
        (parties.acknowledge state b.bounds).2 = .ok ()) :
      Rewinds policy parties log p (ds ++ [⟨first, stop, rows⟩]) (max n stop) s'.rows

variable {policy : Policy} {parties : Parties Λ} {ds : List Delivery} {rows : Table Address Row}

/-- Deliveries leave the partition alone. -/
theorem Rewinds.alone (h : Rewinds policy parties log p ds n rows) (hlog : log.Sound) :
  Keyed rows ∧ Sole p rows
  := by
  induction h with
  | start => exact ⟨keyed_empty, sole_empty p⟩
  | deliver _ _ _ hexec _ _ ih =>
      apply Batch.sole_of_process (fun r hr => hlog.partition_of_range hr) ih.1 ih.2 hexec

/-- A delivery of a batch has done all that it is to do. -/
theorem Sound.rows_of_delivery (hlog : log.Sound) {s s' : Site Λ}
    {r : Except Fault (Except Failure Outcome)} (hkeyed : Keyed s.rows) (hsole : Sole p s.rows)
    (hexec : Exec (BatchAnswers False parties) s
      (Batch.process policy (log.range p first stop)) r s')
    (hcalm : ¬ Overflowed r) (hrs : Batch.ofRecords (log.range p first stop) = .ok (some b))
    (hack : (parties.acknowledge s.log b.bounds).2 = .ok ()) :
  b.Fits policy.takeover (parties.latestOffset s.log) s.rows ∧
    ∀ key, s'.rows.get? key = b.finalAt key (s.rows.get? key)
  := by
  cases Batch.process_alone hrs (fun r hr => hlog.partition_of_range hr) hkeyed hsole hexec with
  | overflowed hr _ => apply absurd hr hcalm
  | refused hrefused =>
      rw [hack] at hrefused
      cases hrefused
  | committed hfits _ hrows => exact ⟨hfits, hrows⟩

/-- No more records are delivered than there are. -/
theorem Rewinds.le_length (h : Rewinds policy parties log p ds n rows) :
  n ≤ (log.partition p).records.length
  := by
  induction h with
  | start => apply Nat.zero_le
  | deliver _ _ hstop _ _ _ ih => apply Nat.max_le.mpr ⟨ih, hstop⟩

/-- What one more delivery does to the row of an address. -/
theorem Rewinds.delivers {r : Except Fault (Except Failure Outcome)} {state : Λ} {s' : Site Λ}
    (h : Rewinds policy parties log p ds n rows) (hlog : log.Sound)
    (hstop : stop ≤ (log.partition p).records.length)
    (hexec : Exec (BatchAnswers False parties) ⟨rows, state⟩
      (Batch.process policy (log.range p first stop)) r s')
    (hcalm : ¬ Overflowed r)
    (haccepts : ∀ b, Batch.ofRecords (log.range p first stop) = .ok (some b) →
      (parties.acknowledge state b.bounds).2 = .ok ()) (key : Address) :
  log.Delivers key p first stop (rows.get? key) (s'.rows.get? key)
  := by
  obtain ⟨hkeyed, hsole⟩ := h.alone hlog
  by_cases hlt : first < stop
  · have hrs := hlog.ofRecords_range hlt hstop
    have hb := Batch.collects_of_ofRecords hrs
    obtain ⟨hfits, hrows⟩ :=
      hlog.rows_of_delivery hkeyed hsole hexec hcalm hrs (haccepts _ hrs)
    rw [hrows key]
    apply hlog.delivers hb
    intro d hd
    apply hfits.writes key d hd
    intro hblocked
    have hp : (log.rangeBatch p first stop).bounds.partition = p := rfl
    apply Batch.not_stuck_of_sole hp hsole
    exact ⟨key, (hb.of_toApply hd).2.1, hblocked⟩
  · have hle := Nat.le_of_not_lt hlt
    have hno : ∀ b, Batch.ofRecords (log.range p first stop) ≠ .ok (some b) := by
      intro b hb
      rw [log.range_of_le p hle, Batch.ofRecords, List.mergeSort_nil] at hb
      cases hb
    rw [(Batch.process_nothing hno hexec).1]
    apply Delivers.idle (log.toApply_rangeBatch_of_le key p _ hle) rfl rfl
    apply log.between_of_le
    omega

/-- A row reaches no further than what was delivered.  With what was skipped it has the totals
of all records up to its reach. -/
theorem Rewinds.accounts (h : Rewinds policy parties log p ds n rows) (hlog : log.Sound)
    (key : Address) :
  Row.reach p (rows.get? key) ≤ n ∧
    (rows.get? key).elim 0 Row.totals + log.skippedBy key p ds
      = log.changes key p (Row.reach p (rows.get? key))
  := by
  induction h with
  | start => exact ⟨Nat.zero_le 0, rfl⟩
  | @deliver ds n first stop rows state r s' h hfirst hstop hexec hcalm haccepts ih =>
      have hdelivers := h.delivers hlog hstop hexec hcalm haccepts key
      refine ⟨hdelivers.reach_le ih.1, ?_⟩
      rw [skippedBy_concat, Delivery.applies, Delivery.skipped]
      dsimp only
      cases hdelivers with
      | idle hnone htotals hreach _ =>
          rw [hnone, htotals, hreach, ← ih.2]
          simp
      | applied hsome hle hold htotals _ hlatest =>
          rw [hsome, htotals, hlatest, hlog.changes_split key p hle hold, ← ih.2]
          simp only [Option.isSome_some, if_true]
          ac_rfl

/-- After any deliveries of which the last ends at the end of the log, with ranges that rewind
and are cut anywhere, the totals of an address are what all records change it by, each counted
once, but for what was skipped: by the deliveries that have applied something to the address, and
by the last. -/
theorem totals_of_rewinds {d : Delivery} (h : Rewinds policy parties log p (ds ++ [d]) n rows)
    (hlog : log.Sound) (hend : d.stop = (log.partition p).records.length) (key : Address) :
  (rows.get? key).elim 0 Row.totals + (log.skippedBy key p ds + d.skipped log key p)
    = Delta.total ((log.deltas p).filter (·.key = key))
  := by
  have hall : log.changes key p (log.partition p).records.length
      = Delta.total ((log.deltas p).filter (·.key = key)) := by
    rw [changes, List.take_length]
    rfl
  rw [← hall]
  generalize hds : ds ++ [d] = ds' at h
  cases h with
  | start => simp at hds
  | @deliver ds' n first stop rows state r s' h hfirst hstop hexec hcalm haccepts =>
      obtain ⟨rfl, hlast⟩ := List.append_inj' hds rfl
      obtain rfl := List.singleton_inj.mp hlast
      obtain rfl : stop = _ := hend
      obtain ⟨hreach, haccounts⟩ := h.accounts hlog key
      have hsplit := hlog.changes_split key p (Nat.le_trans hfirst h.le_length)
        (Nat.le_trans hreach h.le_length)
      rw [hsplit, ← haccounts, Delivery.skipped]
      cases h.delivers hlog hstop hexec hcalm haccepts key with
      | idle _ htotals _ hnothing =>
          rw [htotals, hnothing, add_zero, add_assoc]
      | applied _ _ _ htotals _ _ =>
          rw [htotals]
          ac_rfl

/-! ### A block that is retracted -/

/-- A range that is not too heavy for the rows can be delivered, and is processed. -/
theorem Rewinds.exists_deliver {bound : Totals} {v : Nat} {b : Batch}
    (h : Rewinds policy Batch.acceptsAll log p ds n rows) (hlog : log.Sound) (hfirst : first ≤ n)
    (hlt : first < stop) (hstop : stop ≤ (log.partition p).records.length)
    (hb : b = log.rangeBatch p first stop) (hbound : bound.Within 0)
    (hrows : ∀ key, Batch.Bounded bound v (rows.get? key))
    (hfits : (bound + Delta.weight b.deltas).Fits) (hv : FitsUnsigned 64 (v + 2)) :
  ∃ rows', Rewinds policy Batch.acceptsAll log p (ds ++ [⟨first, stop, rows⟩])
      (max n stop) rows' ∧
    (∀ key, rows'.get? key = b.finalAt key (rows.get? key)) ∧
    ∀ key, Batch.Bounded (bound + Delta.weight b.deltas) (v + 2) (rows'.get? key)
  := by
  subst hb
  have hrs := hlog.ofRecords_range hlt hstop
  obtain ⟨hkeyed, hsole⟩ := h.alone hlog
  have hp : (log.rangeBatch p first stop).bounds.partition = p := rfl
  have hack : (Batch.acceptsAll.acknowledge () (log.rangeBatch p first stop).bounds).2 = .ok () :=
    rfl
  obtain ⟨r, s', hexec, hcalm, hbounded⟩ := Batch.exists_calm (s := ⟨rows, ()⟩) hrs hkeyed
    (Batch.not_stuck_of_sole hp hsole) hack hbound hrows hfits hv
  have hrows' := (hlog.rows_of_delivery hkeyed hsole hexec hcalm hrs rfl).2
  exact ⟨s'.rows, h.deliver hfirst hstop hexec hcalm fun _ _ => rfl, hrows', hbounded⟩

/-- A block that pays five units. -/
def reward : Payload :=
  .block {
    number := 1
    hash := default
    miner := Batch.receiver
    baseReward := 5
    uncleInclusion := 0
    fees := 0
    transactions := 0
    time := 9 }

/-- The partition of the block. -/
def blocks : Partition := ⟨"BLOCKS", 0⟩

/-- A log of one block that joins the chain and leaves it again. -/
def retraction : EventLog := (({} : EventLog).append blocks .added reward).append blocks .dropped reward

theorem sound_retraction :
  retraction.Sound
  := ((sound_of_empty fun _ => rfl).append blocks _ _).append blocks _ _

/-- Two ranges of the retracted block are delivered, the first from the start and the second
up to the end. -/
theorem exists_rewinds_retraction (policy : Policy) {first stop : Nat} (hstop : stop = 1 ∨ stop = 2)
    (hfirst : first = 0 ∨ first = 1) :
  ∃ rows₁ rows₂,
    Rewinds policy Batch.acceptsAll retraction blocks
      [⟨0, stop, .empty⟩, ⟨first, 2, rows₁⟩] 2 rows₂ ∧
    (∀ key, rows₁.get? key = (retraction.rangeBatch blocks 0 stop).finalAt key none) ∧
    ∀ key, rows₂.get? key = (retraction.rangeBatch blocks first 2).finalAt key (rows₁.get? key)
  := by
  have hlength : (retraction.partition blocks).records.length = 2 := by decide
  have hweight : Delta.weight (retraction.rangeBatch blocks 0 stop).deltas
      = { balance := 5 * stop, received := 5 * stop, blocks := stop } := by
    rcases hstop with rfl | rfl <;> decide
  have hweight' : Delta.weight (retraction.rangeBatch blocks first 2).deltas
      = { balance := 10 - 5 * first, received := 10 - 5 * first, blocks := 2 - first } := by
    rcases hfirst with rfl | rfl <;> decide
  have hbound : (0 + Delta.weight (retraction.rangeBatch blocks 0 stop).deltas).Within 0 := by
    rw [zero_add]
    apply Delta.within_total (List.nil_sublist _)
  have hfits : (0 + Delta.weight (retraction.rangeBatch blocks 0 stop).deltas).Fits := by
    rw [hweight]
    rcases hstop with rfl | rfl <;> decide
  have hfits' : (0 + Delta.weight (retraction.rangeBatch blocks 0 stop).deltas
      + Delta.weight (retraction.rangeBatch blocks first 2).deltas).Fits := by
    rw [hweight, hweight']
    rcases hstop with rfl | rfl <;> rcases hfirst with rfl | rfl <;> decide
  have hstart : Rewinds policy Batch.acceptsAll retraction blocks [] 0 .empty := .start
  have hversion : FitsUnsigned 64 (0 + 2) := by decide
  have hversion' : FitsUnsigned 64 (0 + 2 + 2) := by decide
  obtain ⟨rows₁, hrewinds₁, hrows₁, hbounded₁⟩ := hstart.exists_deliver sound_retraction
    (Nat.zero_le 0) (show 0 < stop by omega) (by omega) rfl Totals.within_zero
    (by rintro key row ⟨⟩) hfits hversion
  obtain ⟨rows₂, hrewinds₂, hrows₂, -⟩ := hrewinds₁.exists_deliver sound_retraction
    (show first ≤ max 0 stop by omega) (show first < 2 by omega) (by omega) rfl hbound hbounded₁
    hfits' hversion'
  rw [Nat.zero_max, Nat.max_eq_right (by omega)] at hrewinds₂
  exact ⟨rows₁, rows₂, hrewinds₂, hrows₁, hrows₂⟩

/-- If the block is delivered alone, and then again together with its retraction, each
counts once: nothing is skipped. -/
theorem retraction_counts_once :
  ∃ (policy : Policy) (d₁ d₂ : Delivery) (rows : Table Address Row),
    Rewinds policy Batch.acceptsAll retraction blocks ([d₁] ++ [d₂]) 2 rows ∧
    retraction.Sound ∧
    d₂.stop = (retraction.partition blocks).records.length ∧
    d₂.first < d₁.stop ∧
    (rows.get? Batch.receiver).isSome ∧
    (rows.get? Batch.receiver).elim 0 Row.totals
        + (retraction.skippedBy Batch.receiver blocks [d₁]
          + d₂.skipped retraction Batch.receiver blocks)
      = Delta.total ((retraction.deltas blocks).filter (·.key = Batch.receiver)) ∧
    retraction.skippedBy Batch.receiver blocks [d₁]
      + d₂.skipped retraction Batch.receiver blocks = 0
  := by
  obtain ⟨rows₁, rows₂, hrewinds, hrows₁, hrows₂⟩ :=
    exists_rewinds_retraction ⟨20, 100, 30, 5000, .past⟩ (.inl rfl : 1 = 1 ∨ 1 = 2)
      (.inl rfl : 0 = 0 ∨ 0 = 1)
  have hend : 2 = (retraction.partition blocks).records.length := by decide
  refine ⟨_, ⟨0, 1, .empty⟩, ⟨0, 2, rows₁⟩, rows₂, hrewinds, sound_retraction, hend, Nat.zero_lt_one,
    ?_, totals_of_rewinds hrewinds sound_retraction hend _, ?_⟩
  · rw [hrows₂, hrows₁]
    decide
  · -- both ranges start with the first record
    rw [Delivery.skipped, retraction.between_of_le _ _ (Nat.zero_le _), add_zero]
    decide

/-- If the block is delivered together with its retraction, it makes no row; and if the
retraction is then delivered again alone, it counts twice, though the last range ends at the
end of the log. -/
theorem retraction_counts_twice :
  ∃ (policy : Policy) (d₁ d₂ : Delivery) (rows : Table Address Row),
    Rewinds policy Batch.acceptsAll retraction blocks [d₁, d₂] 2 rows ∧
    retraction.Sound ∧
    d₂.stop = (retraction.partition blocks).records.length ∧
    (rows.get? Batch.receiver).elim 0 Row.totals
      = { balance := -5, received := -5, blocks := -1 } ∧
    Delta.total ((retraction.deltas blocks).filter (·.key = Batch.receiver)) = 0
  := by
  obtain ⟨rows₁, rows₂, hrewinds, hrows₁, hrows₂⟩ :=
    exists_rewinds_retraction ⟨20, 100, 30, 5000, .past⟩ (.inr rfl : 2 = 1 ∨ 2 = 2)
      (.inr rfl : 1 = 0 ∨ 1 = 1)
  have hend : 2 = (retraction.partition blocks).records.length := by decide
  refine ⟨_, _, _, rows₂, hrewinds, sound_retraction, hend, ?_, by decide⟩
  rw [hrows₂, hrows₁]
  decide

end EventLog

end ChainLedger
