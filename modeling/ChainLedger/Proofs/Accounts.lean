import ChainLedger.Proofs.Polling

/-!
# What the log accounts for

The log accounts for an address by the changes of all records that count for the address's
row.  A row that has just these totals still has them after a polled batch has written it,
after a batch that has nothing left to apply to it is acknowledged, and after records are
appended.
-/

namespace ChainLedger

/-- A row that is written has the delta's change more than the row before, or than zero. -/
theorem Row.totals_of_written {row? : Option Row} {d : Delta} {row' : Row}
    (h : Row.written row? d = .ok row') :
  row'.totals = row?.elim 0 Row.totals + d.change
  := by
  cases row? with
  | none =>
      cases h
      change d.change = 0 + d.change
      rw [zero_add]
  | some row =>
      obtain ⟨-, -, rfl⟩ := Row.apply_eq_ok_iff.mp h
      rfl

namespace EventLog

/-- The changes to an address by all records that count for its row. -/
def account (log : EventLog) (key : Address) (row? : Option Row) : Totals :=
  (log.partitions.keys.map fun p => log.changes key p (log.counted row? p)).sum

/-- The row of an address is at a position of the log, which is acknowledged if the row is
settled, and has the totals that the log accounts for. -/
structure Accounts (log : EventLog) (key : Address) (row? : Option Row) : Prop where
  reached : ∀ row ∈ row?,
    row.source.offset < (log.partition row.source.partition).records.length
  acknowledged : ∀ row ∈ row?, row.settled = true →
    row.source.offset < (log.partition row.source.partition).firstPending
  totals : row?.elim 0 Row.totals = log.account key row?

variable {log log' : EventLog} {key : Address} {row? : Option Row} {p : Partition}
  {rs : List Record} {b : Batch}

/-- The committed position of a partition is past an offset exactly if the offset is
acknowledged. -/
theorem past_allows_iff (log : EventLog) (p : Partition) (n : Nat) :
  TakeoverRule.past.allows (log.latestOffset p) n = true ↔ n < (log.partition p).firstPending
  := by
  rw [latestOffset, EventLog.acknowledged, PartitionLog.firstPending]
  cases (log.partition p).acknowledged with
  | none => simp [TakeoverRule.allows]
  | some offset => simp [TakeoverRule.allows]

/-- A row that may be written counts, of all other partitions, only what is acknowledged. -/
theorem Accounts.counted_of_free (h : log.Accounts key row?)
    (hfree : ¬ Blocked .past log.latestOffset p row?) {q : Partition} (hq : q ≠ p) :
  log.counted row? q = (log.partition q).firstPending
  := by
  rw [counted]
  apply Nat.max_eq_left
  cases row? with
  | none => apply Nat.zero_le
  | some row =>
      rw [Row.reach]
      split
      · next hsource =>
          subst hsource
          cases hsettled : row.settled with
          | true => apply h.acknowledged row rfl hsettled
          | false =>
              apply (log.past_allows_iff _ _).mp
              apply Classical.byContradiction
              intro hnot
              apply hfree
              refine ⟨⟨by simp [hsettled], hq⟩, ?_⟩
              simpa using hnot
      · apply Nat.zero_le

/-- After a polled batch has written the row of an address, the log still accounts for it. -/
theorem Polled.accounts_written (h : log.Polled p rs b) (hlog : log.Sound)
    (hrow : log.Accounts key row?) (hwrites : b.Writes .past log.latestOffset key row?) :
  log.Accounts key (b.writtenAt key row?)
  := by
  obtain ⟨hfree, d, row', hd, hwritten⟩ := hwrites
  obtain ⟨hsource, hsettled⟩ := Row.of_written hwritten
  obtain ⟨-, -, hcontains, -⟩ := h.collects.of_toApply hd
  have hpartition : row'.source.partition = p := by
    rw [hsource, hcontains.1, h.partition]
  rw [h.partition] at hfree
  rw [Batch.writtenAt_of_written hd hwritten]
  constructor
  · rintro _ ⟨⟩
    rw [hpartition, hsource]
    apply Nat.lt_of_le_of_lt hcontains.2.2 h.last
  · rintro _ ⟨⟩ htrue
    rw [hsettled] at htrue
    cases htrue
  · change row'.totals = _
    rw [Row.totals_of_written hwritten, hrow.totals, account, account]
    apply Eq.symm
    apply Totals.sum_map_add (Table.nodup_keys _) h.known
    · intro q _ hq
      have hreach : Row.reach q (some row') = 0 := by
        rw [Row.reach, hpartition, if_neg (Ne.symm hq)]
      rw [hrow.counted_of_free hfree hq, counted, hreach, Nat.max_zero]
    · have hreach : Row.reach p (some row') = d.source.offset + 1 := by
        rw [Row.reach, if_pos hpartition, hsource]
      rw [counted, hreach]
      apply h.changes_written hlog hd

/-- If nothing is left to apply to the row of an address, what is pending for it adds up to
nothing. -/
theorem total_pendingFor_of_none (h : b.toApply key row? = none) :
  Delta.total (b.pendingFor key row?) = 0
  := by
  rw [Batch.toApply] at h
  split at h
  · next hidle =>
      rcases hidle with hnil | ⟨-, hzero⟩
      · rw [hnil]
        rfl
      · apply hzero
  · cases h

/-- After a batch that has nothing left to apply to the row of an address is acknowledged,
the log still accounts for the row. -/
theorem Polled.accounts_advanced (h : log.Polled p rs b) (hlog : log.Sound)
    (hadvances : log.Advances log' p (b.bounds.last + 1)) (hrow : log.Accounts key row?)
    (hnone : b.toApply key row? = none) :
  log'.Accounts key row?
  := by
  have hfirst := h.first
  have hle : ∀ q, (log.partition q).firstPending ≤ (log'.partition q).firstPending := by
    intro q
    by_cases hq : q = p
    · rw [hq, hadvances.here]
      omega
    · apply Nat.le_of_eq (hadvances.elsewhere q hq).symm
  constructor
  · intro row hmem
    rw [hadvances.records]
    apply hrow.reached row hmem
  · intro row hmem hsettled
    apply Nat.lt_of_lt_of_le (hrow.acknowledged row hmem hsettled) (hle _)
  · have hchanges : ∀ q n, log'.changes key q n = log.changes key q n := by
      intro q n
      rw [changes, changes, hadvances.records]
    rw [hrow.totals, account, account, (hadvances.keys.map _).sum_eq]
    apply congrArg List.sum
    apply List.map_congr_left
    intro q _
    rw [hchanges]
    by_cases hq : q = p
    · subst hq
      have hcounted : log'.counted row? q = max (log.counted row? q) (b.bounds.last + 1) := by
        rw [counted, counted, hadvances.here]
        omega
      rw [hcounted, h.changes_all hlog, total_pendingFor_of_none hnone, add_zero]
    · rw [counted, counted, hadvances.elsewhere q hq]

/-- A row whose position is acknowledged may be settled. -/
theorem Accounts.final {row : Row} (h : log.Accounts key (some row))
    (hpast : row.source.offset < (log.partition row.source.partition).firstPending) :
  log.Accounts key (some row.final)
  := by
  constructor
  · rintro _ ⟨⟩
    apply h.reached row rfl
  · rintro _ ⟨⟩ _
    apply hpast
  · apply h.totals

/-! ### Other logs -/

/-- A log without records is sound. -/
theorem sound_of_empty (h : ∀ p, log.partition p = {}) :
  log.Sound
  := by
  constructor
  · intro p n r hr
    rw [h] at hr
    cases hr
  · intro p
    rw [h]
    exact Nat.le_refl _

/-- Acknowledging records that are there keeps a log sound. -/
theorem Sound.advanced (h : log.Sound) {n : Nat} (hadvances : log.Advances log' p n)
    (hn : n ≤ (log.partition p).records.length) :
  log'.Sound
  := by
  constructor
  · intro q
    rw [hadvances.records]
    apply h.placed q
  · intro q
    rw [hadvances.records]
    by_cases hq : q = p
    · rw [hq, hadvances.here]
      apply hn
    · rw [hadvances.elsewhere q hq]
      apply h.bounded

theorem partition_congr (heq : log'.partitions = log.partitions) (q : Partition) :
  log'.partition q = log.partition q
  := by
  rw [EventLog.partition, heq, EventLog.partition]

/-- Whether a log is sound depends on its partitions only. -/
theorem Sound.congr (h : log.Sound) (heq : log'.partitions = log.partitions) :
  log'.Sound
  := by
  have hpartition := partition_congr heq
  constructor
  · intro q
    rw [hpartition]
    apply h.placed q
  · intro q
    rw [hpartition]
    apply h.bounded q

/-- An acknowledgment keeps a log sound, whatever is acknowledged. -/
theorem Sound.acknowledge (h : log.Sound) (b : Bounds) :
  (log.acknowledge b).1.Sound
  := by
  rcases log.acknowledge_cases b with ⟨-, heq⟩ | ⟨-, hlast, hadvances⟩
  · exact h.congr heq
  · exact h.advanced hadvances (Nat.max_le.mpr ⟨h.bounded _, hlast⟩)

/-- What a log accounts for depends on its partitions only. -/
theorem Accounts.congr (h : log.Accounts key row?) (heq : log'.partitions = log.partitions) :
  log'.Accounts key row?
  := by
  have hpartition := partition_congr heq
  constructor
  · intro row hmem
    rw [hpartition]
    apply h.reached row hmem
  · intro row hmem
    rw [hpartition]
    apply h.acknowledged row hmem
  · rw [h.totals, account, account, heq]
    simp only [changes, counted, hpartition]

/-- The records of a partition after one is appended. -/
theorem records_append (log : EventLog) (p : Partition) (kind : Kind) (payload : Payload)
    (q : Partition) :
  ((log.append p kind payload).partition q).records = (log.partition q).records ++
    if q = p then [⟨kind, payload, p, (log.partition p).records.length⟩] else []
  := by
  rw [append, partition_insert]
  split
  · next hq =>
      subst hq
      rfl
  · rw [List.append_nil]

/-- Appending acknowledges nothing. -/
theorem firstPending_append (log : EventLog) (p : Partition) (kind : Kind) (payload : Payload)
    (q : Partition) :
  ((log.append p kind payload).partition q).firstPending = (log.partition q).firstPending
  := by
  rw [append, partition_insert]
  split
  · next hq =>
      subst hq
      rfl
  · rfl

/-- Appending keeps a log sound. -/
theorem Sound.append (h : log.Sound) (p : Partition) (kind : Kind) (payload : Payload) :
  (log.append p kind payload).Sound
  := by
  constructor
  · intro q n r hr
    rw [records_append] at hr
    split at hr
    · next hq =>
        subst hq
        rw [List.getElem?_append] at hr
        split at hr
        · apply h.placed q n r hr
        · next hlt =>
            rw [List.getElem?_singleton] at hr
            split at hr
            · next hend =>
                cases hr
                apply congrArg (Position.mk q)
                apply Nat.le_antisymm (Nat.le_of_not_lt hlt)
                omega
            · cases hr
    · rw [List.append_nil] at hr
      apply h.placed q n r hr
  · intro q
    rw [firstPending_append, records_append, List.length_append]
    apply Nat.le_trans (h.bounded q)
    apply Nat.le_add_right

/-- No more records count than there are. -/
theorem Accounts.counted_le (h : log.Accounts key row?) (hlog : log.Sound) (q : Partition) :
  log.counted row? q ≤ (log.partition q).records.length
  := by
  apply Nat.max_le.mpr ⟨hlog.bounded q, ?_⟩
  cases row? with
  | none => apply Nat.zero_le
  | some row =>
      rw [Row.reach]
      split
      · next hsource =>
          subst hsource
          apply h.reached row rfl
      · apply Nat.zero_le

/-- After a record is appended, the log still accounts for the row of an address. -/
theorem Accounts.append (h : log.Accounts key row?) (hlog : log.Sound) (p : Partition)
    (kind : Kind) (payload : Payload) :
  (log.append p kind payload).Accounts key row?
  := by
  constructor
  · intro row hmem
    rw [records_append, List.length_append]
    apply Nat.lt_of_lt_of_le (h.reached row hmem)
    apply Nat.le_add_right
  · intro row hmem hsettled
    rw [firstPending_append]
    apply h.acknowledged row hmem hsettled
  · have hterm : ∀ q, (log.append p kind payload).changes key q
        ((log.append p kind payload).counted row? q) = log.changes key q (log.counted row? q) := by
      intro q
      rw [counted, firstPending_append, ← counted, changes, changes, records_append,
        List.take_append_of_le_length (h.counted_le hlog q)]
    rw [h.totals, account, account]
    simp only [hterm]
    by_cases hknown : p ∈ log.partitions.keys
    · apply ((Table.keys_insert_of_mem hknown _).map _).sum_eq.symm
    · -- of a partition that was not there, nothing counts
      have hnothing : log.changes key p (log.counted row? p) = 0 := by
        have hnone : log.partitions.get? p = none := by
          cases hl : log.partitions.get? p with
          | none => rfl
          | some l => exact absurd (Table.mem_keys_iff.mpr ⟨l, hl⟩) hknown
        rw [changes, EventLog.partition, hnone, Option.getD_none, List.take_nil]
        rfl
      have hkeys : (log.append p kind payload).partitions.keys.Perm (p :: log.partitions.keys) :=
        Table.keys_insert_of_not_mem hknown _
      rw [(hkeys.map _).sum_eq, List.map_cons, List.sum_cons, hnothing, zero_add]

end EventLog

end ChainLedger
