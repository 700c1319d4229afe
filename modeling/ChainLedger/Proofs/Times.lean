import Mathlib.Order.Bounds.Basic
import ChainLedger.Proofs.Feeding
import ChainLedger.Proofs.Undoing

/-!
# The times of a row

The deltas of a batch for one address are applied at the latest of their times.  So a row was
last seen at the latest time of all that was applied to it.  But it was first seen at the
earliest of the latest times of its batches: how records are cut into batches makes a difference,
and no batch may have more than the earliest time for the row to show this.
-/

namespace ChainLedger

open Prog

variable {Λ : Type} {parties : Parties Λ} {policy : Policy} {p : Partition}
  {rows : Table Address Row} {fs : List Feed} {f : Feed} {key : Address} {row? : Option Row}

/-- The times of all that batches have applied to the row of the address. -/
def appliedTimes (key : Address) (fs : List Feed) : List Nat :=
  fs.flatMap fun f => (f.applied key).map (·.time)

/-- The latest time of each batch that has applied something to the row of the address. -/
def batchTimes (key : Address) (fs : List Feed) : List Nat :=
  (fs.filter (·.applied key ≠ [])).map fun f => greatest ((f.applied key).map (·.time))

theorem appliedTimes_concat (key : Address) (fs : List Feed) (f : Feed) :
  appliedTimes key (fs ++ [f]) = appliedTimes key fs ++ (f.applied key).map (·.time)
  := by
  simp [appliedTimes]

theorem batchTimes_concat_of_idle (h : f.applied key = []) :
  batchTimes key (fs ++ [f]) = batchTimes key fs
  := by
  simp [batchTimes, h]

theorem batchTimes_concat (h : f.applied key ≠ []) :
  batchTimes key (fs ++ [f])
    = batchTimes key fs ++ [greatest ((f.applied key).map (·.time))]
  := by
  simp [batchTimes, h]

theorem mem_appliedTimes {t : Nat} :
  t ∈ appliedTimes key fs ↔ ∃ f ∈ fs, ∃ d ∈ f.applied key, d.time = t
  := by
  simp [appliedTimes]

theorem mem_batchTimes {t : Nat} :
  t ∈ batchTimes key fs
    ↔ ∃ f ∈ fs, f.applied key ≠ [] ∧ greatest ((f.applied key).map (·.time)) = t
  := by
  simp [batchTimes, and_assoc]

/-- The greatest number of a list is the greatest of its members. -/
theorem isGreatest_greatest {l : List Nat} (h : l ≠ []) :
  IsGreatest {t | t ∈ l} (greatest l)
  := ⟨greatest_mem h, fun _ => le_greatest⟩

/-- A row was seen at the extremes of some times, and where there is no row there are none. -/
def Seen (all tops : List Nat) : Option Row → Prop
  | none => all = [] ∧ tops = []
  | some row => IsGreatest {t | t ∈ all} row.lastSeen ∧ IsLeast {t | t ∈ tops} row.firstSeen

/-- A row that a batch has written was seen at the extremes of one more time. -/
theorem Seen.written {all tops ts : List Nat} {row' : Row} (h : Seen all tops row?) (hts : ts ≠ [])
    (hlast : row'.lastSeen = row?.elim (greatest ts) fun row => max row.lastSeen (greatest ts))
    (hfirst : row'.firstSeen = row?.elim (greatest ts) fun row => min row.firstSeen (greatest ts)) :
  Seen (all ++ ts) (tops ++ [greatest ts]) (some row')
  := by
  have happend : ∀ l l' : List Nat, {t | t ∈ l ++ l'} = {t | t ∈ l} ∪ {t | t ∈ l'} := by
    intro l l'
    ext t
    simp
  have hone : {t | t ∈ [greatest ts]} = {greatest ts} := by
    ext t
    simp
  rw [Seen, hlast, hfirst]
  cases row? with
  | none =>
      obtain ⟨rfl, rfl⟩ := h
      rw [List.nil_append, List.nil_append, hone]
      exact ⟨isGreatest_greatest hts, isLeast_singleton⟩
  | some row =>
      obtain ⟨hall, htops⟩ := h
      rw [happend, happend, hone]
      exact ⟨hall.union (isGreatest_greatest hts), htops.union isLeast_singleton⟩

/-- What a batch leaves of a row was seen at the extremes of what was applied. -/
theorem Batch.seen_outcomeAt (b : Batch) (key : Address) {all tops : List Nat}
    (h : Seen all tops row?) :
  (b.toApply key row? = none → Seen all tops (b.outcomeAt key row?)) ∧
    ∀ d, b.toApply key row? = some d →
      Seen (all ++ (b.pendingFor key row?).map (·.time))
        (tops ++ [greatest ((b.pendingFor key row?).map (·.time))]) (b.outcomeAt key row?)
  := by
  have hnil : ∀ d, b.toApply key row? = some d → (b.pendingFor key row?).map (·.time) ≠ [] := by
    intro d hd
    exact List.map_eq_nil_iff.not.mpr (eq_whole_of_toApply hd).2
  constructor
  · intro hnone
    cases row? with
    | none =>
        have hzero : ((b.pendingFor key none).map (·.change)).sum = 0 :=
          EventLog.total_pendingFor_of_none hnone
        rw [outcomeAt, if_pos hzero]
        exact h
    | some row =>
        rw [outcomeAt, if_pos (pendingFor_eq_nil_iff.mpr (toApply_eq_none_iff.mp hnone))]
        split
        · exact h
        · exact h
  · intro d hd
    obtain ⟨rfl, hne⟩ := eq_whole_of_toApply hd
    cases row? with
    | none =>
        have hzero : ((b.pendingFor key none).map (·.change)).sum ≠ 0 := change_ne_zero hd
        rw [outcomeAt, if_neg hzero]
        exact h.written (hnil _ hd) rfl rfl
    | some row =>
        rw [outcomeAt, if_neg hne]
        exact h.written (hnil _ hd) rfl rfl

/-- Whatever batches of a partition that is alone are processed, every row was seen at the
extremes of what they have applied. -/
theorem Feeds.seen (h : Feeds policy parties p .empty fs rows) (key : Address) :
  Seen (appliedTimes key fs) (batchTimes key fs) (rows.get? key)
  := by
  induction h with
  | start => exact ⟨rfl, rfl⟩
  | @feed fs rs rows state r s' h hp hexec hcalm haccepts ih =>
      obtain ⟨hkeyed, hsole⟩ := h.alone keyed_empty (sole_empty p)
      rw [appliedTimes_concat]
      by_cases hno : ∃ b, Batch.ofRecords rs = .ok (some b)
      · obtain ⟨b, hrs⟩ := hno
        obtain ⟨-, -, hrows⟩ := Batch.done_of_loose hrs hkeyed
          (Batch.not_stuck_of_sole (Batch.partition_of_ofRecords hrs hp) hsole) hexec hcalm
          (haccepts b hrs)
        obtain ⟨hidle, hwritten⟩ := b.seen_outcomeAt key ih
        rw [hrows key]
        cases hd : b.toApply key (rows.get? key) with
        | none =>
            have happlied : Feed.applied key ⟨rs, rows⟩ = [] := Feed.applied_of_none hrs hd
            rw [batchTimes_concat_of_idle happlied, happlied, List.map_nil, List.append_nil]
            exact hidle hd
        | some d =>
            have happlied : Feed.applied key ⟨rs, rows⟩ = b.pendingFor key (rows.get? key) :=
              Feed.applied_of_some hrs hd
            rw [batchTimes_concat (happlied ▸ (Batch.eq_whole_of_toApply hd).2), happlied]
            exact hwritten d hd
      · have happlied : Feed.applied key ⟨rs, rows⟩ = [] :=
          Feed.applied_of_nothing fun b hb => hno ⟨b, hb⟩
        rw [batchTimes_concat_of_idle happlied, happlied, List.map_nil, List.append_nil,
          (Batch.process_nothing (fun b hb => hno ⟨b, hb⟩) hexec).1]
        exact ih

/-- Batches of a partition are processed one after another from an empty store on, while no call
is lost, nothing overflows and the log accepts every batch.  Then every row was last seen at the
latest time of all deltas applied to it, and first seen at the earliest of the latest times of
the batches.  That is the earliest time of all deltas exactly if some batch has applied none but
deltas of that time. -/
theorem times_of_row (h : Feeds policy parties p .empty fs rows) {row : Row}
    (hrow : rows.get? key = some row) :
  IsGreatest {t | ∃ f ∈ fs, ∃ d ∈ f.applied key, d.time = t} row.lastSeen ∧
    IsLeast {t | ∃ f ∈ fs, f.applied key ≠ [] ∧ greatest ((f.applied key).map (·.time)) = t}
      row.firstSeen ∧
    (IsLeast {t | ∃ f ∈ fs, ∃ d ∈ f.applied key, d.time = t} row.firstSeen ↔
      ∃ f ∈ fs, f.applied key ≠ [] ∧
        ∀ d ∈ f.applied key, ∀ f' ∈ fs, ∀ d' ∈ f'.applied key, d.time ≤ d'.time)
  := by
  have hseen := h.seen key
  rw [hrow] at hseen
  obtain ⟨hlast, hfirst⟩ := hseen
  simp only [mem_appliedTimes] at hlast
  simp only [mem_batchTimes] at hfirst
  refine ⟨hlast, hfirst, ?_⟩
  constructor
  · intro hleast
    obtain ⟨f, hf, hne, htop⟩ := hfirst.1
    refine ⟨f, hf, hne, ?_⟩
    intro d hd f' hf' d' hd'
    apply Nat.le_trans (le_greatest (List.mem_map_of_mem hd))
    rw [htop]
    exact hleast.2 ⟨f', hf', d', hd', rfl⟩
  · rintro ⟨f, hf, hne, hearliest⟩
    -- the greatest time of this batch is one of its times, so it is the earliest of all
    obtain ⟨d, hd, htime⟩ := List.mem_map.mp (greatest_mem (List.map_eq_nil_iff.not.mpr hne))
    have hle : row.firstSeen ≤ d.time := hfirst.2 ⟨f, hf, hne, htime.symm⟩
    obtain ⟨f', hf', hne', htop⟩ := hfirst.1
    obtain ⟨d', hd', htime'⟩ := List.mem_map.mp (greatest_mem (List.map_eq_nil_iff.not.mpr hne'))
    have hge : d.time ≤ row.firstSeen := by
      rw [← htop, ← htime']
      exact hearliest d hd f' hf' d' hd'
    obtain heq := Nat.le_antisymm hle hge
    constructor
    · exact ⟨f, hf, d, hd, heq.symm⟩
    · rintro t ⟨f'', hf'', d'', hd'', rfl⟩
      rw [heq]
      exact hearliest d hd f'' hf'' d'' hd''

/-! ### Three blocks -/

/-- A block that pays five units at a time. -/
def paid (offset time : Nat) : Record where
  kind := .added
  payload := .block {
    number := 1
    hash := default
    miner := Batch.receiver
    baseReward := 5
    uncleInclusion := 0
    fees := 0
    transactions := 0
    time := time }
  partition := Batch.home
  offset := offset

/-- The batch of the first two blocks. -/
def paidBatch : Batch where
  bounds := ⟨Batch.home, 0, 1, 2⟩
  records := [paid 0 5, paid 1 9]

theorem ofRecords_paid :
  Batch.ofRecords [paid 0 5, paid 1 9] = .ok (some paidBatch)
  := by
  apply Batch.ofRecords_of_ascending
  · decide
  · decide

/-- The row that the first two blocks make, as one batch. -/
def paidRow : Row where
  key := Batch.receiver
  totals := { balance := 10, received := 10, blocks := 2 }
  version := 1
  source := ⟨Batch.home, 1⟩
  settled := true
  firstSeen := 9
  lastSeen := 9

/-- The row after the third block. -/
def paidAgainRow : Row where
  key := Batch.receiver
  totals := { balance := 15, received := 15, blocks := 3 }
  version := 3
  source := ⟨Batch.home, 2⟩
  settled := true
  firstSeen := 7
  lastSeen := 9

/-- Two blocks are processed as one batch, and then a third one. -/
theorem exists_feeds_paid :
  ∃ rows₁ rows₂, Feeds Batch.hasty Batch.acceptsAll Batch.home .empty
      [⟨[paid 0 5, paid 1 9], .empty⟩, ⟨[paid 2 7], rows₁⟩] rows₂ ∧
    rows₁.get? Batch.receiver = some paidRow ∧ rows₂.get? Batch.receiver = some paidAgainRow
  := by
  have hrs' : Batch.ofRecords [paid 2 7] = .ok (some ⟨⟨Batch.home, 2, 2, 1⟩, [paid 2 7]⟩) := by
    apply Batch.ofRecords_of_ascending
    · decide
    · decide
  have hp : ∀ r ∈ [paid 0 5, paid 1 9], r.partition = Batch.home := by decide
  have hp' : ∀ r ∈ [paid 2 7], r.partition = Batch.home := by decide
  have hstart : Feeds Batch.hasty Batch.acceptsAll Batch.home .empty [] .empty := .start
  obtain ⟨rows₁, hfeeds₁, hrows₁, hbounded₁⟩ := hstart.exists_feed () hp ofRecords_paid
    keyed_empty (Batch.not_stuck_of_sole rfl (sole_empty _)) rfl Totals.within_zero (v := 0)
    (by rintro key row ⟨⟩) (by decide) (by decide)
  obtain ⟨hkeyed, hsole⟩ := hfeeds₁.alone keyed_empty (sole_empty _)
  obtain ⟨rows₂, hfeeds₂, hrows₂, -⟩ := hfeeds₁.exists_feed () hp' hrs' hkeyed
    (Batch.not_stuck_of_sole rfl hsole) rfl
    (Totals.within_zero.add (Delta.within_total (List.nil_sublist _))) hbounded₁ (by decide)
    (by decide)
  have hrow₁ : rows₁.get? Batch.receiver = some paidRow := by
    rw [hrows₁]
    decide
  refine ⟨rows₁, rows₂, hfeeds₂, hrow₁, ?_⟩
  rw [hrows₂, hrow₁]
  decide

/-- The row of the three blocks was first seen at the time of the third, the earliest of the
latest times of the two batches. -/
theorem three_blocks_are_seen :
  ∃ fs rows, Feeds Batch.hasty Batch.acceptsAll Batch.home .empty fs rows ∧
    rows.get? Batch.receiver = some paidAgainRow ∧
    IsGreatest {t | ∃ f ∈ fs, ∃ d ∈ f.applied Batch.receiver, d.time = t} paidAgainRow.lastSeen ∧
    IsLeast {t | ∃ f ∈ fs, f.applied Batch.receiver ≠ [] ∧
      greatest ((f.applied Batch.receiver).map (·.time)) = t} paidAgainRow.firstSeen ∧
    (IsLeast {t | ∃ f ∈ fs, ∃ d ∈ f.applied Batch.receiver, d.time = t} paidAgainRow.firstSeen ↔
      ∃ f ∈ fs, f.applied Batch.receiver ≠ [] ∧ ∀ d ∈ f.applied Batch.receiver,
        ∀ f' ∈ fs, ∀ d' ∈ f'.applied Batch.receiver, d.time ≤ d'.time)
  := by
  obtain ⟨rows₁, rows₂, hfeeds, -, hrow⟩ := exists_feeds_paid
  exact ⟨_, rows₂, hfeeds, hrow, times_of_row hfeeds hrow⟩

/-- The row of the three blocks was first seen later than the first block, which was applied to
it: how the blocks were cut into batches has hidden the earliest time. -/
theorem first_block_is_not_seen :
  ∃ fs rows row, Feeds Batch.hasty Batch.acceptsAll Batch.home .empty fs rows ∧
    rows.get? Batch.receiver = some row ∧
    ¬ IsLeast {t | ∃ f ∈ fs, ∃ d ∈ f.applied Batch.receiver, d.time = t} row.firstSeen
  := by
  obtain ⟨rows₁, rows₂, hfeeds, -, hrow⟩ := exists_feeds_paid
  refine ⟨_, rows₂, paidAgainRow, hfeeds, hrow, ?_⟩
  intro hleast
  have hfirst : ∃ d ∈ Feed.applied Batch.receiver ⟨[paid 0 5, paid 1 9], .empty⟩, d.time = 5 := by
    rw [Feed.applied_of_some (f := ⟨_, .empty⟩) ofRecords_paid rfl]
    decide
  have hle : paidAgainRow.firstSeen ≤ 5 := hleast.2 ⟨_, .head _, hfirst⟩
  exact absurd hle (by decide)

end ChainLedger
