import ChainLedger.Proofs.System

/-!
# Partitions in each other's way

A batch that no call is lost of is undone exactly if the row of one of its addresses is in
doubt under another partition at an offset that is not acknowledged.  Such a partition has
pending records itself, so partitions can only be in the way of each other.  Two of them can:
each may hold a row that the other one needs, and then neither is ever committed.
-/

namespace ChainLedger

open Prog

namespace Site

variable {policy : Policy} {s : Site EventLog} {p q : Partition} {maxBatch : Nat}
  {rs : List Record} {b : Batch}

/-- The partition has records that are not acknowledged. -/
def Pending (s : Site EventLog) (p : Partition) : Prop := 0 < s.log.lag p

/-- Nothing overflows while the next batch of the partition is processed. -/
def Fits (s : Site EventLog) (policy : Policy) (p : Partition) (maxBatch : Nat) : Prop :=
  ∀ rs b, s.log.poll p maxBatch = .ok rs → Batch.ofRecords rs = .ok (some b) →
    b.Fits policy.takeover s.log.latestOffset s.rows

/-- The next batch of the partition can be processed without a lost call, and however its
jobs run then, it has an outcome of the kind. -/
def Delivers (s : Site EventLog) (policy : Policy) (p : Partition) (maxBatch : Nat)
    (kind : Outcome → Bool) : Prop :=
  ∃ rs, s.log.poll p maxBatch = .ok rs ∧
    (∃ r s', Exec (BatchAnswers False (EventLog.parties p)) s (Batch.process policy rs) r s') ∧
    ∀ r s', Exec (BatchAnswers False (EventLog.parties p)) s (Batch.process policy rs) r s' →
      ∃ o, r = .ok (.ok o) ∧ kind o = true

/-- The row of the address is in doubt under the partition, at an offset that is not
acknowledged. -/
def Holds (s : Site EventLog) (q : Partition) (key : Address) : Prop :=
  ∃ row, s.rows.get? key = some row ∧ row.settled = false ∧ row.source.partition = q ∧
    (s.log.partition q).firstPending ≤ row.source.offset

/-- Another partition holds the row of an address that the next batch changes. -/
def WaitsFor (s : Site EventLog) (maxBatch : Nat) (p q : Partition) : Prop :=
  q ≠ p ∧ ∃ rs, s.log.poll p maxBatch = .ok rs ∧ ∃ key ∈ Record.keys rs, s.Holds q key

/-- A partition that holds a row has pending records: at least the one that wrote the row. -/
theorem Sound.pending_of_holds (h : Sound s) {key : Address} (hholds : s.Holds q key) :
  s.Pending q
  := by
  obtain ⟨row, hrow, -, rfl, hle⟩ := hholds
  have hlt := (h.accounts key).reached row hrow
  change 0 < (s.log.partition _).records.length - (s.log.partition _).firstPending
  omega

/-- A row is held against the partition exactly if another partition holds it. -/
theorem blocked_iff {key : Address} :
  Blocked .past s.log.latestOffset p (s.rows.get? key) ↔ ∃ q ≠ p, s.Holds q key
  := by
  cases hrow : s.rows.get? key with
  | none =>
      constructor
      · intro hblocked
        apply hblocked.elim
      · rintro ⟨q, -, row, hrow', -⟩
        rw [hrow] at hrow'
        cases hrow'
  | some row =>
      have hallows := s.log.past_allows_iff row.source.partition row.source.offset
      constructor
      · rintro ⟨⟨hsettled, hp⟩, hnot⟩
        refine ⟨_, hp, row, hrow, by simpa using hsettled, rfl, ?_⟩
        rw [hnot] at hallows
        simpa using hallows
      · rintro ⟨q, hq, row', hrow', hsettled, rfl, hle⟩
        obtain rfl := Option.some.inj (hrow.symm.trans hrow')
        refine ⟨⟨by simp [hsettled], hq⟩, ?_⟩
        rw [← Bool.not_eq_true, hallows]
        omega

/-- The next batch is stuck exactly if it waits for a partition. -/
theorem stuck_iff (hpoll : s.log.poll p maxBatch = .ok rs)
    (hrs : Batch.ofRecords rs = .ok (some b)) (hpartition : b.bounds.partition = p) :
  b.Stuck .past s.log.latestOffset s.rows ↔ ∃ q, s.WaitsFor maxBatch p q
  := by
  have hkeys : ∀ key, key ∈ b.keys ↔ key ∈ Record.keys rs := by
    intro key
    rw [Batch.keys, Record.keys, Record.keys, Delta.mem_keys_iff, Delta.mem_keys_iff]
    simp only [((Batch.collects_of_ofRecords hrs).perm.flatMap_right Record.deltas).mem_iff]
  rw [Batch.Stuck, hpartition]
  simp only [blocked_iff, hkeys]
  constructor
  · rintro ⟨key, hkey, q, hq, hholds⟩
    exact ⟨q, hq, rs, hpoll, key, hkey, hholds⟩
  · rintro ⟨q, hq, rs', hpoll', key, hkey, hholds⟩
    rw [hpoll] at hpoll'
    cases hpoll'
    exact ⟨key, hkey, q, hq, hholds⟩

/-- Of a partition with pending records, the next batch is committed if it waits for no
partition, and undone if it waits for one. -/
theorem Sound.delivers (h : Sound s) (hrule : policy.takeover = .past)
    (hfail : s.log.failNext = false) (hpending : s.Pending p)
    (hfits : s.Fits policy p maxBatch) :
  ((∀ q, ¬ s.WaitsFor maxBatch p q) → s.Delivers policy p maxBatch Outcome.isCommitted)
    ∧ ((∃ q, s.WaitsFor maxBatch p q) → s.Delivers policy p maxBatch Outcome.isReverted)
  := by
  obtain ⟨rs, b, hpoll, hrs⟩ := h.log.exists_polled hpending maxBatch
  have hpolled := h.log.polled hpoll hrs
  have hfits := hfits rs b hpoll hrs
  have hstuck := stuck_iff hpoll hrs hpolled.partition
  have hfaultless : ∀ r s', Exec (BatchAnswers False (EventLog.parties p)) s
      (Batch.process policy rs) r s' → b.Faultless policy (EventLog.parties p) s r s' :=
    fun r s' hexec => (Batch.process_processed hrs h.keyed hexec).2 id
  have hexists := exists_exec (exists_batchAnswers (EventLog.parties p)) s
    (Batch.process policy rs)
  rw [← hrule] at hstuck
  constructor
  · intro hfree
    refine ⟨rs, hpoll, hexists, ?_⟩
    intro r s' hexec
    have hloose : ¬ b.Stuck policy.takeover s.log.latestOffset s.rows := by
      rw [hstuck]
      rintro ⟨q, hq⟩
      apply hfree q hq
    obtain ⟨-, ⟨applied, finalized, rfl⟩, -⟩ := (hfaultless r s' hexec).committed hloose hfits
      (hpolled.of_acknowledge hfail).1
    exact ⟨_, rfl, rfl⟩
  · intro hwaits
    refine ⟨rs, hpoll, hexists, ?_⟩
    intro r s' hexec
    obtain ⟨-, locked, restored, rfl, -⟩ :=
      (hfaultless r s' hexec).reverted (hstuck.mpr hwaits) hfits
    exact ⟨_, rfl, rfl⟩

/-- A batch is not both committed and undone. -/
theorem Delivers.not_reverts (h : s.Delivers policy p maxBatch Outcome.isCommitted) :
  ¬ s.Delivers policy p maxBatch Outcome.isReverted
  := by
  rintro ⟨rs', hpoll', -, hreverts⟩
  obtain ⟨rs, hpoll, ⟨r, s', hexec⟩, hcommits⟩ := h
  rw [hpoll] at hpoll'
  cases hpoll'
  obtain ⟨o, rfl, hcommitted⟩ := hcommits r s' hexec
  obtain ⟨o', ho, hreverted⟩ := hreverts _ s' hexec
  cases ho
  cases o with
  | empty => cases hcommitted
  | committed => cases hreverted
  | reverted => cases hcommitted

/-! ### Two partitions that wait for each other -/

/-- Of the log of two transfers, just their partitions have pending records. -/
theorem pending_transferLog_iff (hpq : p ≠ q) {rows : Table Address Row} {r : Partition} :
  Pending ⟨rows, transferLog p q⟩ r ↔ r = p ∨ r = q
  := by
  change 0 < ((transferLog p q).partition r).lag ↔ _
  rw [EventLog.partition, get?_transferLog hpq]
  split
  · next hr => exact iff_of_true Nat.one_pos hr
  · next hr => exact iff_of_false (Nat.lt_irrefl 0) hr

/-- What a poll of the log of two transfers gives. -/
theorem eq_of_poll_transferLog (hpq : p ≠ q) {r : Partition}
    (hpoll : (transferLog p q).poll r maxBatch = .ok rs)
    (hrs : Batch.ofRecords rs = .ok (some b)) :
  (r = p ∨ r = q) ∧ rs = [Batch.transfer r] ∧ b = Batch.transferBatch r
  := by
  have hr : r = p ∨ r = q := by
    apply Classical.byContradiction
    intro hr
    rw [EventLog.poll, get?_transferLog hpq, if_neg hr] at hpoll
    cases hpoll
  rw [poll_transferLog hpq hr] at hpoll
  cases hpoll
  rw [Batch.ofRecords_transfer] at hrs
  cases hrs
  exact ⟨hr, rfl, rfl⟩

section

variable {rows : Table Address Row} (hpq : p ≠ q)
  (hsender : rows.get? Batch.sender = (Batch.transferBatch p).writtenAt Batch.sender none)
  (hreceiver : rows.get? Batch.receiver = (Batch.transferBatch q).writtenAt Batch.receiver none)

include hpq

theorem firstPending_transferLog (r : Partition) :
  ((transferLog p q).partition r).firstPending = 0
  := by
  rw [EventLog.partition, get?_transferLog hpq]
  split
  · rfl
  · rfl

include hsender in
theorem holds_sender :
  Holds ⟨rows, transferLog p q⟩ p Batch.sender
  := ⟨_, hsender, rfl, rfl, Nat.le_of_eq (firstPending_transferLog hpq p)⟩

include hreceiver in
theorem holds_receiver :
  Holds ⟨rows, transferLog p q⟩ q Batch.receiver
  := ⟨_, hreceiver, rfl, rfl, Nat.le_of_eq (firstPending_transferLog hpq q)⟩

include hsender hreceiver

/-- If each of the two partitions holds one of the rows, each waits for the other. -/
theorem exists_waitsFor {r : Partition} (hr : r = p ∨ r = q) (maxBatch : Nat) :
  ∃ r', WaitsFor ⟨rows, transferLog p q⟩ maxBatch r r'
  := by
  have hpoll := poll_transferLog hpq hr maxBatch
  rcases hr with rfl | rfl
  · exact ⟨q, hpq.symm, _, hpoll, _, Batch.mem_keys_transferBatch.mpr (.inr rfl),
      holds_receiver hpq hreceiver⟩
  · exact ⟨p, hpq, _, hpoll, _, Batch.mem_keys_transferBatch.mpr (.inl rfl),
      holds_sender hpq hsender⟩

/-- If each of the two partitions holds one of the rows, nothing overflows. -/
theorem fits_of_crossed (hrule : policy.takeover = .past) (r : Partition) (maxBatch : Nat) :
  Fits ⟨rows, transferLog p q⟩ policy r maxBatch
  := by
  intro rs b hpoll hrs
  obtain ⟨hr, rfl, rfl⟩ := eq_of_poll_transferLog hpq hpoll hrs
  have hb := Batch.collects_of_ofRecords hrs
  rw [hrule]
  constructor
  · intro key
    apply Batch.summable_transfer
  · -- an address has nothing left to apply, or is held
    intro key d hd hfree
    have hdone : ∀ key, (Batch.transferBatch r).toApply key
        ((Batch.transferBatch r).writtenAt key none) = none :=
      fun key => hb.toApply_writtenAt fun d _ => ⟨_, rfl⟩
    have hkey := Batch.mem_keys_transferBatch.mp (hb.of_toApply hd).2.1
    apply absurd hfree
    apply not_not_intro
    apply blocked_iff.mpr
    rcases hr with rfl | rfl
    · rcases hkey with rfl | rfl
      · rw [hsender, hdone] at hd
        cases hd
      · exact ⟨q, hpq.symm, holds_receiver hpq hreceiver⟩
    · rcases hkey with rfl | rfl
      · exact ⟨p, hpq, holds_sender hpq hsender⟩
      · rw [hreceiver, hdone] at hd
        cases hd
  · intro hloose
    apply absurd _ hloose
    apply (stuck_iff hpoll hrs rfl).mpr
    apply exists_waitsFor hpq hsender hreceiver hr

end

/-- Two partitions may come to wait for each other. -/
theorem exists_waiting (hrule : policy.takeover = .past) (hpq : p ≠ q) :
  ∃ s : Site EventLog, Reachable policy s ∧ s.log.failNext = false ∧ s.Pending p ∧
    (∀ r maxBatch, s.Fits policy r maxBatch) ∧
    ∀ r maxBatch, s.Pending r → ∃ r', s.WaitsFor maxBatch r r'
  := by
  obtain ⟨rows, hreachable, hsender, hreceiver, -⟩ := exists_crossed policy hpq
  refine ⟨_, hreachable, rfl, ?_, ?_, ?_⟩
  · apply (pending_transferLog_iff hpq).mpr (.inl rfl)
  · apply fits_of_crossed hpq hsender hreceiver hrule
  · intro r maxBatch hr
    apply exists_waitsFor hpq hsender hreceiver
    apply (pending_transferLog_iff hpq).mp hr

/-! ### Who gets on -/

/-- Let no call be lost any more and nothing overflow.  Of a partition with pending records the
next batch is committed or undone.  That of some partition is committed exactly if some
partition with pending records waits for no other one that has such records.  So it is whenever
all rows held are held by a single partition, but it need not be if there are two. -/
theorem some_commits_iff (hrule : policy.takeover = .past) (h : Reachable policy s)
    (hfail : s.log.failNext = false) (maxBatch : Partition → Nat)
    (hfits : ∀ p, s.Fits policy p (maxBatch p)) :
  (∀ p, s.Pending p → s.Delivers policy p (maxBatch p) Outcome.isCommitted ∨
      s.Delivers policy p (maxBatch p) Outcome.isReverted)
    ∧ ((∃ p, s.Pending p ∧ s.Delivers policy p (maxBatch p) Outcome.isCommitted) ↔
      ∃ p, s.Pending p ∧ ∀ q, s.Pending q → ¬ s.WaitsFor (maxBatch p) p q)
    ∧ ((∃ p, s.Pending p) → (∀ q q' key key', s.Holds q key → s.Holds q' key' → q = q') →
      ∃ p, s.Pending p ∧ s.Delivers policy p (maxBatch p) Outcome.isCommitted)
  := by
  have hsound := h.sound hrule
  have hdelivers := fun p hp => hsound.delivers hrule hfail hp (hfits p)
  have hpending : ∀ p q, s.WaitsFor (maxBatch p) p q → s.Pending q := by
    rintro p q ⟨-, -, -, key, -, hholds⟩
    apply hsound.pending_of_holds hholds
  refine ⟨?_, ?_, ?_⟩
  · intro p hp
    by_cases hwaits : ∃ q, s.WaitsFor (maxBatch p) p q
    · exact .inr ((hdelivers p hp).2 hwaits)
    · exact .inl ((hdelivers p hp).1 fun q hq => hwaits ⟨q, hq⟩)
  · constructor
    · rintro ⟨p, hp, hcommits⟩
      refine ⟨p, hp, ?_⟩
      intro q _ hwaits
      apply hcommits.not_reverts ((hdelivers p hp).2 ⟨q, hwaits⟩)
    · rintro ⟨p, hp, hfree⟩
      refine ⟨p, hp, (hdelivers p hp).1 ?_⟩
      intro q hwaits
      apply hfree q (hpending p q hwaits) hwaits
  · rintro ⟨p, hp⟩ hone
    by_cases hwaits : ∃ q, s.WaitsFor (maxBatch p) p q
    · -- the one partition that holds rows waits for nobody
      obtain ⟨q, hq⟩ := hwaits
      have hqpending := hpending p q hq
      obtain ⟨-, -, -, key, -, hholds⟩ := hq
      refine ⟨q, hqpending, (hdelivers q hqpending).1 ?_⟩
      rintro q' ⟨hne, -, -, key', -, hholds'⟩
      apply hne (hone q' q key' key hholds' hholds)
    · exact ⟨p, hp, (hdelivers p hp).1 fun q hq => hwaits ⟨q, hq⟩⟩

/-- When two partitions wait for each other, none is committed. -/
theorem waiting_none_commits :
  ∃ s : Site EventLog, Reachable ⟨2, 4, 10, 1000, .past⟩ s ∧
    (∃ p, s.Pending p) ∧
    ¬ ∃ p, s.Pending p ∧ s.Delivers ⟨2, 4, 10, 1000, .past⟩ p 1 Outcome.isCommitted
  := by
  obtain ⟨s, hreachable, hfail, hpending, hfits, hwaits⟩ :=
    @exists_waiting ⟨2, 4, 10, 1000, .past⟩ ⟨"T", 0⟩ ⟨"T", 1⟩ rfl (by decide)
  refine ⟨s, hreachable, ⟨_, hpending⟩, ?_⟩
  rw [(some_commits_iff rfl hreachable hfail (fun _ => 1) fun p => hfits p 1).2.1]
  rintro ⟨p, hp, hfree⟩
  obtain ⟨q, hq⟩ := hwaits p 1 hp
  obtain ⟨-, -, -, key, -, hholds⟩ := id hq
  apply hfree q ((hreachable.sound rfl).pending_of_holds hholds) hq

/-- Not every reachable site gets on: there is one, with pending records, where the next batch
of every partition with such records is undone, however long it is, although no call is lost
and nothing overflows. -/
theorem not_every_site_gets_on :
  ¬ ∀ s : Site EventLog, Reachable ⟨2, 4, 10, 1000, .past⟩ s → s.log.failNext = false →
    (∀ p maxBatch, s.Fits ⟨2, 4, 10, 1000, .past⟩ p maxBatch) → (∃ p, s.Pending p) →
    ∃ p maxBatch, s.Pending p ∧
      s.Delivers ⟨2, 4, 10, 1000, .past⟩ p maxBatch Outcome.isCommitted
  := by
  intro hgets
  obtain ⟨s, hreachable, hfail, hpending, hfits, hwaits⟩ :=
    @exists_waiting ⟨2, 4, 10, 1000, .past⟩ ⟨"T", 0⟩ ⟨"T", 1⟩ rfl (by decide)
  obtain ⟨p, maxBatch, hp, hcommits⟩ := hgets s hreachable hfail hfits ⟨_, hpending⟩
  apply hcommits.not_reverts
  exact ((hreachable.sound rfl).delivers rfl hfail hp (hfits p maxBatch)).2 (hwaits p maxBatch hp)

end Site

end ChainLedger
