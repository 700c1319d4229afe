import ChainLedger.Proofs.Accounts
import ChainLedger.Proofs.Attempts
import ChainLedger.Proofs.Reference
import ChainLedger.Proofs.Stages

/-!
# A site over time

From no rows and no records, records are appended and polled batches are processed, in any
order and with any calls lost.  Every step keeps the log's account of every row: the totals
of a row are the changes of just the records that count for it.  So no acknowledged record
is lost, and none is counted twice.
-/

namespace ChainLedger

open Prog

/-- The log in memory, as the consumer of a partition uses it. -/
def EventLog.parties (p : Partition) : Parties EventLog where
  latestOffset := EventLog.latestOffset
  acknowledge log b := log.acknowledgeAs p b

namespace Site

/-- A step of a site, in which calls may be lost. -/
inductive Step (policy : Policy) : Site EventLog → Site EventLog → Prop
  /-- A record is appended to a partition. -/
  | append (s : Site EventLog) (p : Partition) (kind : Kind) (payload : Payload) :
      Step policy s { s with log := s.log.append p kind payload }
  /-- A partition is polled, and the records are processed. -/
  | deliver {s s' : Site EventLog} {p : Partition} {maxBatch : Nat} {rs : List Record}
      {r : Except Fault (Except Failure Outcome)} (hpoll : s.log.poll p maxBatch = .ok rs)
      (hexec : Exec (BatchAnswers True (EventLog.parties p)) s (Batch.process policy rs) r s') :
      Step policy s s'

/-- There are no rows and no records. -/
structure Fresh (s : Site EventLog) : Prop where
  rows : s.rows = .empty
  log : ∀ p, s.log.partition p = {}

/-- Some steps lead from a fresh site to this one. -/
def Reachable (policy : Policy) (s : Site EventLog) : Prop :=
  ∃ s₀, Fresh s₀ ∧ Relation.ReflTransGen (Step policy) s₀ s

/-- The log is sound and accounts for the rows of all addresses. -/
structure Sound (s : Site EventLog) : Prop where
  log : s.log.Sound
  keyed : Keyed s.rows
  accounts : ∀ key, s.log.Accounts key (s.rows.get? key)

variable {policy : Policy} {s s' : Site EventLog} {p : Partition} {rs : List Record} {b : Batch}

/-! ### What every step keeps -/

theorem Fresh.sound (h : Fresh s) :
  Sound s
  := by
  constructor
  · exact EventLog.sound_of_empty h.log
  · intro key row hrow
    rw [h.rows] at hrow
    cases hrow
  · intro key
    rw [h.rows]
    constructor
    · rintro _ ⟨⟩
    · rintro _ ⟨⟩
    · have hterm : ∀ p, s.log.changes key p (s.log.counted none p) = 0 := by
        intro p
        rw [EventLog.changes, h.log, List.take_nil]
        rfl
      change 0 = s.log.account key none
      rw [EventLog.account]
      simp only [hterm]
      apply Eq.symm
      apply List.sum_eq_zero
      simp

/-- The log accounts for a row that a polled batch writes. -/
theorem Sound.accounts_written (h : Sound s) (hrule : policy.takeover = .past)
    (hpolled : s.log.Polled p rs b) {key : Address}
    (hkey : b.Writes policy.takeover s.log.latestOffset key (s.rows.get? key)) :
  s.log.Accounts key (b.writtenAt key (s.rows.get? key))
  := by
  rw [hrule] at hkey
  apply hpolled.accounts_written h.log (h.accounts key) hkey

/-- When a polled batch has written all its rows, the log accounts for them, and there is
nothing left to apply. -/
theorem Sound.accounts_all (h : Sound s) (hrule : policy.takeover = .past)
    (hpolled : s.log.Polled p rs b) {rows₁ : Table Address Row}
    (hall : ∀ key d, b.toApply key (s.rows.get? key) = some d →
      b.Writes policy.takeover s.log.latestOffset key (s.rows.get? key))
    (hwritten : ∀ key, rows₁.get? key = b.writtenAt key (s.rows.get? key)) (key : Address) :
  s.log.Accounts key (rows₁.get? key) ∧ b.toApply key (rows₁.get? key) = none
  := by
  rw [hwritten]
  constructor
  · cases hd : b.toApply key (s.rows.get? key) with
    | none =>
        rw [Batch.writtenAt, hd]
        apply h.accounts key
    | some d => apply h.accounts_written hrule hpolled (hall key d hd)
  · apply hpolled.collects.toApply_writtenAt
    intro d hd
    obtain ⟨-, d', row', hd', hrow'⟩ := hall key d hd
    rw [hd'] at hd
    cases hd
    exact ⟨row', hrow'⟩

/-- Settling rows at acknowledged positions keeps the account. -/
theorem accounts_of_settled {log : EventLog} {rows₁ rows₂ : Table Address Row}
    (haccounts : ∀ key, log.Accounts key (rows₁.get? key))
    (hpast : ∀ key row, b.InDoubt key (rows₁.get? key) → rows₁.get? key = some row →
      row.source.offset < (log.partition row.source.partition).firstPending)
    (hsettled : rows₂ = rows₁ ∨
      Partly (fun key => b.InDoubt key (rows₁.get? key)) (Row.finalAt rows₁) rows₁ rows₂)
    (key : Address) :
  log.Accounts key (rows₂.get? key)
  := by
  rcases hsettled with rfl | hpartly
  · apply haccounts key
  · rcases hpartly key with hkept | ⟨hdoubt, hfinal⟩
    · rw [hkept]
      apply haccounts key
    · obtain ⟨-, row, hrow, -⟩ := id hdoubt
      have haccount := haccounts key
      rw [hfinal, Row.finalAt]
      rw [hrow] at haccount ⊢
      apply haccount.final (hpast key row hdoubt hrow)

/-- What a polled batch does, whatever calls are lost, keeps a site sound. -/
theorem Sound.effect (h : Sound s) (hrule : policy.takeover = .past)
    (hpolled : s.log.Polled p rs b) (heffect : b.Effect policy (EventLog.parties p) s s') :
  Sound s'
  := by
  have hkeyed := heffect.keyed hpolled.collects h.keyed
  cases heffect with
  | unacknowledged hlog hrows =>
      refine ⟨by rw [hlog]; apply h.log, hkeyed, ?_⟩
      intro key
      rw [hlog]
      rcases hrows key with hkept | ⟨hkey, hwritten⟩
      · rw [hkept]
        apply h.accounts key
      · rw [hwritten]
        apply h.accounts_written hrule hpolled hkey
  | @acknowledged rows₁ hlog hall hwritten hsettled =>
      have haccounts := h.accounts_all hrule hpolled hall hwritten
      change s'.log = (s.log.acknowledgeAs p b.bounds).1 at hlog
      change s'.rows = rows₁ ∨ (s.log.acknowledgeAs p b.bounds).2 = .ok () ∧ _ at hsettled
      cases hfail : s.log.failNext with
      | true =>
          obtain ⟨hrefused, hpartitions⟩ := hpolled.of_acknowledge_failing hfail
          rw [← hlog] at hpartitions
          have hrows := hsettled.resolve_right fun hok => hrefused hok.1
          refine ⟨h.log.congr hpartitions, hkeyed, ?_⟩
          intro key
          rw [hrows]
          apply (haccounts key).1.congr hpartitions
      | false =>
          obtain ⟨-, hadvances⟩ := hpolled.of_acknowledge hfail
          rw [← hlog] at hadvances
          refine ⟨h.log.advanced hadvances hpolled.last, hkeyed, ?_⟩
          apply accounts_of_settled _ _ (hsettled.imp_right And.right)
          · intro key
            apply hpolled.accounts_advanced h.log hadvances (haccounts key).1 (haccounts key).2
          · rintro key row ⟨-, row', hrow', -, hcontains⟩ hrow
            obtain rfl := Option.some.inj (hrow'.symm.trans hrow)
            rw [hcontains.1, hpolled.partition, hadvances.here]
            apply Nat.lt_succ_of_le hcontains.2.2

/-- Every step keeps a site sound. -/
theorem Step.sound (hstep : Step policy s s') (hrule : policy.takeover = .past) (h : Sound s) :
  Sound s'
  := by
  cases hstep with
  | append p kind payload =>
      constructor
      · apply h.log.append
      · apply h.keyed
      · intro key
        apply (h.accounts key).append h.log
  | @deliver _ p maxBatch rs r hpoll hexec =>
      by_cases hbatch : ∃ b, Batch.ofRecords rs = .ok (some b)
      · obtain ⟨b, hrs⟩ := hbatch
        apply h.effect hrule (h.log.polled hpoll hrs)
        apply (Batch.process_processed hrs h.keyed hexec).1
      · have hnothing := Batch.process_nothing (fun b hb => hbatch ⟨b, hb⟩) hexec
        rw [hnothing.1]
        apply h

/-- Every reachable site is sound. -/
theorem Reachable.sound (h : Reachable policy s) (hrule : policy.takeover = .past) :
  Sound s
  := by
  obtain ⟨s₀, hfresh, hsteps⟩ := h
  induction hsteps with
  | refl => apply hfresh.sound
  | tail _ hstep ih => apply hstep.sound hrule ih

/-! ### Two transfers -/

/-- The log of two partitions, each with the transfer as its only record. -/
def transferLog (p q : Partition) : EventLog :=
  (({} : EventLog).append p .added (Batch.transfer p).payload).append q .added
    (Batch.transfer q).payload

theorem get?_transferLog {p q : Partition} (hpq : p ≠ q) (r : Partition) :
  (transferLog p q).partitions.get? r
    = if r = p ∨ r = q then some { records := [Batch.transfer r] } else none
  := by
  rw [transferLog, EventLog.append, Table.get?_insert]
  by_cases hq : r = q
  · subst hq
    simp [EventLog.partition, EventLog.append, EventLog.nextOffset, hpq.symm]
    rfl
  · simp only [hq, or_false, if_false, EventLog.append, Table.get?_insert]
    split
    · next hp =>
        subst hp
        rfl
    · rfl

/-- A poll of either partition delivers its transfer. -/
theorem poll_transferLog {p q : Partition} (hpq : p ≠ q) {r : Partition} (hr : r = p ∨ r = q)
    (maxBatch : Nat) :
  (transferLog p q).poll r maxBatch = .ok [Batch.transfer r]
  := by
  rw [EventLog.poll, get?_transferLog hpq, if_pos hr]
  apply congrArg Except.ok
  apply List.take_of_length_le
  apply Nat.le_max_right

/-- An attempt at the transfer of a partition may make the row of one of its two addresses and
fail at the other. -/
theorem exists_step_transfer (policy : Policy) {log : EventLog} {rows : Table Address Row}
    {p : Partition} (hpoll : log.poll p 1 = .ok [Batch.transfer p]) (hkeyed : Keyed rows)
    {key other : Address} (hkey : key = Batch.sender ∨ key = Batch.receiver)
    (hnone : rows.get? key = none) (hother : other ≠ key)
    (hrest : ∃ d, (Batch.transferBatch p).toApply other (rows.get? other) = some d) :
  ∃ rows₁, Step policy ⟨rows, log⟩ ⟨rows₁, log⟩ ∧
    Wholly (· = key) (fun k => (Batch.transferBatch p).writtenAt k (rows.get? k)) rows rows₁
  := by
  have hwrites : ∀ k, k = key → (Batch.transferBatch p).Writes policy.takeover
      log.latestOffset k (rows.get? k) := by
    rintro k rfl
    rw [hnone]
    rcases hkey with rfl | rfl
    · exact ⟨id, _, _, rfl, rfl⟩
    · exact ⟨id, _, _, rfl, rfl⟩
  obtain ⟨d, hd⟩ := hrest
  obtain ⟨rows₁, hexec, hwholly⟩ := @Batch.exists_attempt (Batch.transferBatch p)
    [Batch.transfer p] policy (· = key) EventLog (EventLog.parties p) ⟨rows, log⟩
    Batch.ofRecords_transfer hkeyed (fun k => Batch.summable_transfer k _) hwrites
    ⟨other, d, hd, hother⟩
  exact ⟨rows₁, .deliver hpoll hexec, hwholly⟩

/-- With the same transfer in two partitions, each may come to hold one of the two rows: an
attempt at the first has written only the row of the address that pays, and one at the second
only that of the address that is paid. -/
theorem exists_crossed (policy : Policy) {p q : Partition} (hpq : p ≠ q) :
  ∃ rows, Reachable policy ⟨rows, transferLog p q⟩ ∧
    rows.get? Batch.sender = (Batch.transferBatch p).writtenAt Batch.sender none ∧
    rows.get? Batch.receiver = (Batch.transferBatch q).writtenAt Batch.receiver none ∧
    ∀ key, key ≠ Batch.sender → key ≠ Batch.receiver → rows.get? key = none
  := by
  have hne : Batch.receiver ≠ Batch.sender := by decide
  have happended : Relation.ReflTransGen (Step policy) ⟨.empty, {}⟩ ⟨.empty, transferLog p q⟩ :=
    .tail (.single (.append _ p .added _)) (.append _ q .added _)
  -- the first attempt
  have hempty : Keyed .empty := by rintro _ _ ⟨⟩
  obtain ⟨rows₁, hfirst, hwholly₁⟩ := exists_step_transfer policy
    (poll_transferLog hpq (.inl rfl) 1) hempty (.inl rfl) rfl hne ⟨_, rfl⟩
  have hsender : rows₁.get? Batch.sender
      = (Batch.transferBatch p).writtenAt Batch.sender none := hwholly₁.changed _ rfl
  have hnone : ∀ key, key ≠ Batch.sender → rows₁.get? key = none := hwholly₁.others
  -- the second attempt
  have hkeyed : Keyed rows₁ := by
    intro key row hrow
    by_cases hkey : key = Batch.sender
    · subst hkey
      rw [hsender] at hrow
      cases hrow
      rfl
    · rw [hnone key hkey] at hrow
      cases hrow
  have hheld : Held q (rows₁.get? Batch.sender) := by
    rw [hsender]
    exact ⟨Bool.false_ne_true, hpq⟩
  have hrest := (Batch.collects_of_ofRecords Batch.ofRecords_transfer).toApply_of_held
    (Batch.mem_keys_transferBatch.mpr (.inl rfl)) hheld
  obtain ⟨rows₂, hsecond, hwholly₂⟩ := exists_step_transfer policy
    (poll_transferLog hpq (.inr rfl) 1) hkeyed (.inr rfl) (hnone _ hne) hne.symm hrest
  refine ⟨rows₂, ⟨⟨.empty, {}⟩, ⟨rfl, fun _ => rfl⟩, ?_⟩, ?_, ?_, ?_⟩
  · apply (happended.tail hfirst).tail hsecond
  · rw [hwholly₂.others _ hne.symm]
    apply hsender
  · rw [hwholly₂.changed _ rfl, hnone _ hne]
  · intro key hkey hkey'
    rw [hwholly₂.others _ hkey']
    apply hnone key hkey

/-! ### The account -/

/-- In every reachable site the totals of every row are the changes of just the records that
count for it, and the position of a settled row is acknowledged.  So whatever batches failed,
were undone or were cut in another way when they were delivered again, no acknowledged record
is lost and none is counted twice. -/
theorem account_of_reachable (hrule : policy.takeover = .past) (h : Reachable policy s)
    (key : Address) :
  (s.rows.get? key).elim 0 Row.totals = s.log.account key (s.rows.get? key)
    ∧ ∀ row ∈ s.rows.get? key, row.settled = true →
      ∃ n, s.log.acknowledged row.source.partition = some n ∧ row.source.offset ≤ n
  := by
  have haccounts := (h.sound hrule).accounts key
  refine ⟨haccounts.totals, ?_⟩
  intro row hrow hsettled
  apply EventLog.exists_acknowledged (haccounts.acknowledged row hrow hsettled)

/-- The account of the address that pays, when two partitions hold the rows of the same
transfer: of its one row, only the partition that holds it counts. -/
theorem account_of_crossed_sender :
  ∃ s, Reachable ⟨20, 100, 30, 5000, .past⟩ s ∧
    (∃ row, s.rows.get? Batch.sender = some row ∧ row.settled = false) ∧
    s.log.account Batch.sender (s.rows.get? Batch.sender) = { balance := -5, transfers := 1 }
  := by
  obtain ⟨rows, hreachable, hsender, -⟩ := @exists_crossed ⟨20, 100, 30, 5000, .past⟩
    ⟨"TRANSFERS", 0⟩ ⟨"TRANSFERS", 1⟩ (by decide)
  refine ⟨_, hreachable, ⟨_, hsender, rfl⟩, ?_⟩
  rw [← (account_of_reachable rfl hreachable Batch.sender).1]
  dsimp only
  rw [hsender]
  rfl

end Site

end ChainLedger
