import ChainLedger.Proofs.Stages
import ChainLedger.Proofs.Verdict

/-!
# One partition alone

If only the batches of one partition are ever processed, every row is at a position of
that partition.  Then no row is held by another one, so a batch is never stuck: if no call
is lost, it overflows, is refused by the log, or does all that it is to do.
-/

namespace ChainLedger

open Prog

/-- Every row is at a position of the partition. -/
def Sole (p : Partition) (rows : Table Address Row) : Prop :=
  ∀ key row, rows.get? key = some row → row.source.partition = p

theorem sole_empty (p : Partition) :
  Sole p .empty
  := by
  intro key row hrow
  cases hrow

namespace Batch

variable {Λ : Type} {parties : Parties Λ} {policy : Policy} {rs : List Record} {b : Batch}
  {s s' : Site Λ} {p : Partition}

/-- What a batch leaves of a row of its own partition is a row of its partition. -/
theorem Stage.partition (hb : b.Collects rs) {key : Address} {row? row'? : Option Row}
    (h : b.Stage key row? row'?) (hp : ∀ row ∈ row?, row.source.partition = b.bounds.partition) :
  ∀ row ∈ row'?, row.source.partition = b.bounds.partition
  := by
  cases h with
  | before => exact hp
  | written hd hwritten =>
      rintro _ ⟨⟩
      rw [(Row.of_written hwritten).1]
      apply (hb.of_toApply hd).2.2.1.1
  | @settled row hat hdoubt =>
      rintro _ ⟨⟩
      obtain ⟨-, _, ⟨⟩, -, hcontains⟩ := hdoubt
      apply hcontains.1

/-- Whatever calls are lost, a batch of the partition leaves it alone. -/
theorem Effect.sole (hb : b.Collects rs) (h : b.Effect policy parties s s')
    (hp : b.bounds.partition = p) (hsole : Sole p s.rows) :
  Sole p s'.rows
  := by
  subst hp
  intro key row hrow
  apply (h.stage key).partition hb _ row hrow
  intro row hrow
  apply hsole key row hrow

/-- Delivered records of the partition amount to no batch, or to one of the partition. -/
theorem partition_of_ofRecords (hrs : ofRecords rs = .ok (some b))
    (hp : ∀ r ∈ rs, r.partition = p) :
  b.bounds.partition = p
  := by
  have hb := collects_of_ofRecords hrs
  obtain ⟨r, hr, -⟩ := List.mem_map.mp hb.first.1
  rw [← hb.partition r hr, hp r hr]

/-- Whatever calls are lost, processing records of the partition leaves it alone. -/
theorem sole_of_process {lossy : Prop} {r : Except Fault (Except Failure Outcome)}
    (hp : ∀ r ∈ rs, r.partition = p) (hkeyed : Keyed s.rows) (hsole : Sole p s.rows)
    (hexec : Exec (BatchAnswers lossy parties) s (process policy rs) r s') :
  Keyed s'.rows ∧ Sole p s'.rows
  := by
  by_cases hno : ∃ b, ofRecords rs = .ok (some b)
  · obtain ⟨b, hrs⟩ := hno
    have hb := collects_of_ofRecords hrs
    have heffect := (process_processed hrs hkeyed hexec).1
    exact ⟨heffect.keyed hb hkeyed, heffect.sole hb (partition_of_ofRecords hrs hp) hsole⟩
  · rw [(process_nothing (fun b hb => hno ⟨b, hb⟩) hexec).1]
    exact ⟨hkeyed, hsole⟩

/-- A batch of a partition that is alone is not stuck. -/
theorem not_stuck_of_sole {rule : TakeoverRule} {positions : Partition → Option Nat}
    {rows : Table Address Row} (hp : b.bounds.partition = p) (hsole : Sole p rows) :
  ¬ b.Stuck rule positions rows
  := by
  rintro ⟨key, -, hblocked⟩
  cases hrow : rows.get? key with
  | none =>
      rw [hrow] at hblocked
      exact hblocked
  | some row =>
      rw [hrow] at hblocked
      apply hblocked.1.2
      rw [hsole key row hrow, hp]

/-- How a batch of a partition that is alone ends, if no call is lost. -/
inductive Verdict.Alone (b : Batch) (policy : Policy) (parties : Parties Λ) (s : Site Λ) :
    Except Fault (Except Failure Outcome) → Site Λ → Prop
  /-- Something does not fit. -/
  | overflowed {r : Except Fault (Except Failure Outcome)} {s' : Site Λ} (hr : Overflowed r)
      (hfits : ¬ b.Fits policy.takeover (parties.latestOffset s.log) s.rows) :
      Alone b policy parties s r s'
  /-- The log does not accept the batch. -/
  | refused {e : LogError} {s' : Site Λ} (hack : (parties.acknowledge s.log b.bounds).2 = .error e) :
      Alone b policy parties s (.ok (.error (.log e))) s'
  /-- The batch has done all that it is to do. -/
  | committed {applied finalized : List Address} {s' : Site Λ}
      (hfits : b.Fits policy.takeover (parties.latestOffset s.log) s.rows)
      (hack : (parties.acknowledge s.log b.bounds).2 = .ok ())
      (hrows : ∀ key, s'.rows.get? key = b.finalAt key (s.rows.get? key)) :
      Alone b policy parties s (.ok (.ok (.committed b.bounds applied finalized []))) s'

/-- If no call is lost, a batch of a partition that is alone overflows, is refused or does
all that it is to do. -/
theorem process_alone (hrs : ofRecords rs = .ok (some b)) (hp : ∀ r ∈ rs, r.partition = p)
    (hkeyed : Keyed s.rows) (hsole : Sole p s.rows) :
  Ensures (BatchAnswers False parties) s (process policy rs) (Verdict.Alone b policy parties s)
  := by
  intro r s' hexec
  cases process_verdict hrs hkeyed hexec with
  | overflowed hr hfits => apply Verdict.Alone.overflowed hr hfits
  | reverted hstuck =>
      apply absurd hstuck
      apply not_stuck_of_sole (partition_of_ofRecords hrs hp) hsole
  | refused hack => apply Verdict.Alone.refused hack
  | committed hloose hfits hack happlied hfinalized =>
      apply Verdict.Alone.committed hfits hack
      have hfaultless := (process_processed hrs hkeyed hexec).2 id
      apply (hfaultless.committed hloose hfits hack).2.2

end Batch

end ChainLedger
