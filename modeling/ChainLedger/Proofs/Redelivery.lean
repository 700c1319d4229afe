import ChainLedger.Proofs.Reference
import ChainLedger.Proofs.Stages
import ChainLedger.Proofs.Verdict

/-!
# Batches delivered again

A batch that has done all that it is to do leaves nothing to do for itself: every row
counts its deltas and is not in doubt at one of its positions, and deltas that made no row
because they cancel still make none.  So if it is delivered again it is committed without
applying or settling anything.
-/

namespace ChainLedger

open Prog

namespace Batch

variable {Λ : Type} {parties : Parties Λ} {policy : Policy} {rs : List Record} {b : Batch}
  {s s₁ : Site Λ} {key : Address} {row? : Option Row}

/-- Only records that amount to a batch are committed. -/
theorem exists_of_committed {lossy : Prop} {r : Except Fault (Except Failure Outcome)}
    {o : Outcome} (hexec : Exec (BatchAnswers lossy parties) s (process policy rs) r s₁)
    (hr : r = .ok (.ok o)) (ho : o.isCommitted = true) :
  ∃ b, ofRecords rs = .ok (some b)
  := by
  apply Classical.byContradiction
  intro hno
  have hnothing := (process_nothing (fun b hb => hno ⟨b, hb⟩) hexec).2 o hr
  rw [ho] at hnothing
  cases hnothing

/-! ### Nothing is left to do -/

/-- The batch leaves no row without anything in doubt at one of its positions. -/
theorem not_inDoubt_finalAt :
  ¬ b.InDoubt key (b.finalAt key row?)
  := by
  rw [finalAt]
  split
  · next hdoubt =>
      obtain ⟨-, row, hrow, -⟩ := hdoubt
      rw [hrow, Option.map_some]
      apply not_inDoubt_final
  · next hsettled => apply hsettled

/-- The batch leaves nothing to apply to any row. -/
theorem Collects.toApply_finalAt (hb : b.Collects rs)
    (h : ∀ d, b.toApply key row? = some d → ∃ row', Row.written row? d = .ok row') :
  b.toApply key (b.finalAt key row?) = none
  := by
  rw [finalAt]
  split
  · next hdoubt =>
      obtain ⟨-, row, hrow, -⟩ := hdoubt
      rw [hrow, Option.map_some]
      apply toApply_eq_none_iff.mpr
      apply CaughtUp.final
      apply hb.caughtUp_of_writtenAt hrow
  · apply hb.toApply_writtenAt h

/-- The batch leaves no address without a row that had one. -/
theorem Collects.eq_none_of_finalAt (hb : b.Collects rs)
    (h : ∀ d, b.toApply key row? = some d → ∃ row', Row.written row? d = .ok row')
    (hnone : b.finalAt key row? = none) :
  row? = none
  := by
  rw [hb.finalAt_eq h] at hnone
  cases row? with
  | none => rfl
  | some row =>
      rw [outcomeAt] at hnone
      split at hnone
      · split at hnone
        · cases hnone
        · cases hnone
      · cases hnone

/-- If there is nothing to apply to a row and it is not in doubt, the batch leaves it as it
is. -/
theorem finalAt_of_idle (hnone : b.toApply key row? = none) (hsettled : ¬ b.InDoubt key row?) :
  b.finalAt key row? = row?
  := by
  have hwritten : b.writtenAt key row? = row? := by rw [writtenAt, hnone]
  rw [finalAt, hwritten, if_neg hsettled]

/-! ### Idle batches -/

/-- Nothing is left to do: no delta is to be applied, and no row is in doubt at a position
of the batch. -/
structure Idle (b : Batch) (rows : Table Address Row) : Prop where
  applied : ∀ key, b.toApply key (rows.get? key) = none
  settled : ∀ key, ¬ b.InDoubt key (rows.get? key)

/-- A batch that is idle is not stuck. -/
theorem Idle.not_stuck {rows : Table Address Row} {rule : TakeoverRule}
    {positions : Partition → Option Nat} (h : b.Idle rows) (hb : b.Collects rs) :
  ¬ b.Stuck rule positions rows
  := by
  rintro ⟨key, hkey, hblocked⟩
  have hheld : Held b.bounds.partition (rows.get? key) := by
    generalize rows.get? key = row? at hblocked
    cases row? with
    | none => exact hblocked
    | some row => exact hblocked.1
  obtain ⟨d, hd⟩ := hb.toApply_of_held hkey hheld
  rw [h.applied key] at hd
  cases hd

/-- Nothing of an idle batch overflows but the sums of what makes no row. -/
theorem Idle.fits {rows : Table Address Row} {rule : TakeoverRule}
    {positions : Partition → Option Nat} (h : b.Idle rows)
    (hsums : ∀ key, rows.get? key = none →
      Totals.Summable ((b.pendingFor key none).map (·.change))) :
  b.Fits rule positions rows
  := by
  constructor
  · intro key
    have hnone := h.applied key
    cases hrow : rows.get? key with
    | none => apply hsums key hrow
    | some row =>
        rw [hrow] at hnone
        rw [pendingFor_eq_nil_iff.mpr (toApply_eq_none_iff.mp hnone)]
        apply Totals.summable_nil
  · intro key d hd
    rw [h.applied key] at hd
    cases hd
  · intro _ key row hdoubt
    rw [writtenAt, h.applied key] at hdoubt
    apply absurd hdoubt (h.settled key)

/-- An idle batch that the log accepts is committed, and does nothing. -/
theorem Idle.process (h : b.Idle s.rows) (hrs : ofRecords rs = .ok (some b))
    (hkeyed : Keyed s.rows)
    (hsums : ∀ key, s.rows.get? key = none →
      Totals.Summable ((b.pendingFor key none).map (·.change)))
    (hack : (parties.acknowledge s.log b.bounds).2 = .ok ()) :
  Ensures (BatchAnswers False parties) s (process policy rs)
    (fun r s' => r = .ok (.ok (.committed b.bounds [] [] [])) ∧ s'.rows = s.rows)
  := by
  intro r s' hexec
  have hb := collects_of_ofRecords hrs
  have hloose : ¬ b.Stuck policy.takeover (parties.latestOffset s.log) s.rows :=
    h.not_stuck hb
  have hfits : b.Fits policy.takeover (parties.latestOffset s.log) s.rows := h.fits hsums
  obtain ⟨-, -, hrows⟩ :=
    ((process_processed hrs hkeyed hexec).2 id).committed hloose hfits hack
  constructor
  · cases process_verdict hrs hkeyed hexec with
    | overflowed hr hover => apply absurd hfits hover
    | reverted hstuck => apply absurd hstuck hloose
    | refused hrefused =>
        rw [hack] at hrefused
        cases hrefused
    | @committed applied finalized hloose hfits hack happlied hfinalized =>
        have hnone : applied = [] := by
          apply List.eq_nil_iff_forall_not_mem.mpr
          intro key hkey
          obtain ⟨d, hd⟩ := (happlied key).mp hkey
          rw [h.applied key] at hd
          cases hd
        have hnone' : finalized = [] := by
          apply List.eq_nil_iff_forall_not_mem.mpr
          intro key hkey
          apply h.settled key
          have hdoubt := (hfinalized key).mp hkey
          rw [writtenAt, h.applied key] at hdoubt
          apply hdoubt
        rw [hnone, hnone']
  · apply Table.ext
    intro key
    rw [hrows key, finalAt_of_idle (h.applied key) (h.settled key)]

/-! ### Delivered again -/

/-- If a batch was committed while no call was lost, and its records are delivered again
before anybody else writes the store, then it is processed again if no call is lost and the
log accepts it.  However that goes, it is committed again, nothing is applied or settled,
and every row is left as the first delivery has left it. -/
theorem process_again {bounds : Bounds} {applied finalized : List Address} {log : Λ}
    (hkeyed : Keyed s.rows)
    (hcommits : Exec (BatchAnswers False parties) s (process policy rs)
      (.ok (.ok (.committed bounds applied finalized []))) s₁)
    (haccepts : (parties.acknowledge log bounds).2 = .ok ()) :
  (∃ r s₂, Exec (BatchAnswers False parties) ⟨s₁.rows, log⟩ (process policy rs) r s₂) ∧
    ∀ r s₂, Exec (BatchAnswers False parties) ⟨s₁.rows, log⟩ (process policy rs) r s₂ →
      r = .ok (.ok (.committed bounds [] [] [])) ∧ s₂.rows = s₁.rows
  := by
  obtain ⟨b, hrs⟩ := exists_of_committed hcommits rfl rfl
  have hb := collects_of_ofRecords hrs
  have hkeyed₁ := (process_processed hrs hkeyed hcommits).1.keyed hb hkeyed
  have hfirst := (process_processed hrs hkeyed hcommits).2 id
  obtain ⟨hloose, hfits, hack⟩ := hfirst.only _ rfl rfl
  obtain ⟨-, ⟨applied', finalized', hr⟩, hrows⟩ := hfirst.committed hloose hfits hack
  obtain rfl : bounds = b.bounds := by
    cases hr
    rfl
  have hwritten : ∀ key d, b.toApply key (s.rows.get? key) = some d →
      ∃ row', Row.written (s.rows.get? key) d = .ok row' := by
    intro key d hd
    apply hfits.writes key d hd
    intro hblocked
    apply hloose ⟨key, (hb.of_toApply hd).2.1, hblocked⟩
  have hidle : b.Idle s₁.rows := by
    constructor
    · intro key
      rw [hrows key]
      apply hb.toApply_finalAt (hwritten key)
    · intro key
      rw [hrows key]
      apply not_inDoubt_finalAt
  have hsums : ∀ key, s₁.rows.get? key = none →
      Totals.Summable ((b.pendingFor key none).map (·.change)) := by
    intro key hnone
    rw [hrows key] at hnone
    have hsum := hfits.sums key
    rwa [hb.eq_none_of_finalAt (hwritten key) hnone] at hsum
  constructor
  · apply exists_exec (exists_batchAnswers parties)
  · apply hidle.process (s := ⟨s₁.rows, log⟩) hrs hkeyed₁ hsums haccepts

/-- A transfer is committed over no rows, and then delivered again. -/
theorem transfer_processed_again :
  ∃ (parties : Parties Nat) (policy : Policy) (rs : List Record) (bounds : Bounds)
    (applied finalized : List Address) (s₁ s₂ : Site Nat),
    Exec (BatchAnswers False parties) ⟨.empty, 0⟩ (process policy rs)
      (.ok (.ok (.committed bounds applied finalized []))) s₁ ∧
    (s₁.rows.get? receiver).map Row.totals
      = some { balance := 5, received := 5, transfers := 1 } ∧
    Exec (BatchAnswers False parties) s₁ (process policy rs)
      (.ok (.ok (.committed bounds [] [] []))) s₂ ∧
    s₂.rows = s₁.rows
  := by
  let parties : Parties Nat :=
    { latestOffset := fun _ _ => none, acknowledge := fun n _ => (n + 1, .ok ()) }
  let policy : Policy := ⟨20, 100, 30, 5000, .past⟩
  have hkeyed : Keyed (Site.mk (Table.empty : Table Address Row) 0).rows := keyed_empty
  obtain ⟨r, s₁, hexec⟩ := exists_exec (exists_batchAnswers parties) ⟨.empty, 0⟩
    (process policy [transfer ⟨"TRANSFERS", 0⟩])
  have hloose : ¬ (transferBatch ⟨"TRANSFERS", 0⟩).Stuck policy.takeover
      (parties.latestOffset 0) .empty := by
    rintro ⟨key, -, hblocked⟩
    exact hblocked
  obtain ⟨-, ⟨applied, finalized, rfl⟩, hrows⟩ :=
    ((process_processed ofRecords_transfer hkeyed hexec).2 id).committed hloose
      (fits_transfer _ _) rfl
  have haccepts : (parties.acknowledge s₁.log ⟨⟨"TRANSFERS", 0⟩, 0, 0, 1⟩).2 = .ok () := rfl
  obtain ⟨⟨r, s₂, hagain⟩, hall⟩ := process_again hkeyed hexec haccepts
  obtain ⟨rfl, hsame⟩ := hall r s₂ hagain
  refine ⟨parties, policy, _, _, applied, finalized, s₁, s₂, hexec, ?_, hagain, hsame⟩
  rw [hrows]
  decide

end Batch

end ChainLedger
