import ChainLedger.Proofs.Processing

/-!
# How a batch ends

If no call is lost, a batch ends in one of four ways.  An overflow stops it, and then
something does not fit; it is undone, and then it is stuck; the log refuses it; or it is
committed.  A batch that is committed lists the addresses that it had something to apply
to, and those whose rows it has settled.
-/

namespace ChainLedger

open Prog

/-- The batch was stopped by an overflow, in its own computation or in that for one of the
addresses. -/
def Overflowed (r : Except Fault (Except Failure Outcome)) : Prop :=
  (∃ o, r = .error (.overflow o)) ∨ r = .ok (.error .workerFailed)

namespace Batch

variable {Λ : Type}

/-- How a batch ends if no call is lost. -/
inductive Verdict (b : Batch) (policy : Policy) (parties : Parties Λ) (s : Site Λ) :
    Except Fault (Except Failure Outcome) → Prop
  /-- Something does not fit. -/
  | overflowed {r : Except Fault (Except Failure Outcome)} (hr : Overflowed r)
      (hfits : ¬ b.Fits policy.takeover (parties.latestOffset s.log) s.rows) :
      Verdict b policy parties s r
  /-- The row of some address is held. -/
  | reverted {locked restored : List Address}
      (hstuck : b.Stuck policy.takeover (parties.latestOffset s.log) s.rows) :
      Verdict b policy parties s (.ok (.ok (.reverted b.bounds locked restored)))
  /-- The log does not accept the batch. -/
  | refused {e : LogError} (hack : (parties.acknowledge s.log b.bounds).2 = .error e) :
      Verdict b policy parties s (.ok (.error (.log e)))
  /-- The batch has done all that it is to do. -/
  | committed {applied finalized : List Address}
      (hloose : ¬ b.Stuck policy.takeover (parties.latestOffset s.log) s.rows)
      (hfits : b.Fits policy.takeover (parties.latestOffset s.log) s.rows)
      (hack : (parties.acknowledge s.log b.bounds).2 = .ok ())
      (happlied : ∀ key, key ∈ applied ↔ ∃ d, b.toApply key (s.rows.get? key) = some d)
      (hfinalized : ∀ key,
        key ∈ finalized ↔ b.InDoubt key (b.writtenAt key (s.rows.get? key))) :
      Verdict b policy parties s (.ok (.ok (.committed b.bounds applied finalized [])))

variable {b : Batch} {rs : List Record} {policy : Policy} {parties : Parties Λ} {s : Site Λ}
  {rows₁ : Table Address Row} {jobs : List Job} {results : List Apply.Result}

/-- If no job is locked, the batch is acknowledged: it overflows, is refused or is
committed. -/
theorem commit_verdict {carried : List Target} (hb : b.Collects rs)
    (h : b.Prepared s.rows carried jobs)
    (hothers : ∀ key, key ∉ jobs.map (·.delta.key) → rows₁.get? key = s.rows.get? key)
    (htold : Told policy.takeover (parties.latestOffset s.log) rows₁ jobs results)
    (hfree : lockeds results = []) :
  Ensures (BatchAnswers False parties) { s with rows := rows₁ }
    (commit policy b.bounds (writes results) (carried ++ targets results))
    (fun r _ => b.Verdict policy parties s r)
  := by
  obtain ⟨hwritten, hall, hwrites⟩ := h.written_of_told hb hothers htold hfree
  obtain ⟨hstands, hnodup, htargets⟩ :=
    h.targets_of_told hb htold hwritten hwrites
  have hloose : ¬ b.Stuck policy.takeover (parties.latestOffset s.log) s.rows := by
    intro hstuck
    apply (h.stuck_iff hb).mp hstuck
    rw [← htold.lockeds, hfree]
  refine Ensures.mono (commit_spec hstands hnodup) ?_
  intro r s' hcommits
  cases hack : (parties.acknowledge s.log b.bounds).2 with
  | error e =>
      rw [(hcommits.refused id e hack).1]
      apply Verdict.refused hack
  | ok u =>
      obtain ⟨-, ⟨hover, o, hr⟩ | ⟨-, hr, -⟩⟩ := hcommits.accepted id hack
      · apply Verdict.overflowed (.inl ⟨o, hr⟩)
        intro hfits
        apply (not_overflows_iff hstands htargets).mpr _ hover
        simp only [hwritten]
        apply hfits.versions hloose
      · have hfaultless := Faultless.of_commits id h.sums hloose hall hwritten hstands htargets
          hcommits
        rw [hr]
        apply Verdict.committed hloose (hfaultless.only _ hr rfl).2.1 hack
        · intro key
          rw [hwrites]
          constructor
          · intro hkey
            obtain ⟨j, hj, rfl⟩ := List.mem_map.mp hkey
            exact ⟨_, h.delta j hj⟩
          · rintro ⟨d, hd⟩
            apply h.all key d hd
        · intro key
          rw [htargets, hwritten]

/-- From the results of all jobs a batch comes to its end. -/
theorem conclude_verdict {carried : List Target} (hb : b.Collects rs) (hkeyed : Keyed s.rows)
    (h : b.Prepared s.rows carried jobs)
    (hended : Ended False (parties.latestOffset s.log) policy s.rows jobs
      (results.map .finished) rows₁) :
  Ensures (BatchAnswers False parties) { s with rows := rows₁ }
    (conclude policy b.bounds carried results) (fun r _ => b.Verdict policy parties s r)
  := by
  have hnone := firstFailure_eq_none hended id
  have htold := told_of_ends (List.forall₂_map_right_iff.mp hended.each) hnone
  rw [conclude]
  apply ensures_tellAll
  rw [hnone]
  dsimp only
  split
  · next hfree => apply commit_verdict hb h hended.others htold hfree
  · next locked hne =>
      obtain ⟨hprevious, hstands, hnodup⟩ := h.undoable_of_told htold
      refine Ensures.mono (Changed.map Except.ok (undo_spec hkeyed hprevious hstands hnodup)) ?_
      intro r s' hchanged
      obtain ⟨hfalse, -⟩ | ⟨-, hr, -⟩ := hchanged.calm id
      · exact hfalse.elim
      · rw [hr]
        apply Verdict.reverted
        apply (h.stuck_iff hb).mpr
        rw [← htold.lockeds]
        exact hne

/-- If no call is lost, a batch whose rows are keyed ends in one of four ways. -/
theorem run_verdict (hb : b.Collects rs) (hkeyed : Keyed s.rows) :
  Ensures (BatchAnswers False parties) s (run policy b) (fun r _ => b.Verdict policy parties s r)
  := by
  refine run_spec hb hkeyed ?_ ?_ ?_ ?_
  · exact False.elim
  · intro hsums o
    apply Verdict.overflowed (.inl ⟨o, rfl⟩)
    intro hfits
    exact hsums hfits.sums
  · intro carried jobs ends rows₁ h hended hcollect
    apply Verdict.overflowed (.inr rfl)
    intro hfits
    exact h.collect_ne_none hb hended id hfits hcollect
  · intro carried jobs results rows₁ h hended
    exact conclude_verdict hb hkeyed h hended

/-- If no call is lost, delivered records that amount to a batch end as that batch. -/
theorem process_verdict (hrs : ofRecords rs = .ok (some b)) (hkeyed : Keyed s.rows) :
  Ensures (BatchAnswers False parties) s (process policy rs)
    (fun r _ => b.Verdict policy parties s r)
  := by
  rw [process]
  apply ensures_accepting
  · rw [if_pos rfl, hrs]
    apply run_verdict (collects_of_ofRecords hrs) hkeyed
  · exact False.elim

end Batch

end ChainLedger
