import ChainLedger.Proofs.Results

/-!
# Processing a batch

What a whole batch does to the rows and the log.  Whatever calls are lost, a batch that
is not acknowledged has written some rows as planned, and one that is acknowledged has
written them all and settled some.  If no call is lost and nothing overflows, it is undone
exactly if it is stuck, and else does all that it is to do.
-/

namespace ChainLedger

open Prog

namespace Batch

/-- The row of one address after the batch has done all that it is to do. -/
def finalAt (b : Batch) (key : Address) (row? : Option Row) : Option Row :=
  if b.InDoubt key (b.writtenAt key row?) then (b.writtenAt key row?).map Row.final
  else b.writtenAt key row?

variable {Λ : Type}

/-- What a batch may do to a site, if calls may be lost. -/
inductive Effect (b : Batch) (policy : Policy) (parties : Parties Λ) (s s' : Site Λ) : Prop
  /-- It is not acknowledged, and some rows are written. -/
  | unacknowledged (hlog : s'.log = s.log)
      (hrows : Partly
        (fun key => b.Writes policy.takeover (parties.latestOffset s.log) key (s.rows.get? key))
        (fun key => b.writtenAt key (s.rows.get? key)) s.rows s'.rows)
  /-- It is acknowledged after all rows are written, and then some rows are settled if the
  log has accepted it. -/
  | acknowledged {rows₁ : Table Address Row}
      (hlog : s'.log = (parties.acknowledge s.log b.bounds).1)
      (hall : ∀ key d, b.toApply key (s.rows.get? key) = some d →
        b.Writes policy.takeover (parties.latestOffset s.log) key (s.rows.get? key))
      (hwritten : ∀ key, rows₁.get? key = b.writtenAt key (s.rows.get? key))
      (hsettled : s'.rows = rows₁ ∨ (parties.acknowledge s.log b.bounds).2 = .ok () ∧
        Partly (fun key => b.InDoubt key (rows₁.get? key)) (Row.finalAt rows₁) rows₁ s'.rows)

/-- What a batch does to a site if no call is lost. -/
structure Faultless (b : Batch) (policy : Policy) (parties : Parties Λ) (s : Site Λ)
    (r : Except Fault (Except Failure Outcome)) (s' : Site Λ) : Prop where
  /-- A stuck batch is undone, and everything is as before. -/
  reverted : b.Stuck policy.takeover (parties.latestOffset s.log) s.rows →
    b.Fits policy.takeover (parties.latestOffset s.log) s.rows →
    s' = s ∧ ∃ locked restored, r = .ok (.ok (.reverted b.bounds locked restored)) ∧
      locked.Nodup ∧ ∀ key, key ∈ locked ↔ key ∈ b.keys ∧
        Blocked policy.takeover (parties.latestOffset s.log) b.bounds.partition
          (s.rows.get? key)
  /-- Any other batch does all that it is to do, if the log accepts it. -/
  committed : ¬ b.Stuck policy.takeover (parties.latestOffset s.log) s.rows →
    b.Fits policy.takeover (parties.latestOffset s.log) s.rows →
    (parties.acknowledge s.log b.bounds).2 = .ok () →
    s'.log = (parties.acknowledge s.log b.bounds).1 ∧
      (∃ applied finalized, r = .ok (.ok (.committed b.bounds applied finalized []))) ∧
      ∀ key, s'.rows.get? key = b.finalAt key (s.rows.get? key)
  /-- A batch is committed in no other case. -/
  only : ∀ o, r = .ok (.ok o) → o.isCommitted = true →
    ¬ b.Stuck policy.takeover (parties.latestOffset s.log) s.rows ∧
      b.Fits policy.takeover (parties.latestOffset s.log) s.rows ∧
      (parties.acknowledge s.log b.bounds).2 = .ok ()

variable {b : Batch} {rs : List Record} {lossy : Prop} {policy : Policy} {parties : Parties Λ}
  {s : Site Λ}

/-- A batch that ends without being committed is not committed in any case. -/
theorem Faultless.of_failure {r : Except Fault (Except Failure Outcome)} {s' : Site Λ}
    (hr : ∀ o, r ≠ .ok (.ok o))
    (hfits : ¬ b.Fits policy.takeover (parties.latestOffset s.log) s.rows) :
  b.Faultless policy parties s r s'
  := by
  constructor
  · intro _ h
    exact absurd h hfits
  · intro _ h
    exact absurd h hfits
  · intro o ho
    exact absurd ho (hr o)

/-! ### From the results of the jobs to the end -/

variable {rows₁ : Table Address Row} {jobs : List Job} {results : List Apply.Result}

/-- The end of a batch: its effect, and what is more if no call is lost. -/
def Processed (lossy : Prop) (b : Batch) (policy : Policy) (parties : Parties Λ) (s : Site Λ)
    (r : Except Fault (Except Failure Outcome)) (s' : Site Λ) : Prop :=
  b.Effect policy parties s s' ∧ (¬ lossy → b.Faultless policy parties s r s')

/-- If a job is locked, the batch is undone. -/
theorem undo_processed {locked : List Address} (hb : b.Collects rs) (hkeyed : Keyed s.rows)
    (hplan : b.Planned s.rows jobs)
    (hended : Ended lossy (parties.latestOffset s.log) policy s.rows jobs
      (results.map .finished) rows₁)
    (htold : Told policy.takeover (parties.latestOffset s.log) rows₁ jobs results)
    (hlocked : lockeds results = locked) (hne : locked ≠ []) :
  Ensures (BatchAnswers lossy parties) { s with rows := rows₁ }
    (undo policy b.bounds locked (writes results) >>= fun o => .done (.ok o))
    (Processed lossy b policy parties s)
  := by
  obtain ⟨hprevious, hstands, hnodup⟩ := hplan.undoable_of_told htold
  have hmem : ∀ key, key ∈ locked ↔ key ∈ b.keys ∧ Blocked policy.takeover
      (parties.latestOffset s.log) b.bounds.partition (s.rows.get? key) := by
    intro key
    rw [← hlocked, htold.lockeds]
    exact hplan.mem_locked_iff hb key
  have hstuck : b.Stuck policy.takeover (parties.latestOffset s.log) s.rows := by
    apply (hplan.stuck_iff hb).mpr
    rw [← htold.lockeds, hlocked]
    exact hne
  refine Ensures.mono (Changed.map Except.ok (undo_spec hkeyed hprevious hstands hnodup)) ?_
  intro r s' hchanged
  have hlog : s'.log = s.log := hchanged.log
  constructor
  · apply Effect.unacknowledged hlog
    intro key
    rcases hchanged.partly key with hkept | ⟨-, hrestored⟩
    · rw [hkept]
      exact hplan.partly hb hended key
    · exact .inl hrestored
  · intro hcalm
    rcases hchanged.calm hcalm with ⟨hfalse, -⟩ | ⟨-, hr, hwholly⟩
    · exact hfalse.elim
    · have hrows : s'.rows = s.rows := by
        apply Table.ext
        intro key
        by_cases hkey : key ∈ (writes results).map (·.key)
        · exact hwholly.changed key hkey
        · rw [hwholly.others key hkey]
          exact hplan.kept_of_told hended.others htold hkey
      constructor
      · intro _ _
        refine ⟨?_, locked, (writes results).map (·.key), hr, ?_, hmem⟩
        · cases s
          cases s'
          cases hrows
          cases hlog
          rfl
        · rw [← hlocked, htold.lockeds]
          exact (List.filter_sublist.map _).nodup hplan.nodup
      · intro hfree
        exact absurd hstuck hfree
      · intro o ho hcommitted
        rw [hr] at ho
        cases ho
        cases hcommitted

/-- A batch that is acknowledged has written all rows, and may settle some. -/
theorem Effect.of_commits {ts : List Target} {r : Except Fault (Except Failure Outcome)}
    {s' : Site Λ} (hb : b.Collects rs) (hplan : b.Planned s.rows jobs)
    (hended : Ended lossy (parties.latestOffset s.log) policy s.rows jobs
      (results.map .finished) rows₁)
    (hall : ∀ key d, b.toApply key (s.rows.get? key) = some d →
      b.Writes policy.takeover (parties.latestOffset s.log) key (s.rows.get? key))
    (hwritten : ∀ key, rows₁.get? key = b.writtenAt key (s.rows.get? key))
    (htargets : ∀ key, key ∈ ts.map (·.key) ↔ b.InDoubt key (rows₁.get? key))
    (hcommits : Commits lossy parties b.bounds ((writes results).map (·.key)) ts
      { s with rows := rows₁ } r s') :
  b.Effect policy parties s s'
  := by
  have hsettled : s'.rows = rows₁ ∨ (parties.acknowledge s.log b.bounds).2 = .ok () ∧
      Partly (fun key => b.InDoubt key (rows₁.get? key)) (Row.finalAt rows₁) rows₁ s'.rows :=
    hcommits.rows.imp_right fun ⟨hack, hpartly⟩ =>
      ⟨hack, hpartly.mono fun key hkey => (htargets key).mp hkey⟩
  rcases hcommits.log with ⟨hlog, hrows⟩ | hlog
  · have hrows : s'.rows = rows₁ := hrows
    apply Effect.unacknowledged (show s'.log = s.log from hlog)
    rw [hrows]
    exact hplan.partly hb hended
  · exact .acknowledged hlog hall hwritten hsettled

/-- A batch that is acknowledged without a lost call does all that it is to do, if no version
overflows. -/
theorem Faultless.of_commits {ts : List Target} {r : Except Fault (Except Failure Outcome)}
    {s' : Site Λ} (hcalm : ¬ lossy)
    (hsums : ∀ key, Totals.Summable ((b.pendingFor key (s.rows.get? key)).map (·.change)))
    (hloose : ¬ b.Stuck policy.takeover (parties.latestOffset s.log) s.rows)
    (hall : ∀ key d, b.toApply key (s.rows.get? key) = some d →
      b.Writes policy.takeover (parties.latestOffset s.log) key (s.rows.get? key))
    (hwritten : ∀ key, rows₁.get? key = b.writtenAt key (s.rows.get? key))
    (hstands : ∀ t ∈ ts, Stands rows₁ t.key t.version)
    (htargets : ∀ key, key ∈ ts.map (·.key) ↔ b.InDoubt key (rows₁.get? key))
    (hcommits : Commits lossy parties b.bounds ((writes results).map (·.key)) ts
      { s with rows := rows₁ } r s') :
  b.Faultless policy parties s r s'
  := by
  have hversions := not_overflows_iff hstands htargets
  simp only [hwritten] at hversions
  constructor
  · intro hstuck
    exact absurd hstuck hloose
  · intro _ hfits hack
    obtain ⟨hlog, hend⟩ := hcommits.accepted hcalm hack
    rcases hend with ⟨hover, -⟩ | ⟨-, hr, hwholly⟩
    · exact absurd hover (hversions.mpr (hfits.versions hloose))
    · refine ⟨hlog, ⟨_, _, hr⟩, ?_⟩
      intro key
      rw [finalAt, ← hwritten]
      split
      · next hdoubt => exact hwholly.changed key ((htargets key).mpr hdoubt)
      · next hdoubt => exact hwholly.others key fun hkey => hdoubt ((htargets key).mp hkey)
  · intro o ho hcommitted
    cases hack : (parties.acknowledge s.log b.bounds).2 with
    | error e =>
        rw [(hcommits.refused hcalm e hack).1] at ho
        cases ho
    | ok u =>
        refine ⟨hloose, ?_, rfl⟩
        obtain ⟨-, hend⟩ := hcommits.accepted hcalm hack
        rcases hend with ⟨-, fault, hr⟩ | ⟨hover, -, -⟩
        · rw [hr] at ho
          cases ho
        · constructor
          · exact hsums
          · intro key d hd _
            obtain ⟨d', row', hd', hrow'⟩ := (hall key d hd).written
            obtain rfl := Option.some.inj (hd.symm.trans hd')
            exact ⟨row', hrow'⟩
          · intro _
            exact hversions.mp hover

/-- If no job is locked, the batch is acknowledged and its rows are settled. -/
theorem commit_processed {carried : List Target} (hb : b.Collects rs)
    (h : b.Prepared s.rows carried jobs)
    (hended : Ended lossy (parties.latestOffset s.log) policy s.rows jobs
      (results.map .finished) rows₁)
    (htold : Told policy.takeover (parties.latestOffset s.log) rows₁ jobs results)
    (hfree : lockeds results = []) :
  Ensures (BatchAnswers lossy parties) { s with rows := rows₁ }
    (commit policy b.bounds (writes results) (carried ++ targets results))
    (Processed lossy b policy parties s)
  := by
  obtain ⟨hwritten, hall, hwrites⟩ := h.written_of_told hb hended.others htold hfree
  obtain ⟨hstands, hnodup, htargets⟩ :=
    h.targets_of_told hb htold hwritten hwrites
  have hloose : ¬ b.Stuck policy.takeover (parties.latestOffset s.log) s.rows := by
    intro hstuck
    apply (h.stuck_iff hb).mp hstuck
    rw [← htold.lockeds, hfree]
  refine Ensures.mono (commit_spec hstands hnodup) ?_
  intro r s' hcommits
  constructor
  · exact .of_commits hb h.toPlanned hended hall hwritten htargets hcommits
  · intro hcalm
    exact .of_commits hcalm h.sums hloose hall hwritten hstands htargets hcommits

/-- From the results of all jobs a batch fails, is undone or is acknowledged. -/
theorem conclude_processed {carried : List Target} (hb : b.Collects rs) (hkeyed : Keyed s.rows)
    (h : b.Prepared s.rows carried jobs)
    (hended : Ended lossy (parties.latestOffset s.log) policy s.rows jobs
      (results.map .finished) rows₁) :
  Ensures (BatchAnswers lossy parties) { s with rows := rows₁ }
    (conclude policy b.bounds carried results) (Processed lossy b policy parties s)
  := by
  rw [conclude]
  apply ensures_tellAll
  cases hnone : firstFailure? results with
  | some e =>
      apply ensures_done
      refine ⟨.unacknowledged rfl (h.partly hb hended), fun hcalm => ?_⟩
      rw [firstFailure_eq_none hended hcalm] at hnone
      cases hnone
  | none =>
      have htold := told_of_ends (List.forall₂_map_right_iff.mp hended.each) hnone
      dsimp only
      split
      · next hfree => exact commit_processed hb h hended htold hfree
      · next locked hne =>
          exact undo_processed hb hkeyed h.toPlanned hended htold rfl hne

/-! ### The whole batch -/

/-- What a batch comes to: it may have no rows, if calls are lost; it may be stopped while it adds
up what its rows do not count; or its jobs run, and then one of them was stopped, or it comes to
its conclusion. -/
theorem run_spec {P : Except Fault (Except Failure Outcome) → Site Λ → Prop}
    (hb : b.Collects rs) (hkeyed : Keyed s.rows)
    (hlost : lossy → (∀ f, P (.error f) s) ∧ ∀ e, P (.ok (.error (.store e))) s)
    (hover : (¬ ∀ key, Totals.Summable ((b.pendingFor key (s.rows.get? key)).map (·.change))) →
      ∀ o, P (.error (.overflow o)) s)
    (hfailed : ∀ carried jobs ends rows₁, b.Prepared s.rows carried jobs →
      Ended lossy (parties.latestOffset s.log) policy s.rows jobs ends rows₁ →
      JobEnd.collect ends = none → P (.ok (.error .workerFailed)) { s with rows := rows₁ })
    (hconclude : ∀ carried jobs results rows₁, b.Prepared s.rows carried jobs →
      Ended lossy (parties.latestOffset s.log) policy s.rows jobs (results.map .finished) rows₁ →
      Ensures (BatchAnswers lossy parties) { s with rows := rows₁ }
        (conclude policy b.bounds carried results) P) :
  Ensures (BatchAnswers lossy parties) s (run policy b) P
  := by
  rw [run]
  apply ensures_store
  apply AfterStore.of_read (StoreCall.on_findAll _)
  · have hselected : ∀ key ∈ b.keys,
        (MemoryStore.select { rows := s.rows } b.keys).get? key = s.rows.get? key := by
      intro key hkey
      rw [MemoryStore.get?_select, if_pos hkey]
    dsimp only [Follows]
    generalize MemoryStore.select { rows := s.rows } b.keys = selected at hselected ⊢
    apply ensures_tell
    cases hmerged : Merge.batch selected b.deltas with
    | error o =>
        apply ensures_crash
        apply hover
        intro hsums
        obtain ⟨merged, hmerged'⟩ := hb.exists_merged hselected hsums
        rw [hmerged] at hmerged'
        cases hmerged'
    | ok merged =>
        have hprepared := hb.prepared hselected hkeyed hmerged
        apply ensures_applyAll
        intro ends rows₁ hcompletes
        have hended := hprepared.ended hb hkeyed hcompletes
        cases hcollect : JobEnd.collect ends with
        | none => exact ensures_done (hfailed _ _ ends rows₁ hprepared hended hcollect)
        | some results =>
            apply ensures_tell
            obtain rfl := JobEnd.collect_eq_some hcollect
            exact hconclude _ _ results rows₁ hprepared hended
  · intro hlossy r hr
    exact .of_fails hr (hlost hlossy).1 fun e => ensures_done ((hlost hlossy).2 e)

/-- A batch whose rows are keyed is processed. -/
theorem run_processed (hb : b.Collects rs) (hkeyed : Keyed s.rows) :
  Ensures (BatchAnswers lossy parties) s (run policy b) (Processed lossy b policy parties s)
  := by
  have hnothing : b.Effect policy parties s s := .unacknowledged rfl .refl
  refine run_spec hb hkeyed ?_ ?_ ?_ ?_
  · intro hlossy
    exact ⟨fun _ => ⟨hnothing, absurd hlossy⟩, fun _ => ⟨hnothing, absurd hlossy⟩⟩
  · intro hsums o
    exact ⟨hnothing, fun _ => .of_failure (by simp) fun hfits => hsums hfits.sums⟩
  · intro carried jobs ends rows₁ h hended hcollect
    refine ⟨.unacknowledged rfl (h.partly hb hended), fun hcalm => ?_⟩
    apply Faultless.of_failure (by simp)
    intro hfits
    exact h.collect_ne_none hb hended hcalm hfits hcollect
  · intro carried jobs results rows₁ h hended
    exact conclude_processed hb hkeyed h hended

/-- Delivered records that amount to a batch are processed as that batch. -/
theorem process_processed (hrs : ofRecords rs = .ok (some b)) (hkeyed : Keyed s.rows) :
  Ensures (BatchAnswers lossy parties) s (process policy rs)
    (Processed lossy b policy parties s)
  := by
  rw [process]
  apply ensures_accepting
  · rw [if_pos rfl, hrs]
    exact run_processed (collects_of_ofRecords hrs) hkeyed
  · intro hlossy
    rw [if_neg Bool.false_ne_true]
    exact ensures_done ⟨.unacknowledged rfl .refl, absurd hlossy⟩

/-- Records that amount to no batch change nothing, and nothing is committed. -/
theorem process_nothing (hrs : ∀ b, ofRecords rs ≠ .ok (some b)) :
  Ensures (BatchAnswers lossy parties) s (process policy rs)
    (fun r s' => s' = s ∧ ∀ o, r = .ok (.ok o) → o.isCommitted = false)
  := by
  rw [process]
  apply ensures_accepting
  · rw [if_pos rfl]
    rcases h : ofRecords rs with e | (_ | b)
    · apply ensures_done
      refine ⟨rfl, ?_⟩
      rintro o ⟨⟩
    · apply ensures_done
      refine ⟨rfl, ?_⟩
      rintro o ⟨⟩
      rfl
    · exact absurd h (hrs b)
  · intro hlossy
    rw [if_neg Bool.false_ne_true]
    apply ensures_done
    refine ⟨rfl, ?_⟩
    rintro o ⟨⟩

end Batch

end ChainLedger
