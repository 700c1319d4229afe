import ChainLedger.Proofs.Alone
import ChainLedger.Proofs.Magnitude
import ChainLedger.Proofs.Reference

/-!
# Batches one after another

Records of one partition are cut into batches, and these are processed one after another while
no call is lost, nothing overflows and the log accepts every batch.  What a batch has applied to
the row of an address are the deltas that this row did not count, unless they add up to nothing
and there is no row.
-/

namespace ChainLedger

open Prog

variable {Λ : Type} {parties : Parties Λ} {policy : Policy} {p : Partition}

namespace Batch

variable {rs : List Record} {b : Batch} {s s' : Site Λ} {r : Except Fault (Except Failure Outcome)}

/-- If no call is lost, a batch that is not stuck, fits the rows and is accepted by the log is
committed, and has done all that it is to do. -/
theorem done_of_fits (hrs : ofRecords rs = .ok (some b)) (hkeyed : Keyed s.rows)
    (hloose : ¬ b.Stuck policy.takeover (parties.latestOffset s.log) s.rows)
    (hfits : b.Fits policy.takeover (parties.latestOffset s.log) s.rows)
    (hexec : Exec (BatchAnswers False parties) s (process policy rs) r s')
    (hack : (parties.acknowledge s.log b.bounds).2 = .ok ()) :
  s'.log = (parties.acknowledge s.log b.bounds).1 ∧
    (∃ applied finalized, r = .ok (.ok (.committed b.bounds applied finalized []))) ∧
    ∀ key, s'.rows.get? key = b.outcomeAt key (s.rows.get? key)
  := by
  obtain ⟨hlog, hr, hrows⟩ :=
    ((process_processed hrs hkeyed hexec).2 id).committed hloose hfits hack
  have hb := collects_of_ofRecords hrs
  refine ⟨hlog, hr, fun key => ?_⟩
  rw [hrows key]
  apply hb.finalAt_eq
  intro d hd
  apply hfits.writes key d hd
  intro hblocked
  exact hloose ⟨key, (hb.of_toApply hd).2.1, hblocked⟩

/-- If no call is lost, a batch that is not stuck, does not overflow and is accepted by the log
is committed, and has done all that it is to do. -/
theorem done_of_loose (hrs : ofRecords rs = .ok (some b)) (hkeyed : Keyed s.rows)
    (hloose : ¬ b.Stuck policy.takeover (parties.latestOffset s.log) s.rows)
    (hexec : Exec (BatchAnswers False parties) s (process policy rs) r s')
    (hcalm : ¬ Overflowed r) (hack : (parties.acknowledge s.log b.bounds).2 = .ok ()) :
  s'.log = (parties.acknowledge s.log b.bounds).1 ∧
    (∃ applied finalized, r = .ok (.ok (.committed b.bounds applied finalized []))) ∧
    ∀ key, s'.rows.get? key = b.outcomeAt key (s.rows.get? key)
  := by
  have hfits : b.Fits policy.takeover (parties.latestOffset s.log) s.rows := by
    cases process_verdict hrs hkeyed hexec with
    | overflowed hr _ => exact absurd hr hcalm
    | reverted hstuck => exact absurd hstuck hloose
    | refused hrefused =>
        rw [hack] at hrefused
        cases hrefused
    | committed _ hfits _ _ _ => exact hfits
  exact done_of_fits hrs hkeyed hloose hfits hexec hack

/-- A batch that is not stuck can be processed over bounded rows, and does not overflow, if its
weight fits beside the bound. -/
theorem exists_calm {bound : Totals} {v : Nat} (hrs : ofRecords rs = .ok (some b))
    (hkeyed : Keyed s.rows)
    (hloose : ¬ b.Stuck policy.takeover (parties.latestOffset s.log) s.rows)
    (hack : (parties.acknowledge s.log b.bounds).2 = .ok ()) (hbound : bound.Within 0)
    (hrows : ∀ key, Bounded bound v (s.rows.get? key))
    (hfits : (bound + Delta.weight b.deltas).Fits) (hv : FitsUnsigned 64 (v + 2)) :
  ∃ r s', Exec (BatchAnswers False parties) s (process policy rs) r s' ∧ ¬ Overflowed r ∧
    ∀ key, Bounded (bound + Delta.weight b.deltas) (v + 2) (s'.rows.get? key)
  := by
  have hweight : ∀ key, (bound + Delta.weight b.deltas).Within (bound + b.weight key) := by
    intro key
    apply Totals.Within.add hbound.self
    apply Delta.within_weight List.filter_sublist
  have hall : b.Fits policy.takeover (parties.latestOffset s.log) s.rows := by
    apply fits_of_bounded (fun _ => hbound) hrows _ hv
    intro key
    exact (hweight key).fits hfits
  obtain ⟨r, s', hexec⟩ := exists_exec (exists_batchAnswers parties) s (process policy rs)
  obtain ⟨-, ⟨applied, finalized, rfl⟩, hdone⟩ :=
    ((process_processed hrs hkeyed hexec).2 id).committed hloose hall hack
  refine ⟨_, s', hexec, ?_, ?_⟩
  · rintro (⟨o, hr⟩ | hr)
    · cases hr
    · cases hr
  · intro key row hrow
    rw [hdone key] at hrow
    obtain ⟨hwithin, hversion⟩ := bounded_finalAt hbound (hrows key) row hrow
    exact ⟨(hweight key).trans hwithin, hversion⟩

end Batch

/-- Some records of the partition that amount to a batch, and the rows that it has found. -/
structure Feed where
  records : List Record
  rows : Table Address Row

/-- The deltas that the batch has applied to the row of the address. -/
def Feed.applied (key : Address) (f : Feed) : List Delta :=
  match Batch.ofRecords f.records with
  | .ok (some b) =>
    if (b.toApply key (f.rows.get? key)).isSome then b.pendingFor key (f.rows.get? key) else []
  | _ => []

section applied

variable {f : Feed} {b : Batch} {key : Address}

theorem Feed.applied_of_some {d : Delta} (hrs : Batch.ofRecords f.records = .ok (some b))
    (hd : b.toApply key (f.rows.get? key) = some d) :
  f.applied key = b.pendingFor key (f.rows.get? key)
  := by
  simp [applied, hrs, hd]

theorem Feed.applied_of_none (hrs : Batch.ofRecords f.records = .ok (some b))
    (hd : b.toApply key (f.rows.get? key) = none) :
  f.applied key = []
  := by
  simp [applied, hrs, hd]

theorem Feed.applied_of_nothing (hrs : ∀ b, Batch.ofRecords f.records ≠ .ok (some b)) :
  f.applied key = []
  := by
  rw [applied]
  split
  · next b hb => exact absurd hb (hrs b)
  · rfl

end applied

/-- From some rows on, records of the partition are processed one batch after another, while no
call is lost, nothing overflows and the log accepts every batch.  Meanwhile the log and what the
oracle tells may change. -/
inductive Feeds (policy : Policy) (parties : Parties Λ) (p : Partition)
    (rows₀ : Table Address Row) : List Feed → Table Address Row → Prop
  | start : Feeds policy parties p rows₀ [] rows₀
  | feed {fs : List Feed} {rs : List Record} {rows : Table Address Row} {state : Λ}
      {r : Except Fault (Except Failure Outcome)} {s' : Site Λ}
      (h : Feeds policy parties p rows₀ fs rows) (hp : ∀ r ∈ rs, r.partition = p)
      (hexec : Exec (BatchAnswers False parties) ⟨rows, state⟩ (Batch.process policy rs) r s')
      (hcalm : ¬ Overflowed r)
      (haccepts : ∀ b, Batch.ofRecords rs = .ok (some b) →
        (parties.acknowledge state b.bounds).2 = .ok ()) :
      Feeds policy parties p rows₀ (fs ++ [⟨rs, rows⟩]) s'.rows

/-- If the partition is alone from the start, it is alone afterwards. -/
theorem Feeds.alone {rows₀ rows : Table Address Row} {fs : List Feed}
    (h : Feeds policy parties p rows₀ fs rows) (hkeyed : Keyed rows₀) (hsole : Sole p rows₀) :
  Keyed rows ∧ Sole p rows
  := by
  induction h with
  | start => exact ⟨hkeyed, hsole⟩
  | feed _ hp hexec _ _ ih => exact Batch.sole_of_process hp ih.1 ih.2 hexec

/-- A batch that is not stuck, not too heavy for the rows and accepted by the log can be processed
next. -/
theorem Feeds.exists_feed {rows₀ rows : Table Address Row} {fs : List Feed} {rs : List Record}
    {b : Batch} {bound : Totals} {v : Nat} (h : Feeds policy parties p rows₀ fs rows) (state : Λ)
    (hp : ∀ r ∈ rs, r.partition = p) (hrs : Batch.ofRecords rs = .ok (some b))
    (hkeyed : Keyed rows)
    (hloose : ¬ b.Stuck policy.takeover (parties.latestOffset state) rows)
    (hack : (parties.acknowledge state b.bounds).2 = .ok ()) (hbound : bound.Within 0)
    (hrows : ∀ key, Batch.Bounded bound v (rows.get? key))
    (hfits : (bound + Delta.weight b.deltas).Fits) (hv : FitsUnsigned 64 (v + 2)) :
  ∃ rows', Feeds policy parties p rows₀ (fs ++ [⟨rs, rows⟩]) rows' ∧
    (∀ key, rows'.get? key = b.outcomeAt key (rows.get? key)) ∧
    ∀ key, Batch.Bounded (bound + Delta.weight b.deltas) (v + 2) (rows'.get? key)
  := by
  obtain ⟨r, s', hexec, hcalm, hbounded⟩ := Batch.exists_calm
    (s := ⟨rows, state⟩) hrs hkeyed hloose hack hbound hrows hfits hv
  obtain ⟨-, -, hrows'⟩ :=
    Batch.done_of_loose (s := ⟨rows, state⟩) hrs hkeyed hloose hexec hcalm hack
  have haccepts : ∀ b', Batch.ofRecords rs = .ok (some b') →
      (parties.acknowledge state b'.bounds).2 = .ok () := by
    intro b' hrs'
    rw [hrs] at hrs'
    cases hrs'
    exact hack
  exact ⟨s'.rows, h.feed hp hexec hcalm haccepts, hrows', hbounded⟩

end ChainLedger
