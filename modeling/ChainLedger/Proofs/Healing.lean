import ChainLedger.Proofs.Attempts
import ChainLedger.Proofs.Reference
import ChainLedger.Proofs.Stages

/-!
# Failed batches heal

A batch that would be committed may be attempted any number of times while calls are lost.
Each attempt leaves every row in one of the batch's stages, so once no call is lost any
more the batch is committed with the very rows that it would have left at first.
-/

namespace ChainLedger

open Prog

namespace Batch

variable {Λ : Type} {parties : Parties Λ} {policy : Policy} {rs : List Record} {b : Batch}
  {s s' : Site Λ}

/-- After any attempts every row is in one of the stages of the batch. -/
theorem stage_of_attempts (hrs : ofRecords rs = .ok (some b)) (hkeyed : Keyed s.rows)
    (h : Relation.ReflTransGen (Attempt parties policy rs) s s') :
  Keyed s'.rows ∧ ∀ key, b.Stage key (s.rows.get? key) (s'.rows.get? key)
  := by
  have hb := collects_of_ofRecords hrs
  induction h with
  | refl => exact ⟨hkeyed, fun key => .before⟩
  | tail _ hattempt ih =>
      obtain ⟨hkeyed', hstages⟩ := ih
      obtain ⟨r, hexec⟩ := hattempt
      have heffect := (process_processed hrs hkeyed' hexec).1
      refine ⟨heffect.keyed hb hkeyed', ?_⟩
      intro key
      exact (hstages key).trans hb (heffect.stage key)

/-- A row in a stage of the batch is held only if it was held before. -/
theorem Stage.blocked (hb : b.Collects rs) {rule : TakeoverRule}
    {positions : Partition → Option Nat} {key : Address} {row? row'? : Option Row}
    (h : b.Stage key row? row'?) (hblocked : Blocked rule positions b.bounds.partition row'?) :
  Blocked rule positions b.bounds.partition row?
  := by
  cases h with
  | before => exact hblocked
  | written hd hwritten =>
      obtain ⟨-, -, hcontains, -⟩ := hb.of_toApply hd
      apply absurd _ hblocked.1.2
      rw [(Row.of_written hwritten).1, hcontains.1]
  | settled hat hdoubt => exact absurd rfl hblocked.1.1

/-- If nothing overflows and nobody holds a row, the same is so in all stages. -/
theorem Fits.of_stages (hb : b.Collects rs) {rule : TakeoverRule}
    {positions : Partition → Option Nat} {rows rows' : Table Address Row}
    (hfits : b.Fits rule positions rows) (hloose : ¬ b.Stuck rule positions rows)
    (hstages : ∀ key, b.Stage key (rows.get? key) (rows'.get? key)) :
  b.Fits rule positions rows'
  := by
  constructor
  · intro key
    have hsums := hfits.sums key
    have hstage := hstages key
    generalize rows.get? key = row?, rows'.get? key = row'? at hsums hstage ⊢
    cases hstage with
    | before => exact hsums
    | written hd hwritten =>
        rw [pendingFor_eq_nil_iff.mpr (hb.caughtUp_of_written hd hwritten)]
        exact Totals.summable_nil
    | settled hat hdoubt =>
        rw [pendingFor_eq_nil_iff.mpr (hb.caughtUp_of_writtenAt hat).final]
        exact Totals.summable_nil
  · intro key d
    have hwrites := hfits.writes key d
    have hstage := hstages key
    generalize rows.get? key = row?, rows'.get? key = row'? at hwrites hstage ⊢
    intro hd' _
    cases hstage with
    | before => exact hwrites hd' ‹_›
    | written hd hwritten =>
        rw [toApply_eq_none_iff.mpr (hb.caughtUp_of_written hd hwritten)] at hd'
        cases hd'
    | settled hat hdoubt =>
        rw [toApply_eq_none_iff.mpr (hb.caughtUp_of_writtenAt hat).final] at hd'
        cases hd'
  · intro _ key row
    have hversions := hfits.versions hloose key row
    have hstage := hstages key
    generalize rows.get? key = row?, rows'.get? key = row'? at hversions hstage ⊢
    cases hstage with
    | before => exact hversions
    | written hd hwritten =>
        rw [(hb.caughtUp_of_written hd hwritten).writtenAt]
        rw [writtenAt_of_written hd hwritten] at hversions
        exact hversions
    | settled hat hdoubt =>
        rw [(hb.caughtUp_of_writtenAt hat).final.writtenAt]
        intro hdoubt'
        exact absurd hdoubt' not_inDoubt_final

/-- If a batch would be committed while no call is lost, then after any attempts at it in
which calls were lost, it is committed once no call is lost and the log accepts it, and
leaves exactly the rows that it would have left at first.  What the oracle tells does not
change meanwhile, and nobody else writes the store. -/
theorem process_heals {positions : Partition → Option Nat}
    (horacle : ∀ log, parties.latestOffset log = positions) {s₁ s₂ : Site Λ}
    (hkeyed : Keyed s.rows) {o : Outcome}
    (hcommits : Exec (BatchAnswers False parties) s (process policy rs) (.ok (.ok o)) s₁)
    (ho : o.isCommitted = true)
    (hattempts : Relation.ReflTransGen (Attempt parties policy rs) s s₂)
    (haccepts : ∀ b, ofRecords rs = .ok (some b) →
      (parties.acknowledge s₂.log b.bounds).2 = .ok ()) :
  (∃ r s', Exec (BatchAnswers False parties) s₂ (process policy rs) r s') ∧
    ∀ r s', Exec (BatchAnswers False parties) s₂ (process policy rs) r s' →
      (∃ o', r = .ok (.ok o') ∧ o'.isCommitted = true) ∧ s'.rows = s₁.rows
  := by
  obtain ⟨b, hrs⟩ : ∃ b, ofRecords rs = .ok (some b) := by
    apply Classical.byContradiction
    intro hno
    have hnothing := process_nothing (fun b hb => hno ⟨b, hb⟩) hcommits
    rw [hnothing.2 o rfl] at ho
    cases ho
  have hb := collects_of_ofRecords hrs
  have hfirst := (process_processed hrs hkeyed hcommits).2 id
  obtain ⟨hloose, hfits, hack⟩ := hfirst.only o rfl ho
  obtain ⟨-, -, hrows₁⟩ := hfirst.committed hloose hfits hack
  obtain ⟨hkeyed₂, hstages⟩ := stage_of_attempts hrs hkeyed hattempts
  rw [horacle] at hloose hfits
  have hfits₂ : b.Fits policy.takeover (parties.latestOffset s₂.log) s₂.rows := by
    rw [horacle]
    exact hfits.of_stages hb hloose hstages
  have hloose₂ : ¬ b.Stuck policy.takeover (parties.latestOffset s₂.log) s₂.rows := by
    rw [horacle]
    rintro ⟨key, hkey, hblocked⟩
    exact hloose ⟨key, hkey, (hstages key).blocked hb hblocked⟩
  refine ⟨exists_exec (exists_batchAnswers parties) s₂ _, ?_⟩
  intro r s' hexec
  have hlast := (process_processed hrs hkeyed₂ hexec).2 id
  obtain ⟨-, ⟨applied, finalized, hr⟩, hrows⟩ :=
    hlast.committed hloose₂ hfits₂ (haccepts b hrs)
  refine ⟨⟨_, hr, rfl⟩, ?_⟩
  apply Table.ext
  intro key
  rw [hrows, hrows₁]
  exact (hstages key).finalAt_eq hb

/-- An attempt at a transfer has written the row of the address that pays, and no other,
before it failed.  Then the transfer heals. -/
theorem half_transfer_heals :
  ∃ (parties : Parties Nat) (policy : Policy) (rs : List Record) (s₁ s₂ : Site Nat),
    (∃ o, Exec (BatchAnswers False parties) ⟨.empty, 0⟩ (process policy rs) (.ok (.ok o)) s₁ ∧
      o.isCommitted = true) ∧
    Attempt parties policy rs ⟨.empty, 0⟩ s₂ ∧
    (∃ row, s₂.rows.get? sender = some row ∧ row.settled = false) ∧
    s₂.rows.get? receiver = none ∧
    ∃ r s', Exec (BatchAnswers False parties) s₂ (process policy rs) r s' ∧
      (∃ o, r = .ok (.ok o) ∧ o.isCommitted = true) ∧ s'.rows = s₁.rows
  := by
  let parties : Parties Nat :=
    { latestOffset := fun _ _ => none, acknowledge := fun n _ => (n + 1, .ok ()) }
  let policy : Policy := ⟨20, 100, 30, 5000, .past⟩
  let b := transferBatch ⟨"TRANSFERS", 0⟩
  have hrs : ofRecords [transfer ⟨"TRANSFERS", 0⟩] = .ok (some b) := ofRecords_transfer
  have hkeyed : Keyed (Site.mk (Table.empty : Table Address Row) 0).rows := by
    intro key row hrow
    cases hrow
  -- without a lost call the transfer is committed
  obtain ⟨r, s₁, hexec⟩ := exists_exec (exists_batchAnswers parties) ⟨.empty, 0⟩
    (process policy [transfer ⟨"TRANSFERS", 0⟩])
  have hloose : ¬ b.Stuck policy.takeover (parties.latestOffset 0) .empty := by
    rintro ⟨key, -, hblocked⟩
    exact hblocked
  obtain ⟨-, ⟨applied, finalized, rfl⟩, -⟩ :=
    ((process_processed hrs hkeyed hexec).2 id).committed hloose (fits_transfer _ _) rfl
  -- an attempt writes the row of the address that pays
  have hwrites : ∀ key, key = sender → b.Writes policy.takeover (parties.latestOffset 0) key
      ((Table.empty : Table Address Row).get? key) := by
    rintro _ rfl
    exact ⟨id, _, _, rfl, rfl⟩
  obtain ⟨rows, hattempt, hwholly⟩ := exists_attempt (s := ⟨.empty, 0⟩) hrs hkeyed
    (fun key => summable_transfer key none) hwrites ⟨receiver, _, rfl, by decide⟩
  obtain ⟨⟨r, s', hexec'⟩, hall⟩ := process_heals (fun _ => rfl) hkeyed hexec rfl
    (.single ⟨_, hattempt⟩) fun _ _ => rfl
  refine ⟨parties, policy, _, s₁, _, ⟨_, hexec, rfl⟩, ⟨_, hattempt⟩, ?_, ?_, r, s', hexec',
    hall r s' hexec'⟩
  · exact ⟨_, hwholly.changed sender rfl, rfl⟩
  · exact hwholly.others receiver (by decide)

end Batch

end ChainLedger
