import ChainLedger.Proofs.Alone
import ChainLedger.Proofs.Course
import ChainLedger.Proofs.Magnitude

/-!
# Overflow

Every amount of a record fits, but amounts are added up: within a batch, from the first
record to the last, and then to the row.  A batch is stopped exactly if some of these sums
does not fit, even if it would fit in another order.  If the weight of everything delivered
fits, nothing is ever stopped.
-/

namespace ChainLedger

open Prog

namespace Batch

variable {Λ : Type} {parties : Parties Λ} {policy : Policy} {rs : List Record} {b : Batch}
  {s : Site Λ} {p : Partition}

/-- If the deltas of some address cannot be added up, the batch is stopped before it writes
anything, and so it is when it is delivered again. -/
theorem process_unsummable (hrs : ofRecords rs = .ok (some b)) (hkeyed : Keyed s.rows)
    {key : Address}
    (hsums : ¬ Totals.Summable ((b.pendingFor key (s.rows.get? key)).map (·.change))) :
  Ensures (BatchAnswers False parties) s (process policy rs)
    (fun r s' => (∃ o, r = .error (.overflow o)) ∧ s' = s)
  := by
  rw [process]
  apply ensures_accepting
  · rw [if_pos rfl, hrs]
    refine run_spec (collects_of_ofRecords hrs) hkeyed ?_ ?_ ?_ ?_
    · exact False.elim
    · intro _ o
      exact ⟨⟨o, rfl⟩, rfl⟩
    · intro carried jobs ends rows₁ h
      exact absurd (h.sums key) hsums
    · intro carried jobs results rows₁ h
      exact absurd (h.sums key) hsums
  · exact False.elim

/-! ### Deliveries of one partition -/

/-- From an empty store on, records of the partition are delivered and processed, whatever
calls are lost on the way.  Meanwhile the log and what the oracle tells may change. -/
inductive Delivered (policy : Policy) (parties : Parties Λ) (p : Partition) :
    List (List Record) → Table Address Row → Prop
  | start : Delivered policy parties p [] .empty
  | deliver {rss : List (List Record)} {rows : Table Address Row} {rs : List Record} {state : Λ}
      {r : Except Fault (Except Failure Outcome)} {s' : Site Λ}
      (h : Delivered policy parties p rss rows) (hp : ∀ r ∈ rs, r.partition = p)
      (hexec : Exec (BatchAnswers True parties) ⟨rows, state⟩ (process policy rs) r s') :
      Delivered policy parties p (rss ++ [rs]) s'.rows

/-- The weight of all records of some deliveries at an address. -/
def weightOf (rss : List (List Record)) (key : Address) : Totals :=
  Delta.weight ((rss.flatten.flatMap Record.deltas).filter (·.key = key))

variable {rss : List (List Record)} {rows : Table Address Row}

theorem weightOf_append (rss : List (List Record)) (rs : List Record) (key : Address) :
  weightOf (rss ++ [rs]) key = weightOf rss key + Record.weight key rs
  := by
  change Record.weight key (rss ++ [rs]).flatten = Record.weight key rss.flatten + _
  rw [List.flatten_append, List.flatten_singleton, Record.weight_append]

theorem within_weightOf (rss : List (List Record)) (key : Address) :
  (weightOf rss key).Within 0
  := Record.weight_within key rss.flatten

/-- Deliveries leave the partition alone. -/
theorem Delivered.alone (h : Delivered policy parties p rss rows) :
  Keyed rows ∧ Sole p rows
  := by
  induction h with
  | start => exact ⟨keyed_empty, sole_empty p⟩
  | deliver _ hp hexec ih => apply sole_of_process hp ih.1 ih.2 hexec

/-- After some deliveries every row is bounded by the weight of what was delivered. -/
theorem Delivered.bounded (h : Delivered policy parties p rss rows) (key : Address) :
  Bounded (weightOf rss key) (2 * rss.length) (rows.get? key)
  := by
  induction h with
  | start => rintro row ⟨⟩
  | @deliver rss rows rs state r s' h hp hexec ih =>
      rw [weightOf_append, List.length_append, List.length_singleton]
      by_cases hno : ∃ b, ofRecords rs = .ok (some b)
      · obtain ⟨b, hrs⟩ := hno
        rw [← (collects_of_ofRecords hrs).weight_eq]
        have heffect := (process_processed hrs h.alone.1 hexec).1
        apply (heffect.stage key).bounded (within_weightOf rss key) ih
      · rw [(process_nothing (fun b hb => hno ⟨b, hb⟩) hexec).1]
        intro row hrow
        obtain ⟨hwithin, hversion⟩ := ih row hrow
        refine ⟨hwithin.add_right (Record.weight_within key rs), ?_⟩
        omega

/-- After any deliveries of records of one partition, from an empty store on, let another
batch of it be processed while no call is lost.  It is stopped by an overflow only if
something does not fit: the changes to an address, added up from the first record to the
last, or its row with their sum, or a version.  If something does not fit, it is stopped
unless the log refuses it.  And if for every address the weight of everything delivered
fits, and so does twice the number of deliveries, then it is not stopped. -/
theorem overflowed_iff_not_fits (h : Delivered policy parties p rss rows)
    (hp : ∀ r ∈ rs, r.partition = p) (hrs : ofRecords rs = .ok (some b)) {state : Λ}
    {r : Except Fault (Except Failure Outcome)} {s' : Site Λ}
    (hexec : Exec (BatchAnswers False parties) ⟨rows, state⟩ (process policy rs) r s') :
  (Overflowed r → ¬ b.Fits policy.takeover (parties.latestOffset state) rows) ∧
    (¬ b.Fits policy.takeover (parties.latestOffset state) rows →
      (parties.acknowledge state b.bounds).2 = .ok () → Overflowed r) ∧
    ((∀ key, (weightOf (rss ++ [rs]) key).Fits) → FitsUnsigned 64 (2 * (rss.length + 1)) →
      ¬ Overflowed r)
  := by
  have hverdict := process_alone hrs hp h.alone.1 h.alone.2 hexec
  have hnot : Overflowed r → ¬ b.Fits policy.takeover (parties.latestOffset state) rows := by
    intro hr
    cases hverdict with
    | overflowed _ hfits => apply hfits
    | refused hack => rcases hr with ⟨o, hr⟩ | hr <;> cases hr
    | committed hfits hack hrows => rcases hr with ⟨o, hr⟩ | hr <;> cases hr
  refine ⟨hnot, ?_, ?_⟩
  · intro hfits hack
    cases hverdict with
    | overflowed hr _ => apply hr
    | refused hrefused =>
        rw [hack] at hrefused
        cases hrefused
    | committed hfits' _ _ => apply absurd hfits' hfits
  · intro hweight hlength hr
    apply hnot hr
    apply fits_of_bounded (within_weightOf rss) h.bounded
    · intro key
      rw [(collects_of_ofRecords hrs).weight_eq, ← weightOf_append]
      apply hweight key
    · apply hlength

/-- The first transfer of a partition is delivered, and nothing overflows. -/
theorem transfer_not_overflowed :
  ∃ r s', Exec (BatchAnswers False acceptsAll) ⟨.empty, ()⟩
      (process ⟨20, 100, 30, 5000, .past⟩ [transfer ⟨"TRANSFERS", 0⟩]) r s' ∧ ¬ Overflowed r
  := by
  obtain ⟨r, s', hexec⟩ := exists_exec (exists_batchAnswers acceptsAll) ⟨.empty, ()⟩
    (process ⟨20, 100, 30, 5000, .past⟩ [transfer ⟨"TRANSFERS", 0⟩])
  refine ⟨r, s', hexec, ?_⟩
  have hp : ∀ r ∈ [transfer ⟨"TRANSFERS", 0⟩], r.partition = ⟨"TRANSFERS", 0⟩ := by
    intro r hr
    obtain rfl := List.mem_singleton.mp hr
    rfl
  have hweight : (Delta.weight (transferBatch ⟨"TRANSFERS", 0⟩).deltas).Fits := by decide
  apply (overflowed_iff_not_fits .start hp ofRecords_transfer hexec).2.2
  · intro key
    apply Totals.Within.fits _ hweight
    apply Delta.within_weight List.filter_sublist
  · decide

/-! ### Amounts that fit alone -/

/-- An address that pays and gets its payment back. -/
def payer : Address := ⟨3, by decide⟩

/-- The receiver is paid the greatest amount that there is, and one unit more that is taken
back. -/
def payments : List Record :=
  [remittance ⟨"TRANSFERS", 0⟩ .added sender (2 ^ 127 - 1) 0,
    remittance ⟨"TRANSFERS", 0⟩ .added payer 1 1, remittance ⟨"TRANSFERS", 0⟩ .dropped payer 1 2]

theorem ofRecords_payments :
  ofRecords payments = .ok (some ⟨⟨⟨"TRANSFERS", 0⟩, 0, 2, 3⟩, payments⟩)
  := by
  apply ofRecords_of_ascending
  · decide
  · decide

/-- What all payments together change at an address fits. -/
theorem fits_total_payments (key : Address) :
  (Delta.total ((payments.flatMap Record.deltas).filter (·.key = key))).Fits
  := by
  by_cases hkey : key ∈ [sender, receiver, payer]
  · revert key
    decide
  · have hkeys : ∀ d ∈ payments.flatMap Record.deltas, d.key ∈ [sender, receiver, payer] := by
      decide
    have hnil : (payments.flatMap Record.deltas).filter (·.key = key) = [] := by
      apply List.filter_eq_nil_iff.mpr
      intro d hd hdkey
      apply hkey
      rw [← of_decide_eq_true hdkey]
      apply hkeys d hd
    rw [hnil]
    decide

/-- Records that are all accepted, and whose changes to every address fit in all, stop
their batch for good: whenever they are processed over no rows, the batch is stopped by an
overflow and leaves everything as it was. -/
theorem payments_overflow :
  ∃ (p : Partition) (rs : List Record) (policy : Policy),
    (∀ r ∈ rs, r.Fits ∧ r.skipped? = none ∧ r.partition = p) ∧
    (∀ key, (Delta.total ((rs.flatMap Record.deltas).filter (·.key = key))).Fits) ∧
    (∃ r s', Exec (BatchAnswers False acceptsAll) ⟨.empty, ()⟩ (process policy rs) r s') ∧
    ∀ r s', Exec (BatchAnswers False acceptsAll) ⟨.empty, ()⟩ (process policy rs) r s' →
      (∃ o, r = .error (.overflow o)) ∧ s' = ⟨.empty, ()⟩
  := by
  refine ⟨⟨"TRANSFERS", 0⟩, payments, ⟨20, 100, 30, 5000, .past⟩, by decide,
    fits_total_payments, ?_, ?_⟩
  · apply exists_exec (exists_batchAnswers acceptsAll)
  · have hsums : ¬ Totals.Summable ((pendingFor ⟨⟨⟨"TRANSFERS", 0⟩, 0, 2, 3⟩, payments⟩
        receiver none).map (·.change)) := by
      intro hsums
      have hover := hsums [_, _] ⟨[_], rfl⟩
      revert hover
      decide
    apply process_unsummable ofRecords_payments keyed_empty hsums

end Batch

end ChainLedger
