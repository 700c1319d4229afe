import ChainLedger.Proofs.Course
import ChainLedger.Proofs.Deriving
import ChainLedger.Proofs.Grouping

/-!
# Records delivered twice

A record that stands twice in one delivery counts twice.  What a batch does not count again is
what the rows count when it fetches them, and it does not compare its records with each other.  So
a copy changes the totals of an address by all deltas of the record that the address's row does
not count, and it makes no difference only if the batch is undone, or if the rows of all the
record's addresses count the record already.
-/

namespace ChainLedger

open Prog

/-! ### A record changes something -/

/-- How often the totals were changed: the number of transfers, blocks and uncles. -/
def Totals.turns (t : Totals) : Int := t.transfers + t.blocks + t.uncles

theorem Totals.turns_add (t u : Totals) :
  (t + u).turns = t.turns + u.turns
  := by
  simp only [turns, add_transfers, add_blocks, add_uncles]
  omega

theorem Totals.turns_neg (t : Totals) :
  (-t).turns = -t.turns
  := by
  simp only [turns, neg_transfers, neg_blocks, neg_uncles]
  omega

/-- Deltas that all turn a total equally often turn it as often as there are deltas. -/
theorem Delta.turns_total {ds : List Delta} {n : Int} (h : ∀ d ∈ ds, d.change.turns = n) :
  (Delta.total ds).turns = ds.length * n
  := by
  induction ds with
  | nil =>
      rw [List.length_nil]
      exact (Int.zero_mul n).symm
  | cons d ds ih =>
      have hcons : Delta.total (d :: ds) = d.change + Delta.total ds := rfl
      rw [hcons, Totals.turns_add, h d (.head _), ih fun d' hd' => h d' (.tail _ hd'),
        List.length_cons, Int.natCast_succ, Int.add_mul, Int.one_mul, Int.add_comm]

/-- Every delta of a payload is one transfer, one block or one uncle. -/
theorem Payload.turns_of_mem_whole {q : Payload} {p : Position} {d : Delta} (h : d ∈ q.whole p) :
  d.change.turns = 1
  := by
  cases q with
  | block b =>
      obtain rfl := List.mem_singleton.mp h
      rfl
  | uncle u =>
      obtain rfl := List.mem_singleton.mp h
      rfl
  | transaction t =>
      rcases List.mem_cons.mp h with rfl | h
      · rfl
      · obtain ⟨a, -, rfl⟩ := List.mem_map.mp h
        rfl

/-- Some of the deltas of a record never add up to nothing. -/
theorem Record.total_ne_zero {r : Record} {ds : List Delta} (hds : ∀ d ∈ ds, d ∈ r.deltas)
    (hne : ds ≠ []) :
  Delta.total ds ≠ 0
  := by
  -- the amounts of a record may cancel, but each of its deltas counts the same one event
  have hturns : ∃ n : Int, n ≠ 0 ∧ ∀ d ∈ r.deltas, d.change.turns = n := by
    rcases deltas_cases r with ⟨-, h⟩ | ⟨-, -, h⟩ | ⟨-, -, h⟩
    · obtain ⟨d, hd⟩ := List.exists_mem_of_ne_nil _ hne
      have hmem := hds d hd
      rw [h] at hmem
      cases hmem
    · refine ⟨1, Int.one_ne_zero, fun d hd => ?_⟩
      rw [h] at hd
      exact Payload.turns_of_mem_whole hd
    · refine ⟨-1, by decide, fun d hd => ?_⟩
      rw [h] at hd
      obtain ⟨d', hd', rfl⟩ := List.mem_map.mp hd
      have hneg : (Delta.negated d').change.turns = -d'.change.turns := Totals.turns_neg _
      rw [hneg, Payload.turns_of_mem_whole hd']
  obtain ⟨n, hn, hall⟩ := hturns
  intro hzero
  have htotal := Delta.turns_total fun d hd => hall d (hds d hd)
  rw [hzero] at htotal
  have hlength : (ds.length : Int) ≠ 0 := by
    rw [Ne, Int.natCast_eq_zero, List.length_eq_zero_iff]
    exact hne
  exact Int.mul_ne_zero hlength hn htotal.symm

/-! ### What an undisturbed batch adds -/

namespace Batch

variable {b b' : Batch} {rs front back : List Record} {r : Record} {key : Address}
  {rows : Table Address Row}

/-- An undisturbed batch adds to the totals of an address what its row does not count. -/
theorem totals_outcomeAt (b : Batch) (key : Address) (row? : Option Row) :
  (b.outcomeAt key row?).elim 0 Row.totals
    = row?.elim 0 Row.totals + Delta.total (b.pendingFor key row?)
  := by
  cases row? with
  | none =>
      rw [outcomeAt]
      split
      · next hzero =>
          have htotal : Delta.total (b.pendingFor key none) = 0 := hzero
          rw [htotal]
          rfl
      · exact (zero_add (Delta.total (b.pendingFor key none))).symm
  | some row =>
      rw [outcomeAt]
      split
      · next hnil =>
          rw [hnil]
          have hzero : Delta.total [] = 0 := rfl
          rw [hzero, add_zero]
          split
          · rfl
          · rfl
      · rfl

/-- The batch with the copy has the deltas of the record once more. -/
theorem Collects.deltas_perm_of_copy (hb : b.Collects (front ++ back))
    (hb' : b'.Collects (front ++ r :: back)) :
  b'.deltas.Perm (r.deltas ++ b.deltas)
  := by
  have hrecords : b'.records.Perm (r :: b.records) :=
    (hb'.perm.trans List.perm_middle).trans (hb.perm.symm.cons r)
  exact hrecords.flatMap_right Record.deltas

/-- With the copy, so much more is pending as the row does not count of the record. -/
theorem Collects.total_pendingFor_of_copy (hb : b.Collects (front ++ back))
    (hb' : b'.Collects (front ++ r :: back)) (rows : Table Address Row) (key : Address) :
  Delta.total (b'.pendingFor key (rows.get? key))
    = Delta.total (b.pendingFor key (rows.get? key))
      + Delta.total (Merge.uncounted rows r.deltas key)
  := by
  have hperm := Merge.uncounted_perm (hb.deltas_perm_of_copy hb') rows key
  rw [pendingFor, pendingFor, Merge.pending_filter_eq_uncounted,
    Merge.pending_filter_eq_uncounted, Delta.total, (hperm.map _).sum_eq, Merge.uncounted,
    List.filter_append, List.map_append, List.sum_append, add_comm]
  rfl

/-- The copy adds no address to the batch. -/
theorem Collects.mem_keys_of_copy (hb : b.Collects (front ++ back))
    (hb' : b'.Collects (front ++ r :: back)) (hr : r ∈ front ++ back) :
  key ∈ b'.keys ↔ key ∈ b.keys
  := by
  have hmem : ∀ d, d ∈ b'.deltas ↔ d ∈ b.deltas := by
    intro d
    rw [(hb.deltas_perm_of_copy hb').mem_iff, List.mem_append]
    refine or_iff_right_of_imp fun hd => ?_
    exact hb.mem_deltas_iff.mpr ⟨r, hr, hd⟩
  have hkeys : ∀ c : Batch, key ∈ c.keys ↔ ∃ d ∈ c.deltas, d.key = key :=
    fun c => Delta.mem_keys_iff
  simp only [hkeys, hmem]

/-- A batch is stuck with the copy exactly if it is stuck without it. -/
theorem Collects.stuck_of_copy {rule : TakeoverRule} {positions : Partition → Option Nat}
    (hb : b.Collects (front ++ back)) (hb' : b'.Collects (front ++ r :: back))
    (hr : r ∈ front ++ back) :
  b'.Stuck rule positions rows ↔ b.Stuck rule positions rows
  := by
  have hpartition : b'.bounds.partition = b.bounds.partition := by
    rw [← hb.partition r hr, hb'.partition r (List.mem_append_right _ (.head _))]
  simp only [Stuck, hpartition, hb.mem_keys_of_copy hb' hr]

/-- Nothing of a record is left uncounted for any address exactly if the rows of all its addresses
count it. -/
theorem total_uncounted_eq_zero_iff (rows : Table Address Row) (r : Record) :
  (∀ key, Delta.total (Merge.uncounted rows r.deltas key) = 0)
    ↔ ∀ d ∈ r.deltas, ∃ row, rows.get? d.key = some row ∧ row.Reflects r.position
  := by
  constructor
  · intro h d hd
    have hnil : Merge.uncounted rows r.deltas d.key = [] := by
      by_contra hne
      exact Record.total_ne_zero (fun d' hd' => (Merge.mem_uncounted_iff.mp hd').1) hne (h d.key)
    by_contra hnone
    have hmem : d ∈ Merge.uncounted rows r.deltas d.key := by
      apply Merge.mem_uncounted_iff.mpr
      refine ⟨hd, rfl, fun row hrow hreflects => hnone ⟨row, hrow, ?_⟩⟩
      rw [← Record.source_of_mem_deltas hd]
      exact hreflects
    rw [hnil] at hmem
    cases hmem
  · intro h key
    have hnil : Merge.uncounted rows r.deltas key = [] := by
      apply List.eq_nil_iff_forall_not_mem.mpr
      intro d hd
      obtain ⟨hmem, rfl, hnew⟩ := Merge.mem_uncounted_iff.mp hd
      obtain ⟨row, hrow, hreflects⟩ := h d hmem
      apply hnew row hrow
      rw [Record.source_of_mem_deltas hmem]
      exact hreflects
    rw [hnil]
    rfl

/-! ### Deliveries with and without a copy -/

variable {Λ : Type} {parties : Parties Λ} {policy : Policy} {s s' : Site Λ}
  {o : Except Fault (Except Failure Outcome)}

/-- An undisturbed batch that fits and that the log accepts leaves everything as it is if it is
stuck, and else adds to the totals of every address what its row does not count. -/
theorem totals_of_undisturbed (hrs : ofRecords rs = .ok (some b)) (hkeyed : Keyed s.rows)
    (hfits : b.Fits policy.takeover (parties.latestOffset s.log) s.rows)
    (hack : (parties.acknowledge s.log b.bounds).2 = .ok ())
    (hexec : Exec (BatchAnswers False parties) s (process policy rs) o s') :
  (b.Stuck policy.takeover (parties.latestOffset s.log) s.rows → s' = s) ∧
    (¬ b.Stuck policy.takeover (parties.latestOffset s.log) s.rows → ∀ key,
      (s'.rows.get? key).elim 0 Row.totals = (s.rows.get? key).elim 0 Row.totals
        + Delta.total (b.pendingFor key (s.rows.get? key)))
  := by
  have hb := collects_of_ofRecords hrs
  have hfaultless := (process_processed hrs hkeyed hexec).2 id
  constructor
  · intro hstuck
    exact (hfaultless.reverted hstuck hfits).1
  · intro hloose key
    obtain ⟨-, -, hrows⟩ := hfaultless.committed hloose hfits hack
    rw [hrows key, hb.finalAt_eq, totals_outcomeAt]
    intro d hd
    apply hfits.writes key d hd
    intro hblocked
    exact hloose ⟨key, (hb.of_toApply hd).2.1, hblocked⟩

/-- Some records of one partition are processed as they are and with a copy of one of them put in
somewhere, from the same site, while no call is lost, nobody else writes the store, nothing
overflows and the log accepts the batch.  If the batch is stuck, then everything stays as it is,
with the copy and without it.  Else the copy adds to the totals of every address the deltas of the
record that the address's row does not count.  So the copy makes no difference to the totals
exactly if the batch is stuck or the rows of all the record's addresses count the record. -/
theorem totals_with_copy (hrs : ofRecords (front ++ back) = .ok (some b))
    (hcopied : ofRecords (front ++ r :: back) = .ok (some b')) (hr : r ∈ front ++ back)
    (hkeyed : Keyed s.rows)
    (hfits : b.Fits policy.takeover (parties.latestOffset s.log) s.rows)
    (hfits' : b'.Fits policy.takeover (parties.latestOffset s.log) s.rows)
    (hack : (parties.acknowledge s.log b.bounds).2 = .ok ())
    (hack' : (parties.acknowledge s.log b'.bounds).2 = .ok ()) :
  (∃ o s₁, Exec (BatchAnswers False parties) s (process policy (front ++ back)) o s₁) ∧
    (∃ o s₂, Exec (BatchAnswers False parties) s (process policy (front ++ r :: back)) o s₂) ∧
    ∀ o₁ s₁ o₂ s₂, Exec (BatchAnswers False parties) s (process policy (front ++ back)) o₁ s₁ →
      Exec (BatchAnswers False parties) s (process policy (front ++ r :: back)) o₂ s₂ →
      (b.Stuck policy.takeover (parties.latestOffset s.log) s.rows → s₁ = s ∧ s₂ = s) ∧
      (¬ b.Stuck policy.takeover (parties.latestOffset s.log) s.rows → ∀ key,
        (s₂.rows.get? key).elim 0 Row.totals = (s₁.rows.get? key).elim 0 Row.totals
          + Delta.total (Merge.uncounted s.rows r.deltas key)) ∧
      ((∀ key, (s₂.rows.get? key).elim 0 Row.totals = (s₁.rows.get? key).elim 0 Row.totals)
        ↔ b.Stuck policy.takeover (parties.latestOffset s.log) s.rows
          ∨ ∀ d ∈ r.deltas, ∃ row, s.rows.get? d.key = some row ∧ row.Reflects r.position)
  := by
  have hb := collects_of_ofRecords hrs
  have hb' := collects_of_ofRecords hcopied
  refine ⟨exists_exec (exists_batchAnswers parties) s _,
    exists_exec (exists_batchAnswers parties) s _, ?_⟩
  intro o₁ s₁ o₂ s₂ hexec hexec'
  obtain ⟨hundone, hdone⟩ := totals_of_undisturbed hrs hkeyed hfits hack hexec
  obtain ⟨hundone', hdone'⟩ := totals_of_undisturbed hcopied hkeyed hfits' hack' hexec'
  rw [hb.stuck_of_copy hb' hr] at hundone' hdone'
  have hadds : ¬ b.Stuck policy.takeover (parties.latestOffset s.log) s.rows → ∀ key,
      (s₂.rows.get? key).elim 0 Row.totals = (s₁.rows.get? key).elim 0 Row.totals
        + Delta.total (Merge.uncounted s.rows r.deltas key) := by
    intro hloose key
    rw [hdone hloose key, hdone' hloose key, hb.total_pendingFor_of_copy hb', add_assoc]
  refine ⟨fun hstuck => ⟨hundone hstuck, hundone' hstuck⟩, hadds, ?_⟩
  by_cases hstuck : b.Stuck policy.takeover (parties.latestOffset s.log) s.rows
  · rw [hundone hstuck, hundone' hstuck]
    exact iff_of_true (fun _ => rfl) (.inl hstuck)
  · rw [or_iff_right hstuck, ← total_uncounted_eq_zero_iff]
    simp only [hadds hstuck, add_eq_left]

/-! ### A transfer delivered twice -/

/-- Over no rows a batch fits if its weight does. -/
theorem fits_of_empty {rule : TakeoverRule} {positions : Partition → Option Nat}
    (h : (Delta.weight b.deltas).Fits) :
  b.Fits rule positions .empty
  := by
  apply fits_of_bounded (v := 0) fun _ => Totals.within_zero
  · rintro key row ⟨⟩
  · intro key
    rw [zero_add]
    exact (Delta.within_weight List.filter_sublist).fits h
  · decide

theorem not_stuck_of_empty {rule : TakeoverRule} {positions : Partition → Option Nat} :
  ¬ b.Stuck rule positions .empty
  := by
  rintro ⟨key, -, hblocked⟩
  exact hblocked

/-- The batch of a transfer and its copy. -/
def transferTwice (p : Partition) : Batch where
  bounds := ⟨p, 0, 0, 2⟩
  records := [transfer p, transfer p]

theorem ofRecords_transferTwice (p : Partition) :
  ofRecords [transfer p, transfer p] = .ok (some (transferTwice p))
  := by
  apply ofRecords_of_ascending
  · exact List.pairwise_pair.mpr (Nat.le_refl _)
  · intro r hr
    obtain rfl := List.mem_singleton.mp hr
    rfl

/-- Over no rows, a copy of a transfer adds the whole transfer. -/
theorem copied_transfer_adds :
  ∃ o₁ s₁ o₂ s₂,
    Exec (BatchAnswers False acceptsAll) ⟨.empty, ()⟩
      (process ⟨20, 100, 30, 5000, .past⟩ [transfer ⟨"TRANSFERS", 0⟩]) o₁ s₁ ∧
    Exec (BatchAnswers False acceptsAll) ⟨.empty, ()⟩
      (process ⟨20, 100, 30, 5000, .past⟩
        [transfer ⟨"TRANSFERS", 0⟩, transfer ⟨"TRANSFERS", 0⟩]) o₂ s₂ ∧
    ∀ key, (s₂.rows.get? key).elim 0 Row.totals = (s₁.rows.get? key).elim 0 Row.totals
      + Delta.total (Merge.uncounted .empty (transfer ⟨"TRANSFERS", 0⟩).deltas key)
  := by
  have hmem : transfer ⟨"TRANSFERS", 0⟩ ∈ [] ++ [transfer ⟨"TRANSFERS", 0⟩] := .head _
  have hfits : (transferTwice ⟨"TRANSFERS", 0⟩).Fits (Policy.takeover ⟨20, 100, 30, 5000, .past⟩)
      (acceptsAll.latestOffset ()) .empty := fits_of_empty (by decide)
  obtain ⟨⟨o₁, s₁, hexec⟩, ⟨o₂, s₂, hexec'⟩, h⟩ :=
    totals_with_copy (s := ⟨.empty, ()⟩) ofRecords_transfer (ofRecords_transferTwice _) hmem
      keyed_empty (fits_transfer _ _) hfits rfl rfl
  exact ⟨o₁, s₁, o₂, s₂, hexec, hexec', (h o₁ s₁ o₂ s₂ hexec hexec').2.1 not_stuck_of_empty⟩

/-- A transfer of five units that is delivered twice pays ten units, and one that is delivered
once pays five, whatever the order and the number of the workers. -/
theorem copied_transfer_counts_twice :
  (∃ o s, Exec (BatchAnswers False acceptsAll) ⟨.empty, ()⟩
      (process ⟨20, 100, 30, 5000, .past⟩
        [transfer ⟨"TRANSFERS", 0⟩, transfer ⟨"TRANSFERS", 0⟩]) o s) ∧
    (∀ o s, Exec (BatchAnswers False acceptsAll) ⟨.empty, ()⟩
      (process ⟨20, 100, 30, 5000, .past⟩ [transfer ⟨"TRANSFERS", 0⟩]) o s →
      (s.rows.get? receiver).elim 0 Row.totals
        = { balance := 5, received := 5, transfers := 1 }) ∧
    ∀ o s, Exec (BatchAnswers False acceptsAll) ⟨.empty, ()⟩
      (process ⟨20, 100, 30, 5000, .past⟩
        [transfer ⟨"TRANSFERS", 0⟩, transfer ⟨"TRANSFERS", 0⟩]) o s →
      (s.rows.get? receiver).elim 0 Row.totals
        = { balance := 10, received := 10, transfers := 2 }
  := by
  refine ⟨exists_exec (exists_batchAnswers acceptsAll) _ _, ?_, ?_⟩
  · intro o s hexec
    rw [(totals_of_undisturbed ofRecords_transfer keyed_empty (fits_transfer _ _) rfl hexec).2
      not_stuck_of_empty]
    decide
  · intro o s hexec
    rw [(totals_of_undisturbed (ofRecords_transferTwice _) keyed_empty
      (fits_of_empty (by decide)) rfl hexec).2 not_stuck_of_empty]
    decide

end Batch

end ChainLedger
