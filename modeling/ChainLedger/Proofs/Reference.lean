import ChainLedger.Proofs.Processing

/-!
# Batches that nothing disturbs

What becomes of a batch when no call is lost, nobody else writes the store and nothing
overflows, in closed form: whether it is undone, and if it is not, the row that every
address is left with.
-/

namespace ChainLedger

open Prog

namespace Batch

/-- The row that an undisturbed batch leaves at an address.  With deltas to apply, a row
moves on by their sum to the highest of their offsets and its version by two, and an
address without a row gets one of version one, unless the sum is zero.  Without deltas to
apply, a row is only settled, and only if it is in doubt at a position of the batch. -/
def outcomeAt (b : Batch) (key : Address) (row? : Option Row) : Option Row :=
  let ds := b.pendingFor key row?
  let change := (ds.map (·.change)).sum
  let source : Position := ⟨b.bounds.partition, greatest (ds.map (·.source.offset))⟩
  let time := greatest (ds.map (·.time))
  match row? with
  | some row =>
    if ds = [] then
      if b.InDoubt key (some row) then some { row with version := row.version + 1, settled := true }
      else some row
    else some {
      key := row.key
      totals := row.totals + change
      version := row.version + 2
      source := source
      settled := true
      firstSeen := min row.firstSeen time
      lastSeen := max row.lastSeen time }
  | none =>
    if change = 0 then none
    else some {
      key := key
      totals := change
      version := 1
      source := source
      settled := true
      firstSeen := time
      lastSeen := time }

variable {b : Batch} {rs : List Record} {key : Address} {row? : Option Row} {p : Partition}

/-- A row that the batch has written is in doubt at a position of the batch. -/
theorem Collects.inDoubt_of_written (hb : b.Collects rs) {d : Delta} {row' : Row}
    (hd : b.toApply key row? = some d) (hwritten : Row.written row? d = .ok row') :
  b.InDoubt key (some row')
  := by
  obtain ⟨-, hkey, hcontains, -⟩ := hb.of_toApply hd
  obtain ⟨hsource, hsettled⟩ := Row.of_written hwritten
  exact ⟨hkey, row', rfl, hsettled, hsource ▸ hcontains⟩

/-- What is applied to a row is the whole of the deltas that it does not count. -/
theorem toApply_some {row : Row} (hne : b.pendingFor key (some row) ≠ []) :
  b.toApply key (some row)
    = some (Merge.whole key b.bounds.partition (b.pendingFor key (some row)))
  := by
  rw [toApply, if_neg]
  rintro (hnil | ⟨hnone, -⟩)
  · exact hne hnil
  · cases hnone

/-- A row is made of the whole of all deltas, unless their sum is zero. -/
theorem toApply_none (hne : ((b.pendingFor key none).map (·.change)).sum ≠ 0) :
  b.toApply key none = some (Merge.whole key b.bounds.partition (b.pendingFor key none))
  := by
  rw [toApply, if_neg]
  rintro (hnil | ⟨-, hzero⟩)
  · rw [hnil] at hne
    exact hne rfl
  · exact hne hzero

/-- The row that a batch leaves when it has done all that it is to do, in closed form. -/
theorem Collects.finalAt_eq (hb : b.Collects rs)
    (h : ∀ d, b.toApply key row? = some d → ∃ row', Row.written row? d = .ok row') :
  b.finalAt key row? = b.outcomeAt key row?
  := by
  have hidle : b.toApply key row? = none →
      b.finalAt key row? = if b.InDoubt key row? then row?.map Row.final else row? := by
    intro hnone
    rw [finalAt, writtenAt, hnone]
  have happly : ∀ d row', b.toApply key row? = some d → Row.written row? d = .ok row' →
      b.finalAt key row? = some row'.final := by
    intro d row' hd hwritten
    rw [finalAt, writtenAt_of_written hd hwritten, if_pos (hb.inDoubt_of_written hd hwritten),
      Option.map_some]
  cases row? with
  | some row =>
      rw [outcomeAt]
      split
      · next hnil =>
          rw [hidle (if_pos (.inl hnil)), Option.map_some, Row.final]
      · next hne =>
          have hd := toApply_some hne
          obtain ⟨row', hwritten⟩ := h _ hd
          rw [happly _ row' hd hwritten]
          obtain ⟨-, -, rfl⟩ := Row.apply_eq_ok_iff.mp hwritten
          rfl
  | none =>
      rw [outcomeAt]
      split
      · next hzero =>
          rw [hidle (if_pos (.inr ⟨rfl, hzero⟩)), Option.map_none, ite_self]
      · next hne => exact happly _ _ (toApply_none hne) rfl

/-! ### A transfer -/

/-- An address that pays. -/
def sender : Address := ⟨1, by decide⟩

/-- An address that is paid. -/
def receiver : Address := ⟨2, by decide⟩

/-- A transfer of five units, the first record of its partition. -/
def transfer (p : Partition) : Record where
  kind := .added
  payload := .transaction {
    hash := default
    blockHash := default
    blockNumber := 1
    sender := sender
    recipient := some receiver
    created := none
    value := 5
    fee := 0
    time := 9 }
  partition := p
  offset := 0

/-- A record of a payment of some address to the receiver. -/
def remittance (p : Partition) (kind : Kind) (payer : Address) (value offset : Nat) : Record where
  kind := kind
  payload := .transaction {
    hash := default
    blockHash := default
    blockNumber := 1
    sender := payer
    recipient := some receiver
    created := none
    value := value
    fee := 0
    time := 9 }
  partition := p
  offset := offset

/-- The batch of the transfer alone. -/
def transferBatch (p : Partition) : Batch where
  bounds := ⟨p, 0, 0, 1⟩
  records := [transfer p]

theorem ofRecords_transfer :
  ofRecords [transfer p] = .ok (some (transferBatch p))
  := by
  rw [ofRecords, List.mergeSort_singleton]
  rfl

theorem deltas_transferBatch :
  (transferBatch p).deltas = [
    { key := sender
      change := { balance := -5, transfers := 1 }
      source := ⟨p, 0⟩
      time := 9 },
    { key := receiver
      change := { balance := 5, received := 5, transfers := 1 }
      source := ⟨p, 0⟩
      time := 9 }]
  := rfl

theorem mem_keys_transferBatch {key : Address} :
  key ∈ (transferBatch p).keys ↔ key = sender ∨ key = receiver
  := by
  change key ∈ Delta.keys (transferBatch p).deltas ↔ _
  rw [Delta.mem_keys_iff, deltas_transferBatch]
  simp [eq_comm]

/-- Nothing overflows while the changes of the transfer are added up. -/
theorem summable_transfer (key : Address) (row? : Option Row) :
  Totals.Summable (((transferBatch p).pendingFor key row?).map (·.change))
  := by
  have hone : ∀ d : Delta, d.change.Fits →
      Totals.Summable ((Merge.pending row? [d]).map (·.change)) := by
    intro d hd
    rw [Merge.pending, List.filter_cons, List.filter_nil]
    split
    · exact Totals.summable_singleton hd
    · exact Totals.summable_nil
  rw [pendingFor, deltas_transferBatch]
  by_cases hsender : key = sender
  · subst hsender
    apply hone
    change Totals.Fits { balance := -5, transfers := 1 }
    decide
  · by_cases hreceiver : key = receiver
    · subst hreceiver
      apply hone
      change Totals.Fits { balance := 5, received := 5, transfers := 1 }
      decide
    · rw [List.filter_eq_nil_iff.mpr]
      · exact Totals.summable_nil
      · simp [eq_comm, hsender, hreceiver]

/-- Over no rows, the transfer does not overflow. -/
theorem fits_transfer (rule : TakeoverRule) (positions : Partition → Option Nat) :
  (transferBatch p).Fits rule positions .empty
  := by
  constructor
  · intro key
    apply summable_transfer
  · intro key d _ _
    exact ⟨_, rfl⟩
  · intro _ key row _ hrow
    rw [Table.get?_empty, writtenAt] at hrow
    split at hrow
    · cases hrow
    · cases hrow
      change FitsUnsigned 64 1
      decide

/-! ### The closed form -/

variable {Λ : Type} {parties : Parties Λ} {policy : Policy} {s : Site Λ}

/-- Some records of one partition amount to a batch with their bounds.  If no call is lost,
nobody else writes the store and nothing overflows, then the batch can be processed, with
any number of workers and in any order of their moves, and there is only one way for it to
end.  If the row of one of its addresses is held by a partition that is not known to have
moved on, it is undone and everything is as before.  Else, if the log accepts it, it is
committed, and the row of every address is as the closed form says. -/
theorem process_undisturbed (hne : rs ≠ []) (hp : ∀ r ∈ rs, r.partition = p)
    (hkeyed : Keyed s.rows) :
  ∃ b, ofRecords rs = .ok (some b) ∧ b.Collects rs ∧ b.bounds.partition = p ∧
    (b.Fits policy.takeover (parties.latestOffset s.log) s.rows →
      (∃ r s', Exec (BatchAnswers False parties) s (process policy rs) r s') ∧
      ∀ r s', Exec (BatchAnswers False parties) s (process policy rs) r s' →
        (b.Stuck policy.takeover (parties.latestOffset s.log) s.rows → s' = s ∧
          ∃ locked restored, r = .ok (.ok (.reverted b.bounds locked restored)) ∧
            locked.Nodup ∧ ∀ key, key ∈ locked ↔ key ∈ b.keys ∧
              Blocked policy.takeover (parties.latestOffset s.log) p (s.rows.get? key)) ∧
        (¬ b.Stuck policy.takeover (parties.latestOffset s.log) s.rows →
          (parties.acknowledge s.log b.bounds).2 = .ok () →
          s'.log = (parties.acknowledge s.log b.bounds).1 ∧
          (∃ applied finalized, r = .ok (.ok (.committed b.bounds applied finalized []))) ∧
          ∀ key, s'.rows.get? key = b.outcomeAt key (s.rows.get? key)))
  := by
  obtain ⟨b, hrs⟩ := exists_ofRecords hne hp
  have hb := collects_of_ofRecords hrs
  obtain rfl : b.bounds.partition = p := by
    obtain ⟨r, hr⟩ := List.exists_mem_of_ne_nil _ hne
    rw [← hb.partition r hr, hp r hr]
  refine ⟨b, hrs, hb, rfl, ?_⟩
  intro hfits
  refine ⟨exists_exec (exists_batchAnswers parties) s _, ?_⟩
  intro r s' hexec
  have hfaultless := (process_processed hrs hkeyed hexec).2 id
  constructor
  · intro hstuck
    exact hfaultless.reverted hstuck hfits
  · intro hloose hack
    obtain ⟨hlog, hr, hrows⟩ := hfaultless.committed hloose hfits hack
    refine ⟨hlog, hr, ?_⟩
    intro key
    rw [hrows key]
    apply hb.finalAt_eq
    intro d hd
    apply hfits.writes key d hd
    intro hblocked
    exact hloose ⟨key, (hb.of_toApply hd).2.1, hblocked⟩

/-- A transfer is processed over no rows at all, with a log that accepts everything: the
address that is paid gets a row of version one. -/
theorem transfer_processed_undisturbed :
  ∃ r s', Exec (BatchAnswers False
        { latestOffset := fun _ _ => none, acknowledge := fun n _ => (n + 1, .ok ()) })
      ⟨.empty, 0⟩ (process ⟨20, 100, 30, 5000, .past⟩ [transfer ⟨"TRANSFERS", 0⟩]) r s' ∧
    s'.log = 1 ∧
    s'.rows.get? receiver = some {
      key := receiver
      totals := { balance := 5, received := 5, transfers := 1 }
      version := 1
      source := ⟨⟨"TRANSFERS", 0⟩, 0⟩
      settled := true
      firstSeen := 9
      lastSeen := 9 }
  := by
  let parties : Parties Nat :=
    { latestOffset := fun _ _ => none, acknowledge := fun n _ => (n + 1, .ok ()) }
  obtain ⟨b, hrs, -, -, h⟩ := @process_undisturbed [transfer ⟨"TRANSFERS", 0⟩]
    ⟨"TRANSFERS", 0⟩ Nat parties ⟨20, 100, 30, 5000, .past⟩ ⟨.empty, 0⟩ (by simp)
    (by simp [transfer]) (by intro key row hrow; cases hrow)
  obtain rfl : transferBatch _ = b := by
    rw [ofRecords_transfer] at hrs
    cases hrs
    rfl
  obtain ⟨⟨r, s', hexec⟩, hall⟩ := h (fits_transfer _ _)
  have hloose : ¬ (transferBatch ⟨"TRANSFERS", 0⟩).Stuck .past (parties.latestOffset 0)
      .empty := by
    rintro ⟨key, -, hblocked⟩
    exact hblocked
  obtain ⟨hlog, -, hrows⟩ := (hall r s' hexec).2 hloose rfl
  refine ⟨r, s', hexec, hlog, ?_⟩
  rw [hrows]
  decide

end Batch

end ChainLedger
