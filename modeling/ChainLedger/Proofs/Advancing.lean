import ChainLedger.Proofs.Changes
import ChainLedger.Proofs.Feeding

/-!
# Rows that are settled and behind

A store all of whose rows are settled, and records of a partition beyond every row at a position
of it.  No row is held and none counts any of the records, so a batch of the records adds to every
row just what the records change it by, and leaves rows that are settled again and at positions
of the records.
-/

namespace ChainLedger

open Prog

/-- All rows are settled. -/
def Settled (rows : Table Address Row) : Prop :=
  ∀ key row, rows.get? key = some row → row.settled = true

/-- The records are beyond every row at a position of the partition. -/
def Beyond (p : Partition) (rows : Table Address Row) (rs : List Record) : Prop :=
  ∀ key row, rows.get? key = some row → row.source.partition = p →
    ∀ r ∈ rs, row.source.offset < r.offset

theorem settled_empty :
  Settled .empty
  := by
  intro key row hrow
  cases hrow

/-- To every row is added what the records change it by; rows that are made are at positions of
the records, all rows are settled, and no record raises a version by more than two. -/
structure Accrues (rs : List Record) (rows rows' : Table Address Row) : Prop where
  keyed : Keyed rows'
  settled : Settled rows'
  totals : ∀ key, (rows'.get? key).elim 0 Row.totals
    = (rows.get? key).elim 0 Row.totals + Record.changes key rs
  kept : ∀ key, rows.get? key ≠ none → rows'.get? key ≠ none
  source : ∀ key row', rows'.get? key = some row' →
    rows.get? key = some row' ∨ ∃ r ∈ rs, row'.source = r.position
  version : ∀ key row', rows'.get? key = some row' →
    row'.version ≤ (rows.get? key).elim 0 Row.version + 2 * rs.length

namespace Accrues

variable {rs rs' : List Record} {rows₁ rows₂ rows₃ : Table Address Row}

theorem refl (hkeyed : Keyed rows₁) (hsettled : Settled rows₁) :
  Accrues [] rows₁ rows₁
  := by
  constructor
  · exact hkeyed
  · exact hsettled
  · intro key
    rw [Record.changes_nil, add_zero]
  · intro key hrow
    exact hrow
  · intro key row' hrow
    exact .inl hrow
  · intro key row' hrow
    simp [hrow]

theorem append (h : Accrues rs rows₁ rows₂) (h' : Accrues rs' rows₂ rows₃) :
  Accrues (rs ++ rs') rows₁ rows₃
  := by
  constructor
  · exact h'.keyed
  · exact h'.settled
  · intro key
    rw [h'.totals key, h.totals key, Record.changes_append, add_assoc]
  · intro key hrow
    exact h'.kept key (h.kept key hrow)
  · intro key row' hrow
    rcases h'.source key row' hrow with hrow | ⟨r, hr, hsource⟩
    · exact (h.source key row' hrow).imp_right
        fun ⟨r, hr, hsource⟩ => ⟨r, List.mem_append_left rs' hr, hsource⟩
    · exact .inr ⟨r, List.mem_append_right rs hr, hsource⟩
  · intro key row' hrow
    have hlater := h'.version key row' hrow
    have hearlier : (rows₂.get? key).elim 0 Row.version
        ≤ (rows₁.get? key).elim 0 Row.version + 2 * rs.length := by
      cases hrow₂ : rows₂.get? key with
      | none => exact Nat.zero_le _
      | some row₂ => exact h.version key row₂ hrow₂
    rw [List.length_append]
    omega

/-- Records beyond those that were added are beyond the rows. -/
theorem beyond {p : Partition} (h : Accrues rs rows₁ rows₂) (hbeyond : Beyond p rows₁ rs')
    (hlater : ∀ r ∈ rs, r.partition = p → ∀ r' ∈ rs', r.offset < r'.offset) :
  Beyond p rows₂ rs'
  := by
  intro key row hrow hp r' hr'
  rcases h.source key row hrow with hrow | ⟨r, hr, hsource⟩
  · exact hbeyond key row hrow hp r' hr'
  · rw [hsource] at hp ⊢
    exact hlater r hr hp r' hr'

end Accrues

namespace Batch

variable {Λ : Type} {parties : Parties Λ} {policy : Policy} {p : Partition} {rs : List Record}
  {b : Batch} {rows : Table Address Row} {row? : Option Row}

/-- Over settled rows no batch is stuck. -/
theorem not_stuck_of_settled {rule : TakeoverRule} {positions : Partition → Option Nat}
    (h : Settled rows) :
  ¬ b.Stuck rule positions rows
  := by
  rintro ⟨key, -, hblocked⟩
  cases hrow : rows.get? key with
  | none =>
      rw [hrow] at hblocked
      exact hblocked
  | some row =>
      rw [hrow] at hblocked
      exact hblocked.1.1 (h key row hrow)

/-- For a row that the records are beyond, all deltas of the address are pending. -/
theorem Collects.pendingFor_eq (hb : b.Collects rs) (key : Address)
    (hbeyond : ∀ row ∈ row?, row.source.partition = b.bounds.partition →
      ∀ r ∈ rs, row.source.offset < r.offset) :
  b.pendingFor key row? = b.deltas.filter (·.key = key)
  := by
  rw [pendingFor, Merge.pending]
  apply List.filter_eq_self.mpr
  intro d hd
  obtain ⟨r, hr, hdelta⟩ := hb.mem_deltas_iff.mp (List.mem_filter.mp hd).1
  have hsource := Record.source_of_mem_deltas hdelta
  simp only [decide_eq_true_eq]
  rintro row hrow ⟨hpartition, hle⟩
  rw [Row.SameOrigin, hsource] at hpartition
  rw [hsource] at hle
  exact Nat.not_le_of_lt (hbeyond row hrow (hpartition.trans (hb.partition r hr)) r hr) hle

/-- What a batch leaves of a row that is settled and behind its records: the row with the changes
by the records, at a position of them if there are any, or none if they cancel. -/
theorem Collects.outcomeAt_of_beyond (hb : b.Collects rs) (key : Address)
    (hsettled : ∀ row ∈ row?, row.settled = true)
    (hbeyond : ∀ row ∈ row?, row.source.partition = b.bounds.partition →
      ∀ r ∈ rs, row.source.offset < r.offset) :
  (b.outcomeAt key row?).elim 0 Row.totals = row?.elim 0 Row.totals + Record.changes key rs ∧
    (row? ≠ none → b.outcomeAt key row? ≠ none) ∧
    ∀ row' ∈ b.outcomeAt key row?, row'.settled = true ∧
      (row? = some row' ∨ ∃ r ∈ rs, row'.source = r.position) ∧
      row'.version ≤ row?.elim 0 Row.version + 2 * rs.length
  := by
  have hlength := hb.length_pos
  have hpending := hb.pendingFor_eq key hbeyond
  have htotal : ((b.pendingFor key row?).map (·.change)).sum = Record.changes key rs := by
    rw [hpending]
    exact (((hb.perm.flatMap_right Record.deltas).filter _).map _).sum_eq
  have hsource : b.pendingFor key row? ≠ [] → ∃ r ∈ rs, Position.mk b.bounds.partition
      (greatest ((b.pendingFor key row?).map (·.source.offset))) = r.position := by
    intro hne
    obtain ⟨d, hd, hoffset⟩ := List.mem_map.mp (greatest_mem (List.map_eq_nil_iff.not.mpr hne))
    obtain ⟨r, hr, hdelta⟩ := hb.mem_deltas_iff.mp (mem_pendingFor_iff.mp hd).1.1
    refine ⟨r, hr, ?_⟩
    rw [← hoffset, Record.source_of_mem_deltas hdelta, ← hb.partition r hr]
    rfl
  cases row? with
  | none =>
      rw [outcomeAt]
      split
      · next hzero =>
          rw [htotal] at hzero
          simp [hzero]
      · next hne =>
          have hnil : b.pendingFor key none ≠ [] := by
            intro hnil
            rw [hnil] at hne
            exact hne rfl
          simp only [Option.elim, htotal, zero_add, ne_eq, not_true_eq_false, false_implies,
            Option.mem_some_iff, forall_eq', true_and, reduceCtorEq, false_or, hsource hnil]
          omega
  | some row =>
      rw [outcomeAt]
      split
      · next hnil =>
          have hdoubt : ¬ b.InDoubt key (some row) := by
            rintro ⟨-, _, ⟨⟩, hfalse, -⟩
            rw [hsettled row rfl] at hfalse
            cases hfalse
          rw [hnil] at htotal
          rw [if_neg hdoubt, ← htotal]
          simp [hsettled row rfl]
      · next hne =>
          simp only [Option.elim, htotal, Option.mem_some_iff, forall_eq', true_and, ne_eq,
            reduceCtorEq, not_false_eq_true, implies_true, hsource hne, or_true]
          omega

/-- A batch that has done all that it is to do adds what its records change, over settled rows that
these are beyond. -/
theorem Collects.accrues {rows' : Table Address Row} (hb : b.Collects rs) (hkeyed' : Keyed rows')
    (hsettled : Settled rows) (hbeyond : Beyond b.bounds.partition rows rs)
    (hrows : ∀ key, rows'.get? key = b.outcomeAt key (rows.get? key)) :
  Accrues rs rows rows'
  := by
  have houtcome := fun key => hb.outcomeAt_of_beyond key (hsettled key) (hbeyond key)
  constructor
  · exact hkeyed'
  · intro key row hrow
    rw [hrows key] at hrow
    exact ((houtcome key).2.2 row hrow).1
  · intro key
    rw [hrows key]
    exact (houtcome key).1
  · intro key hrow
    rw [hrows key]
    exact (houtcome key).2.1 hrow
  · intro key row' hrow
    rw [hrows key] at hrow
    exact ((houtcome key).2.2 row' hrow).2.1
  · intro key row' hrow
    rw [hrows key] at hrow
    exact ((houtcome key).2.2 row' hrow).2.2

/-- Over settled rows that its records are beyond, a batch adds what these change, if no call is
lost, nothing overflows and the log accepts it. -/
theorem accrues_of_process {s s' : Site Λ} {r : Except Fault (Except Failure Outcome)}
    (hp : ∀ r ∈ rs, r.partition = p) (hkeyed : Keyed s.rows) (hsettled : Settled s.rows)
    (hbeyond : Beyond p s.rows rs)
    (hexec : Exec (BatchAnswers False parties) s (process policy rs) r s')
    (hcalm : ¬ Overflowed r)
    (haccepts : ∀ b, ofRecords rs = .ok (some b) →
      (parties.acknowledge s.log b.bounds).2 = .ok ()) :
  Accrues rs s.rows s'.rows
  := by
  by_cases hne : rs = []
  · subst hne
    have hno : ∀ b, ofRecords [] ≠ .ok (some b) := by
      intro b hb
      rw [ofRecords, List.mergeSort_nil] at hb
      cases hb
    rw [(process_nothing hno hexec).1]
    exact .refl hkeyed hsettled
  · obtain ⟨b, hrs⟩ := exists_ofRecords hne hp
    have hb := collects_of_ofRecords hrs
    obtain ⟨-, -, hrows⟩ := done_of_loose hrs hkeyed (not_stuck_of_settled hsettled) hexec hcalm
      (haccepts b hrs)
    apply hb.accrues ((process_processed hrs hkeyed hexec).1.keyed hb hkeyed) hsettled _ hrows
    rw [partition_of_ofRecords hrs hp]
    exact hbeyond

end Batch

/-- Over settled rows that the records are beyond, ascending records add what they change,
however they are cut into batches. -/
theorem Feeds.accrues {Λ : Type} {parties : Parties Λ} {policy : Policy} {p : Partition}
    {rows₀ rows : Table Address Row} {fs : List Feed} {rs : List Record}
    (h : Feeds policy parties p rows₀ fs rows) (hfs : (fs.map (·.records)).flatten = rs)
    (hkeyed : Keyed rows₀) (hsettled : Settled rows₀) (hbeyond : Beyond p rows₀ rs)
    (hascending : rs.Pairwise fun r r' => r.offset < r'.offset) :
  Accrues rs rows₀ rows
  := by
  induction h generalizing rs with
  | start =>
      subst hfs
      exact .refl hkeyed hsettled
  | @feed fs rs' rows state r s' h hp hexec hcalm haccepts ih =>
      obtain rfl : (fs.map (·.records)).flatten ++ rs' = rs := by
        rw [← hfs]
        simp
      obtain ⟨hbefore, -, hlater⟩ := List.pairwise_append.mp hascending
      have haccrues := ih rfl (fun key row hrow hp r hr =>
        hbeyond key row hrow hp r (List.mem_append_left rs' hr)) hbefore
      apply haccrues.append
      apply Batch.accrues_of_process (s := ⟨rows, state⟩) hp haccrues.keyed haccrues.settled _ hexec
        hcalm haccepts
      apply haccrues.beyond
      · intro key row hrow hp r hr
        exact hbeyond key row hrow hp r (List.mem_append_right _ hr)
      · intro r hr _ r' hr'
        exact hlater r hr r' hr'

end ChainLedger
