import ChainLedger.Proofs.Advancing
import ChainLedger.Proofs.Undoing

/-!
# Payloads that are taken back

A payload that leaves the chain changes every address by just what it has changed it by when it
joined the chain, with the opposite signs, at whatever positions the two records stand.  So if the
same payloads join and leave the chain, in any orders and cut into any batches, every row is left
with the totals that it had.
-/

namespace ChainLedger

open Prog

/-! ### Opposite changes -/

namespace Record

/-- Records of the same payloads that join and leave the chain change nothing together. -/
theorem changes_add_eq_zero {added dropped : List Record} (hadded : ∀ r ∈ added, r.kind = .added)
    (hdropped : ∀ r ∈ dropped, r.kind = .dropped)
    (hsame : (dropped.map (·.payload)).Perm (added.map (·.payload))) (key : Address) :
  changes key (added ++ dropped) = 0
  := by
  have hjoin : changes key added = ((added.map (·.payload)).map (·.changes key)).sum := by
    rw [changes_eq_sum, List.map_map]
    exact congrArg List.sum (List.map_congr_left fun r hr => changes_of_added (hadded r hr))
  have hleave : changes key dropped = -((dropped.map (·.payload)).map (·.changes key)).sum := by
    rw [changes_eq_sum, List.sum_neg, List.map_map, List.map_map]
    exact congrArg List.sum (List.map_congr_left fun r hr => changes_of_dropped (hdropped r hr))
  rw [changes_append, hjoin, hleave, (hsame.map _).sum_eq, add_neg_cancel]

end Record

/-! ### The rows -/

variable {Λ : Type} {parties : Parties Λ} {policy : Policy} {p : Partition}

/-- Over rows that are all settled, payloads of one partition join the chain and then leave it
again in any order, at ascending offsets beyond all positions of the partition in the store.
The records are cut into batches anywhere, and these are processed one after another while no call
is lost, nothing overflows and the log accepts every batch.  Then every row that was there has the
totals that it had, and every row that was made on the way has totals of zero. -/
theorem totals_restored {rows₀ rows : Table Address Row} {added dropped : List Record}
    {fs : List Feed} (hkeyed : Keyed rows₀) (hsettled : Settled rows₀)
    (hadded : ∀ r ∈ added, r.kind = .added) (hdropped : ∀ r ∈ dropped, r.kind = .dropped)
    (hsame : (dropped.map (·.payload)).Perm (added.map (·.payload)))
    (hascending : (added ++ dropped).Pairwise fun r r' => r.offset < r'.offset)
    (hbeyond : Beyond p rows₀ (added ++ dropped))
    (h : Feeds policy parties p rows₀ fs rows)
    (hfs : (fs.map (·.records)).flatten = added ++ dropped) (key : Address) :
  (∀ row, rows₀.get? key = some row →
      ∃ row', rows.get? key = some row' ∧ row'.totals = row.totals) ∧
    (rows₀.get? key = none → ∀ row', rows.get? key = some row' → row'.totals = 0)
  := by
  have haccrues := h.accrues hfs hkeyed hsettled hbeyond hascending
  have htotals := haccrues.totals key
  rw [Record.changes_add_eq_zero hadded hdropped hsame, add_zero] at htotals
  constructor
  · intro row hrow
    obtain ⟨row', hrow'⟩ := Option.ne_none_iff_exists'.mp (haccrues.kept key (by simp [hrow]))
    rw [hrow, hrow'] at htotals
    exact ⟨row', hrow', htotals⟩
  · intro hnone row' hrow'
    rw [hnone, hrow'] at htotals
    exact htotals

/-! ### Two transfers -/

namespace Batch

/-- A row that another partition has settled. -/
def firmReceiver : Row where
  key := receiver
  totals := { balance := -7, received := 100, transfers := 3, blocks := -1 }
  version := 12
  source := ⟨away, 40⟩
  settled := true
  firstSeen := 3
  lastSeen := 30

/-- A store of this row. -/
def firmRows : Table Address Row := Table.empty.insert receiver firmReceiver

/-- A transfer from one address to another, and one of an address to itself. -/
def joining : List Record :=
  [remittance home .added sender 5 4, remittance home .added receiver 3 5]

/-- The same transfers taken back, the last one first. -/
def leaving : List Record :=
  [remittance home .dropped receiver 3 6, remittance home .dropped sender 5 9]

theorem firmRows_eq {key : Address} {row : Row} (h : firmRows.get? key = some row) :
  key = receiver ∧ row = firmReceiver
  := by
  rw [firmRows, Table.get?_insert, Table.get?_empty] at h
  split at h
  · next hkey => exact ⟨hkey, (Option.some.inj h).symm⟩
  · cases h

theorem keyed_firmRows :
  Keyed firmRows
  := by
  intro key row hrow
  obtain ⟨rfl, rfl⟩ := firmRows_eq hrow
  rfl

theorem settled_firmRows :
  Settled firmRows
  := by
  intro key row hrow
  obtain ⟨rfl, rfl⟩ := firmRows_eq hrow
  rfl

theorem beyond_firmRows (rs : List Record) :
  Beyond home firmRows rs
  := by
  intro key row hrow hp
  obtain ⟨rfl, rfl⟩ := firmRows_eq hrow
  cases hp

/-- The transfers and their retractions are processed as three batches. -/
theorem exists_feeds_firm :
  ∃ fs rows, Feeds hasty acceptsAll home firmRows fs rows ∧
    (fs.map (·.records)).flatten = joining ++ leaving ∧ fs.length = 3
  := by
  let bound : Totals :=
    { balance := 100, received := 100, transfers := 3, blocks := 1, uncles := 0 }
  have hbound : bound.Within 0 := by
    constructor <;> decide
  have hbounded : ∀ key, Bounded bound 12 (firmRows.get? key) := by
    intro key row hrow
    obtain ⟨rfl, rfl⟩ := firmRows_eq hrow
    refine ⟨?_, Nat.le_refl 12⟩
    constructor <;> decide
  have hrs₁ : ofRecords [remittance home .added sender 5 4]
      = .ok (some ⟨⟨home, 4, 4, 1⟩, [remittance home .added sender 5 4]⟩) :=
    ofRecords_of_ascending (by decide) (by decide)
  have hrs₂ : ofRecords [remittance home .added receiver 3 5, remittance home .dropped receiver 3 6]
      = .ok (some ⟨⟨home, 5, 6, 2⟩,
        [remittance home .added receiver 3 5, remittance home .dropped receiver 3 6]⟩) :=
    ofRecords_of_ascending (by decide) (by decide)
  have hrs₃ : ofRecords [remittance home .dropped sender 5 9]
      = .ok (some ⟨⟨home, 9, 9, 1⟩, [remittance home .dropped sender 5 9]⟩) :=
    ofRecords_of_ascending (by decide) (by decide)
  have hstart : Feeds hasty acceptsAll home firmRows [] firmRows := .start
  obtain ⟨rows₁, hfeeds₁, -, hbounded₁⟩ := hstart.exists_feed () (by decide) hrs₁
    keyed_firmRows (not_stuck_of_settled settled_firmRows) rfl hbound hbounded (by decide)
    (by decide)
  have haccrues₁ : Accrues [remittance home .added sender 5 4] firmRows rows₁ :=
    hfeeds₁.accrues rfl keyed_firmRows settled_firmRows (beyond_firmRows _) (by decide)
  obtain ⟨rows₂, hfeeds₂, -, hbounded₂⟩ := hfeeds₁.exists_feed () (by decide) hrs₂ haccrues₁.keyed
    (not_stuck_of_settled haccrues₁.settled) rfl
    (hbound.add_right (Delta.within_total (List.nil_sublist _))) hbounded₁ (by decide) (by decide)
  have haccrues₂ : Accrues [remittance home .added sender 5 4, remittance home .added receiver 3 5,
      remittance home .dropped receiver 3 6] firmRows rows₂ :=
    hfeeds₂.accrues rfl keyed_firmRows settled_firmRows (beyond_firmRows _) (by decide)
  obtain ⟨rows₃, hfeeds₃, -, -⟩ := hfeeds₂.exists_feed () (by decide) hrs₃ haccrues₂.keyed
    (not_stuck_of_settled haccrues₂.settled) rfl
    ((hbound.add_right (Delta.within_total (List.nil_sublist _))).add_right
      (Delta.within_total (List.nil_sublist _))) hbounded₂ (by decide) (by decide)
  exact ⟨_, rows₃, hfeeds₃, rfl, rfl⟩

/-- The transfers and their retractions leave the row of the address that is paid with the totals
that it had, and the address that pays with zeros. -/
theorem transfers_taken_back :
  ∃ fs rows, Feeds hasty acceptsAll home firmRows fs rows ∧
    (fs.map (·.records)).flatten = joining ++ leaving ∧ fs.length = 3 ∧
    ∀ key, (∀ row, firmRows.get? key = some row →
        ∃ row', rows.get? key = some row' ∧ row'.totals = row.totals) ∧
      (firmRows.get? key = none → ∀ row', rows.get? key = some row' → row'.totals = 0)
  := by
  obtain ⟨fs, rows, hfeeds, hfs, hlength⟩ := exists_feeds_firm
  refine ⟨fs, rows, hfeeds, hfs, hlength, ?_⟩
  exact totals_restored keyed_firmRows settled_firmRows (by decide) (by decide) (by decide)
    (by decide) (beyond_firmRows _) hfeeds hfs

end Batch

end ChainLedger
