import ChainLedger.Proofs.Times

/-!
# Merging in any order

Merging deltas of one partition is a sum for each address: it goes over the deltas of the address
that the address's row does not count, and the order in which they come makes no difference, as
long as no sum overflows on the way.  An address has a merged delta if some of its deltas are not
counted, unless there is no row and they add up to nothing.
-/

namespace ChainLedger

namespace Merge

/-- The deltas of the address that its row does not count. -/
def uncounted (rows : Table Address Row) (ds : List Delta) (key : Address) : List Delta :=
  ds.filter fun d => d.key = key ∧ ∀ row ∈ rows.get? key, ¬ row.Reflects d.source

/-- For no address does a sum overflow while the deltas are added up in their order. -/
def AddsUp (rows : Table Address Row) (ds : List Delta) : Prop :=
  ∀ key, Totals.Summable ((uncounted rows ds key).map (·.change))

variable {p : Partition} {rows : Table Address Row} {ds ds' : List Delta} {key : Address}
  {merged merged' : Table Address Delta} {d : Delta}

theorem pending_filter_eq_uncounted (rows : Table Address Row) (ds : List Delta) (key : Address) :
  pending (rows.get? key) (ds.filter (·.key = key)) = uncounted rows ds key
  := by
  rw [pending, uncounted, List.filter_filter]
  apply List.filter_congr
  intro d _
  rw [Bool.decide_and, Bool.and_comm]

theorem mem_uncounted_iff :
  d ∈ uncounted rows ds key
    ↔ d ∈ ds ∧ d.key = key ∧ ∀ row ∈ rows.get? key, ¬ row.Reflects d.source
  := by
  rw [uncounted, List.mem_filter, decide_eq_true_iff]

theorem uncounted_perm (h : ds.Perm ds') (rows : Table Address Row) (key : Address) :
  (uncounted rows ds key).Perm (uncounted rows ds' key)
  := h.filter _

/-! ### The merged delta of an address -/

/-- A merged batch holds, for each address, the whole of what is not counted. -/
theorem get?_batch (hp : ∀ d ∈ ds, d.source.partition = p) (h : batch rows ds = .ok merged)
    (key : Address) :
  merged.get? key
    = if Idle (rows.get? key) (uncounted rows ds key) then none
      else some (whole key p (uncounted rows ds key))
  := by
  have hkey := (ofKey_eq_ok_iff fun d hd => hp d (List.mem_filter.mp hd).1).mp
    (ofKey_eq_get?_batch h key)
  rw [pending_filter_eq_uncounted] at hkey
  exact hkey.2

/-- Deltas that add up are merged. -/
theorem exists_batch (hp : ∀ d ∈ ds, d.source.partition = p) (h : AddsUp rows ds) :
  ∃ merged, batch rows ds = .ok merged
  := by
  apply exists_collect
  intro key _
  refine ⟨_, (ofKey_eq_ok_iff fun d hd => hp d (List.mem_filter.mp hd).1).mpr ⟨?_, rfl⟩⟩
  rw [pending_filter_eq_uncounted]
  exact h key

/-- The greatest number of a list is found in any order. -/
theorem greatest_perm {l l' : List Nat} (h : l.Perm l') :
  greatest l = greatest l'
  := h.foldr_eq 0

/-- The whole of some deltas does not depend on their order. -/
theorem whole_perm (h : ds.Perm ds') (key : Address) (p : Partition) :
  whole key p ds = whole key p ds'
  := by
  rw [whole, whole, (h.map _).sum_eq, greatest_perm (h.map _), greatest_perm (h.map _)]

theorem idle_perm (h : ds.Perm ds') (row? : Option Row) :
  Idle row? ds ↔ Idle row? ds'
  := by
  have hnil : ds = [] ↔ ds' = [] := by
    rw [← List.length_eq_zero_iff, ← List.length_eq_zero_iff, h.length_eq]
  rw [Idle, Idle, hnil, (h.map _).sum_eq]

/-- Two orderings of the same deltas, if both are merged, are merged into the same table. -/
theorem batch_congr_perm (hp : ∀ d ∈ ds, d.source.partition = p) (hperm : ds.Perm ds')
    (h : batch rows ds = .ok merged) (h' : batch rows ds' = .ok merged') :
  merged = merged'
  := by
  apply Table.ext
  intro key
  have hrest := uncounted_perm hperm rows key
  rw [get?_batch hp h, get?_batch (fun d hd => hp d (hperm.mem_iff.mpr hd)) h',
    whole_perm hrest, if_congr (idle_perm hrest _) rfl rfl]

/-- The whole of some deltas is at their highest offset. -/
theorem isGreatest_offset_whole (h : ds ≠ []) (key : Address) (p : Partition) :
  IsGreatest {n | ∃ d ∈ ds, d.source.offset = n} (whole key p ds).source.offset
  := by
  have hgreatest :=
    isGreatest_greatest (l := ds.map (·.source.offset)) (List.map_eq_nil_iff.not.mpr h)
  simp only [List.mem_map] at hgreatest
  exact hgreatest

/-- The whole of some deltas is at their latest time. -/
theorem isGreatest_time_whole (h : ds ≠ []) (key : Address) (p : Partition) :
  IsGreatest {t | ∃ d ∈ ds, d.time = t} (whole key p ds).time
  := by
  have hgreatest := isGreatest_greatest (l := ds.map (·.time)) (List.map_eq_nil_iff.not.mpr h)
  simp only [List.mem_map] at hgreatest
  exact hgreatest

theorem mem_keys_batch_iff (hp : ∀ d ∈ ds, d.source.partition = p)
    (h : batch rows ds = .ok merged) :
  key ∈ merged.keys
    ↔ uncounted rows ds key ≠ []
      ∧ ((rows.get? key).isSome ∨ ((uncounted rows ds key).map (·.change)).sum ≠ 0)
  := by
  have hidle : ¬ Idle (rows.get? key) (uncounted rows ds key)
      ↔ uncounted rows ds key ≠ []
        ∧ ((rows.get? key).isSome ∨ ((uncounted rows ds key).map (·.change)).sum ≠ 0) := by
    rw [Idle, not_or, not_and_or, ← ne_eq (rows.get? key), Option.ne_none_iff_isSome]
  rw [Table.mem_keys_iff, get?_batch hp h, ← hidle]
  split
  · next hidle => simp [hidle]
  · next hidle => simp [hidle]

/-- The merged delta of an address is the sum of what is not counted, at the highest offset and
the latest time. -/
theorem of_get?_batch (hp : ∀ d ∈ ds, d.source.partition = p)
    (h : batch rows ds = .ok merged) (hd : merged.get? key = some d) :
  d.key = key ∧ d.source.partition = p
    ∧ d.change = ((uncounted rows ds key).map (·.change)).sum
    ∧ IsGreatest {n | ∃ d' ∈ uncounted rows ds key, d'.source.offset = n} d.source.offset
    ∧ IsGreatest {t | ∃ d' ∈ uncounted rows ds key, d'.time = t} d.time
  := by
  rw [get?_batch hp h] at hd
  split at hd
  · cases hd
  · next hidle =>
      obtain rfl := Option.some.inj hd
      have hne : uncounted rows ds key ≠ [] := fun hnil => hidle (.inl hnil)
      exact ⟨rfl, rfl, rfl, isGreatest_offset_whole hne key p, isGreatest_time_whole hne key p⟩

/-- An address that has a merged delta is one that the deltas change. -/
theorem mem_keys_of_mem_keys_batch (hp : ∀ d ∈ ds, d.source.partition = p)
    (h : batch rows ds = .ok merged) (hkey : key ∈ merged.keys) :
  key ∈ Delta.keys ds
  := by
  obtain ⟨d, hd⟩ := List.exists_mem_of_ne_nil _ ((mem_keys_batch_iff hp h).mp hkey).1
  obtain ⟨hmem, hdkey, -⟩ := mem_uncounted_iff.mp hd
  exact Delta.mem_keys_iff.mpr ⟨d, hmem, hdkey⟩

/-! ### Merging in any order -/

/-- Two orderings of deltas of one partition, none of which overflows, are merged into the same
table.  An address is in it if some of its deltas are not counted by its row, and there is a row
or they do not add up to nothing; its delta is then their sum, at the highest of their offsets and
the latest of their times.  If the deltas are those of some records, then the rows of all these
addresses are among those that are selected for the records. -/
theorem batch_of_perm (hp : ∀ d ∈ ds, d.source.partition = p) (hperm : ds.Perm ds')
    (hsums : AddsUp rows ds) (hsums' : AddsUp rows ds') :
  ∃ merged, batch rows ds = .ok merged ∧ batch rows ds' = .ok merged
    ∧ (∀ key, key ∈ merged.keys
      ↔ uncounted rows ds key ≠ []
        ∧ ((rows.get? key).isSome ∨ ((uncounted rows ds key).map (·.change)).sum ≠ 0))
    ∧ (∀ key d, merged.get? key = some d → d.key = key ∧ d.source.partition = p
      ∧ d.change = ((uncounted rows ds key).map (·.change)).sum
      ∧ IsGreatest {n | ∃ d' ∈ uncounted rows ds key, d'.source.offset = n} d.source.offset
      ∧ IsGreatest {t | ∃ d' ∈ uncounted rows ds key, d'.time = t} d.time)
    ∧ (∀ rs : List Record, rs.flatMap Record.deltas = ds → ∀ key ∈ merged.keys,
      key ∈ Record.keys rs
        ∧ ∀ s : MemoryStore, (s.select (Record.keys rs)).get? key = s.rows.get? key)
  := by
  obtain ⟨merged, h⟩ := exists_batch hp hsums
  obtain ⟨merged', h'⟩ := exists_batch (fun d hd => hp d (hperm.mem_iff.mpr hd)) hsums'
  obtain rfl := batch_congr_perm hp hperm h h'
  refine ⟨merged, h, h', fun key => mem_keys_batch_iff hp h, fun key d => of_get?_batch hp h, ?_⟩
  rintro rs rfl key hkey
  have hmem : key ∈ Record.keys rs := mem_keys_of_mem_keys_batch hp h hkey
  refine ⟨hmem, fun s => ?_⟩
  rw [s.get?_select, if_pos hmem]

/-- Deltas add up if those of every address that they change can be summed. -/
theorem addsUp_of_sums
    (h : ∀ key ∈ Delta.keys ds, (Totals.sum? ((uncounted rows ds key).map (·.change))).isOk) :
  AddsUp rows ds
  := by
  intro key
  by_cases hkey : key ∈ Delta.keys ds
  · have hsum := h key hkey
    cases hc : Totals.sum? ((uncounted rows ds key).map (·.change)) with
    | ok c => exact (Totals.sum?_eq_ok_iff.mp hc).1
    | error e =>
        rw [hc] at hsum
        cases hsum
  · have hnil : uncounted rows ds key = [] := by
      apply List.eq_nil_iff_forall_not_mem.mpr
      intro d hd
      obtain ⟨hmem, hdkey, -⟩ := mem_uncounted_iff.mp hd
      exact hkey (Delta.mem_keys_iff.mpr ⟨d, hmem, hdkey⟩)
    rw [hnil]
    exact Totals.summable_nil

/-- The receiver's row after a first transfer of five units. -/
def countedRow : Row where
  key := Batch.receiver
  totals := { balance := 5, received := 5, transfers := 1 }
  version := 1
  source := ⟨⟨"TRANSFERS", 0⟩, 0⟩
  settled := true
  firstSeen := 9
  lastSeen := 9

/-- The first transfer and a second one of three units. -/
def twoTransfers : List Record :=
  [Batch.transfer ⟨"TRANSFERS", 0⟩,
    Batch.remittance ⟨"TRANSFERS", 0⟩ .added Batch.sender 3 1]

/-- Two transfers of which the receiver's row counts the first one are merged alike in both
orders, and only the second one counts for the receiver. -/
theorem reversed_transfers_merge_alike :
  ∃ merged, batch (Table.empty.insert Batch.receiver countedRow)
        (twoTransfers.flatMap Record.deltas) = .ok merged
    ∧ batch (Table.empty.insert Batch.receiver countedRow)
        (twoTransfers.flatMap Record.deltas).reverse = .ok merged
    ∧ Batch.receiver ∈ merged.keys
    ∧ ∀ d, merged.get? Batch.receiver = some d →
      d.change = { balance := 3, received := 3, transfers := 1 }
  := by
  have hp : ∀ d ∈ twoTransfers.flatMap Record.deltas, d.source.partition = ⟨"TRANSFERS", 0⟩ := by
    decide
  have hsums : AddsUp (Table.empty.insert Batch.receiver countedRow)
      (twoTransfers.flatMap Record.deltas) := addsUp_of_sums (by decide)
  have hsums' : AddsUp (Table.empty.insert Batch.receiver countedRow)
      (twoTransfers.flatMap Record.deltas).reverse := addsUp_of_sums (by decide)
  obtain ⟨merged, h, h', hkeys, hdeltas, -⟩ :=
    batch_of_perm hp (List.reverse_perm _).symm hsums hsums'
  refine ⟨merged, h, h', (hkeys Batch.receiver).mpr (by decide), fun d hd => ?_⟩
  rw [(hdeltas Batch.receiver d hd).2.2.1]
  decide

end Merge

end ChainLedger
