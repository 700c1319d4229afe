import ChainLedger.Proofs.Delivery
import ChainLedger.Proofs.Settling

/-!
# What a batch is to do

For every address a batch is to apply one delta, the whole of the deltas that the row
does not count, or nothing.  What it is to do depends on the row alone, and the jobs of
the batch are exactly these deltas with their rows.
-/

namespace ChainLedger

namespace Batch

/-- The deltas of the batch for one address that its row does not count. -/
def pendingFor (b : Batch) (key : Address) (row? : Option Row) : List Delta :=
  Merge.pending row? (b.deltas.filter (·.key = key))

/-- The delta that the batch is to apply to the row of one address, if any. -/
def toApply (b : Batch) (key : Address) (row? : Option Row) : Option Delta :=
  if Merge.Idle row? (b.pendingFor key row?) then none
  else some (Merge.whole key b.bounds.partition (b.pendingFor key row?))

/-- The row of one address after the batch has applied what it is to apply. -/
def writtenAt (b : Batch) (key : Address) (row? : Option Row) : Option Row :=
  match b.toApply key row? with
  | none => row?
  | some d => (Row.written row? d).toOption

/-- The batch may write the row of the address: there is something to apply, it fits, and
no other partition holds the row. -/
structure Writes (b : Batch) (rule : TakeoverRule) (positions : Partition → Option Nat)
    (key : Address) (row? : Option Row) : Prop where
  free : ¬ Blocked rule positions b.bounds.partition row?
  written : ∃ d row', b.toApply key row? = some d ∧ Row.written row? d = .ok row'

/-- The address is one of the batch, and its row is in doubt at a position of the batch. -/
def InDoubt (b : Batch) (key : Address) (row? : Option Row) : Prop :=
  key ∈ b.keys ∧ ∃ row ∈ row?, row.settled = false ∧ b.bounds.Contains row.source

instance (b : Batch) (key : Address) (row? : Option Row) : Decidable (b.InDoubt key row?) :=
  inferInstanceAs (Decidable (_ ∧ _))

/-- The row of some address that the batch changes is held by a partition that is not
known to have moved on. -/
def Stuck (b : Batch) (rule : TakeoverRule) (positions : Partition → Option Nat)
    (rows : Table Address Row) : Prop :=
  ∃ key ∈ b.keys, Blocked rule positions b.bounds.partition (rows.get? key)

/-- Nothing overflows while the batch is processed without a lost call. -/
structure Fits (b : Batch) (rule : TakeoverRule) (positions : Partition → Option Nat)
    (rows : Table Address Row) : Prop where
  /-- The deltas of each address can be added up. -/
  sums : ∀ key, Totals.Summable ((b.pendingFor key (rows.get? key)).map (·.change))
  /-- The sums can be added to the rows. -/
  writes : ∀ key d, b.toApply key (rows.get? key) = some d →
    ¬ Blocked rule positions b.bounds.partition (rows.get? key) →
    ∃ row', Row.written (rows.get? key) d = .ok row'
  /-- The versions of the rows can be raised once more when these are settled. -/
  versions : ¬ b.Stuck rule positions rows → ∀ key row,
    b.InDoubt key (b.writtenAt key (rows.get? key)) →
    b.writtenAt key (rows.get? key) = some row → FitsUnsigned 64 (row.version + 1)

variable {b : Batch} {rs : List Record} {key : Address} {row? : Option Row}

/-- An address without a delta is not one of the batch. -/
theorem filter_deltas_of_not_mem (h : key ∉ b.keys) :
  b.deltas.filter (·.key = key) = []
  := by
  apply List.filter_eq_nil_iff.mpr
  intro d hd hkey
  apply h
  exact Delta.mem_keys_iff.mpr ⟨d, hd, by simpa using hkey⟩

theorem mem_pendingFor_iff {d : Delta} :
  d ∈ b.pendingFor key row?
    ↔ (d ∈ b.deltas ∧ d.key = key) ∧ ∀ row ∈ row?, ¬ row.Reflects d.source
  := by
  rw [pendingFor, Merge.pending, List.mem_filter, List.mem_filter]
  simp only [decide_eq_true_eq]

/-- What is to be applied is the whole of what is pending. -/
theorem eq_whole_of_toApply {d : Delta} (h : b.toApply key row? = some d) :
  d = Merge.whole key b.bounds.partition (b.pendingFor key row?) ∧ b.pendingFor key row? ≠ []
  := by
  rw [toApply] at h
  split at h
  · cases h
  · next hidle =>
      refine ⟨(Option.some.inj h).symm, ?_⟩
      intro hnil
      exact hidle (.inl hnil)

/-- What is to be applied where there is no row does not add up to nothing. -/
theorem change_ne_zero {d : Delta} (h : b.toApply key none = some d) :
  d.change ≠ 0
  := by
  intro hzero
  obtain ⟨rfl, -⟩ := eq_whole_of_toApply h
  rw [toApply, if_pos (.inr ⟨rfl, hzero⟩)] at h
  cases h

/-- What is to be applied is a delta of the address, at a position of the batch that the
row does not count. -/
theorem Collects.of_toApply {d : Delta} (hb : b.Collects rs)
    (h : b.toApply key row? = some d) :
  d.key = key ∧ key ∈ b.keys ∧ b.bounds.Contains d.source
    ∧ ∀ row ∈ row?, ¬ row.Reflects d.source
  := by
  obtain ⟨rfl, hne⟩ := eq_whole_of_toApply h
  obtain ⟨d, hd, hoffset⟩ := List.mem_map.mp (greatest_mem (List.map_eq_nil_iff.not.mpr hne))
  obtain ⟨⟨hdeltas, hkey⟩, hnew⟩ := mem_pendingFor_iff.mp hd
  have hcontains := hb.contains_source hdeltas
  have hsource : (Merge.whole key b.bounds.partition (b.pendingFor key row?)).source
      = d.source := by
    change Position.mk _ (greatest _) = d.source
    rw [← hoffset, ← hcontains.1]
  rw [hsource]
  exact ⟨rfl, Delta.mem_keys_iff.mpr ⟨d, hdeltas, hkey⟩, hcontains, hnew⟩

/-- What the batch has written is the row that it was to write. -/
theorem writtenAt_of_written {d : Delta} {row' : Row} (hd : b.toApply key row? = some d)
    (hwritten : Row.written row? d = .ok row') :
  b.writtenAt key row? = some row'
  := by
  rw [writtenAt, hd]
  dsimp only
  rw [hwritten]
  rfl

/-- A row that another partition holds counts nothing of the batch, so there is something
to apply to it. -/
theorem Collects.toApply_of_held (hb : b.Collects rs) (hkey : key ∈ b.keys)
    (h : Held b.bounds.partition row?) :
  ∃ d, b.toApply key row? = some d
  := by
  cases row? with
  | none => exact h.elim
  | some row =>
      obtain ⟨d, hd, hdkey⟩ := Delta.mem_keys_iff.mp hkey
      have hpending : d ∈ b.pendingFor key (some row) := by
        apply mem_pendingFor_iff.mpr
        refine ⟨⟨hd, hdkey⟩, ?_⟩
        rintro _ ⟨⟩ ⟨horigin, -⟩
        apply h.2
        rw [horigin]
        exact (hb.contains_source hd).1
      have hidle : ¬ Merge.Idle (some row) (b.pendingFor key (some row)) := by
        rintro (hnil | ⟨hnone, -⟩)
        · rw [hnil] at hpending
          cases hpending
        · cases hnone
      exact ⟨_, if_neg hidle⟩

/-! ### Merging -/

variable {rows selected : Table Address Row} {merged : Table Address Delta}

/-- A merged batch holds what is to be applied to the row of every address, and no sum
overflows. -/
theorem Collects.get?_merged (hb : b.Collects rs)
    (hselected : ∀ key ∈ b.keys, selected.get? key = rows.get? key)
    (h : Merge.batch selected b.deltas = .ok merged) (key : Address) :
  Totals.Summable ((b.pendingFor key (rows.get? key)).map (·.change))
    ∧ merged.get? key = b.toApply key (rows.get? key)
  := by
  have hpartition : ∀ d ∈ b.deltas.filter (·.key = key),
      d.source.partition = b.bounds.partition :=
    fun d hd => (hb.contains_source (List.mem_filter.mp hd).1).1
  have hkey := (Merge.ofKey_eq_ok_iff hpartition).mp (Merge.ofKey_eq_get?_batch h key)
  by_cases hmem : key ∈ b.keys
  · rw [hselected key hmem] at hkey
    exact hkey
  · rw [filter_deltas_of_not_mem hmem] at hkey
    rw [toApply, pendingFor, filter_deltas_of_not_mem hmem]
    exact hkey

/-- A batch can be merged if no sum overflows. -/
theorem Collects.exists_merged (hb : b.Collects rs)
    (hselected : ∀ key ∈ b.keys, selected.get? key = rows.get? key)
    (h : ∀ key, Totals.Summable ((b.pendingFor key (rows.get? key)).map (·.change))) :
  ∃ merged, Merge.batch selected b.deltas = .ok merged
  := by
  apply Merge.exists_collect
  intro key hmem
  have hpartition : ∀ d ∈ b.deltas.filter (·.key = key),
      d.source.partition = b.bounds.partition :=
    fun d hd => (hb.contains_source (List.mem_filter.mp hd).1).1
  refine ⟨_, (Merge.ofKey_eq_ok_iff hpartition).mpr ⟨?_, rfl⟩⟩
  rw [hselected key hmem]
  exact h key

/-! ### The jobs -/

/-- The jobs are what is to be applied, each with the row of its address. -/
structure Planned (b : Batch) (rows : Table Address Row) (jobs : List Job) : Prop where
  nodup : (jobs.map (·.delta.key)).Nodup
  row : ∀ j ∈ jobs, j.row? = rows.get? j.delta.key
  delta : ∀ j ∈ jobs, b.toApply j.delta.key (rows.get? j.delta.key) = some j.delta
  all : ∀ key d, b.toApply key (rows.get? key) = some d → key ∈ jobs.map (·.delta.key)

/-- The jobs of a merged batch are as planned. -/
theorem Collects.planned (hb : b.Collects rs)
    (hselected : ∀ key ∈ b.keys, selected.get? key = rows.get? key)
    (h : Merge.batch selected b.deltas = .ok merged) :
  b.Planned rows (jobs selected merged)
  := by
  have hmerged : ∀ key, merged.get? key = b.toApply key (rows.get? key) :=
    fun key => (hb.get?_merged hselected h key).2
  have hkey : ∀ key d, merged.get? key = some d → d.key = key ∧ key ∈ b.keys := by
    intro key d hd
    rw [hmerged] at hd
    obtain ⟨hdkey, hmem, -⟩ := hb.of_toApply hd
    exact ⟨hdkey, hmem⟩
  have hvalues : merged.values.map (·.key) = merged.keys := by
    rw [Table.values, Table.keys, List.map_map]
    apply List.map_congr_left
    intro e he
    exact (hkey e.1 e.2 (Table.get?_eq_some_iff.mpr he)).1
  have hkeys : (jobs selected merged).map (·.delta.key) = merged.keys := by
    rw [jobs, List.map_map]
    exact hvalues
  have hjob : ∀ j ∈ jobs selected merged, ∃ key, merged.get? key = some j.delta
      ∧ j.delta.key = key ∧ j.row? = rows.get? key := by
    intro j hj
    obtain ⟨d, hd, rfl⟩ := List.mem_map.mp hj
    obtain ⟨key, hget⟩ := Table.mem_values_iff.mp hd
    obtain ⟨hdkey, hmem⟩ := hkey key d hget
    refine ⟨key, hget, hdkey, ?_⟩
    change selected.get? d.key = _
    rw [hdkey, hselected key hmem]
  constructor
  · rw [hkeys]
    apply Table.nodup_keys
  · intro j hj
    obtain ⟨key, -, rfl, hrow⟩ := hjob j hj
    exact hrow
  · intro j hj
    obtain ⟨key, hget, rfl, -⟩ := hjob j hj
    rw [← hmerged, hget]
  · intro key d hd
    rw [hkeys]
    exact Table.mem_keys_iff.mpr ⟨d, by rw [hmerged, hd]⟩

/-- A job of a batch on keyed rows can be run as a fresh one. -/
theorem Planned.fresh {jobs : List Job} (h : b.Planned rows jobs) (hb : b.Collects rs)
    (hkeyed : Keyed rows) {j : Job} (hj : j ∈ jobs) :
  j.Fresh
  := by
  obtain ⟨-, -, -, hnew⟩ := hb.of_toApply (h.delta j hj)
  constructor
  · intro row hrow
    rw [h.row j hj] at hrow
    exact hkeyed _ row hrow
  · rw [h.row j hj]
    exact hnew

/-! ### The rows carried over -/

/-- A row carried over is in doubt at a position of the batch, and nothing is to be applied
to it. -/
theorem Collects.mem_carriedOver_iff (hb : b.Collects rs)
    (hselected : ∀ key ∈ b.keys, selected.get? key = rows.get? key) (hkeyed : Keyed rows)
    (h : Merge.batch selected b.deltas = .ok merged) {t : Target} :
  t ∈ b.carriedOver selected merged
    ↔ b.toApply t.key (rows.get? t.key) = none ∧ b.InDoubt t.key (rows.get? t.key)
      ∧ Stands rows t.key t.version
  := by
  rw [carriedOver, List.mem_filterMap]
  have hmerged := fun key => (hb.get?_merged hselected h key).2
  constructor
  · rintro ⟨key, hkey, ht⟩
    rw [Table.contains, hmerged, hselected key hkey] at ht
    split at ht
    · cases ht
    · next hnone =>
        obtain ⟨row, hrow, htarget⟩ := Option.bind_eq_some_iff.mp ht
        obtain rfl := hkeyed key row hrow
        split at htarget
        · next hdoubt =>
            obtain rfl := Option.some.inj htarget
            have hsettled : row.settled = false := by simpa using hdoubt.1
            exact ⟨by simpa using hnone, ⟨hkey, row, hrow, hsettled, hdoubt.2⟩,
              row, hrow, rfl, hsettled⟩
        · cases htarget
  · rintro ⟨hnone, ⟨hkey, row, hrow, hsettled, hcontains⟩, row', hrow', hversion, -⟩
    obtain rfl := Option.some.inj (hrow.symm.trans hrow')
    refine ⟨t.key, hkey, ?_⟩
    rw [Table.contains, hmerged, hselected t.key hkey, hnone, hrow, Option.isSome_none,
      if_neg Bool.false_ne_true, Option.bind_some, if_pos ⟨by simp [hsettled], hcontains⟩,
      hkeyed t.key row hrow, hversion]

/-- No address is carried over twice. -/
theorem nodup_carriedOver
    (hselected : ∀ key ∈ b.keys, selected.get? key = rows.get? key) (hkeyed : Keyed rows)
    (merged : Table Address Delta) :
  ((b.carriedOver selected merged).map (·.key)).Nodup
  := by
  have hsublist : ∀ keys : List Address, (∀ key ∈ keys, key ∈ b.keys) →
      ((keys.filterMap fun key => if merged.contains key then none
        else (selected.get? key).bind fun row =>
          if ¬ row.settled ∧ b.bounds.Contains row.source then
            some (Target.mk row.key row.version)
          else none).map (·.key)).Sublist keys := by
    intro keys
    induction keys with
    | nil =>
        intro _
        exact .slnil
    | cons key keys ih =>
        intro hkeys
        have hrest := ih fun k hk => hkeys k (.tail _ hk)
        rw [List.filterMap_cons]
        split
        · exact hrest.cons key
        · next t ht =>
            have hkey : t.key = key := by
              split at ht
              · cases ht
              · obtain ⟨row, hrow, ht⟩ := Option.bind_eq_some_iff.mp ht
                rw [hselected key (hkeys key (.head _))] at hrow
                split at ht
                · obtain rfl := Option.some.inj ht
                  exact hkeyed key row hrow
                · cases ht
            rw [List.map_cons, hkey]
            exact hrest.cons_cons key
  exact (hsublist b.keys fun _ hkey => hkey).nodup (Delta.nodup_keys _)

/-- Before its jobs run, a batch has the jobs planned, no sum has overflown, and the rows carried
over are those in doubt that nothing is to be applied to. -/
structure Prepared (b : Batch) (rows : Table Address Row) (carried : List Target)
    (jobs : List Job) : Prop extends Planned b rows jobs where
  sums : ∀ key, Totals.Summable ((b.pendingFor key (rows.get? key)).map (·.change))
  mem_carried : ∀ t, t ∈ carried ↔ b.toApply t.key (rows.get? t.key) = none ∧
    b.InDoubt t.key (rows.get? t.key) ∧ Stands rows t.key t.version
  nodup_carried : (carried.map (·.key)).Nodup

/-- A merged batch is prepared. -/
theorem Collects.prepared (hb : b.Collects rs)
    (hselected : ∀ key ∈ b.keys, selected.get? key = rows.get? key) (hkeyed : Keyed rows)
    (h : Merge.batch selected b.deltas = .ok merged) :
  b.Prepared rows (b.carriedOver selected merged) (jobs selected merged)
  := by
  constructor
  · exact hb.planned hselected h
  · exact fun key => (hb.get?_merged hselected h key).1
  · exact fun t => hb.mem_carriedOver_iff hselected hkeyed h
  · exact nodup_carriedOver hselected hkeyed merged

end Batch

end ChainLedger
