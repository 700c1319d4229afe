import ChainLedger.Proofs.Accounts
import ChainLedger.Proofs.Grouping

/-!
# Merging in parts

The deltas of an address may be cut into two lists, the offsets of the first below those of the
second, and merged against its row one list after the other.  A row that has taken in the first
list still leaves the second one pending as before: it is at a position of the first list then, or
has not changed.  So the totals come out as in one step, and so does the position, if there is a
row after both.
-/

namespace ChainLedger

/-- The greatest number of two lists. -/
theorem greatest_append (l l' : List Nat) :
  greatest (l ++ l') = max (greatest l) (greatest l')
  := by
  induction l with
  | nil => exact (Nat.zero_max _).symm
  | cons n l ih => rw [List.cons_append, greatest_cons, ih, greatest_cons, Nat.max_assoc]

namespace Merge

/-- The table of the row of one address, if it has one. -/
def alone (key : Address) : Option Row → Table Address Row
  | none => .empty
  | some row => Table.empty.insert key row

/-- The row of an address after some deltas are merged against it, and applied to it if there is
anything to apply. -/
def step (key : Address) (row? : Option Row) (ds : List Delta) : Except Overflow (Option Row) := do
  match ← ofList (alone key row?) ds with
  | none => return row?
  | some d => return some (← Row.written row? d)

variable {key : Address} {p : Partition} {row? row'? : Option Row} {ds ds' : List Delta}

/-- The deltas are of one address and one partition. -/
def OfOne (key : Address) (p : Partition) (ds : List Delta) : Prop :=
  ∀ d ∈ ds, d.key = key ∧ d.source.partition = p

theorem OfOne.append (h : OfOne key p ds) (h' : OfOne key p ds') :
  OfOne key p (ds ++ ds')
  := fun d hd => (List.mem_append.mp hd).elim (h d) (h' d)

theorem get?_alone (key : Address) (row? : Option Row) :
  (alone key row?).get? key = row?
  := by
  cases row? with
  | none => rfl
  | some row => rw [alone, Table.get?_insert, if_pos rfl]

theorem pending_append (row? : Option Row) (ds ds' : List Delta) :
  pending row? (ds ++ ds') = pending row? ds ++ pending row? ds'
  := List.filter_append ..

/-- Deltas of one address are merged against its row. -/
theorem ofList_alone (h : OfOne key p ds) (row? : Option Row) :
  ofList (alone key row?) ds = ofKey key row? ds
  := by
  cases ds with
  | nil => rfl
  | cons d ds =>
      obtain ⟨hkey, -⟩ := h d (.head _)
      rw [ofList, hkey, get?_alone]

/-! ### One step -/

/-- What a step comes to: nothing is to be applied and the row stays as it is, or what is pending
is written over it. -/
theorem step_cases (h : OfOne key p ds) (hstep : step key row? ds = .ok row'?) :
  (Idle row? (pending row? ds) ∧ row'? = row?) ∨
    (¬ Idle row? (pending row? ds) ∧
      ∃ row', Row.written row? (whole key p (pending row? ds)) = .ok row' ∧ row'? = some row')
  := by
  rw [step, ofList_alone h] at hstep
  cases hmerge : ofKey key row? ds with
  | error o =>
      rw [hmerge] at hstep
      cases hstep
  | ok d? =>
      rw [hmerge] at hstep
      obtain ⟨-, rfl⟩ := (ofKey_eq_ok_iff fun d hd => (h d hd).2).mp hmerge
      by_cases hidle : Idle row? (pending row? ds)
      · rw [if_pos hidle] at hstep
        cases hstep
        exact .inl ⟨hidle, rfl⟩
      · rw [if_neg hidle] at hstep
        cases hwritten : Row.written row? (whole key p (pending row? ds)) with
        | error o =>
            change (Row.written row? _ >>= fun row' => pure (some row')) = _ at hstep
            rw [hwritten] at hstep
            cases hstep
        | ok row' =>
            change (Row.written row? _ >>= fun row' => pure (some row')) = _ at hstep
            rw [hwritten] at hstep
            cases hstep
            exact .inr ⟨hidle, row', rfl, rfl⟩

/-- What is idle adds up to nothing. -/
theorem Idle.sum_eq (h : Idle row? ds) :
  (ds.map (·.change)).sum = 0
  := by
  rcases h with rfl | ⟨-, hzero⟩
  · rfl
  · exact hzero

/-- A step adds what is pending to the totals. -/
theorem totals_step (h : OfOne key p ds) (hstep : step key row? ds = .ok row'?) :
  row'?.elim 0 Row.totals
    = row?.elim 0 Row.totals + ((pending row? ds).map (·.change)).sum
  := by
  rcases step_cases h hstep with ⟨hidle, rfl⟩ | ⟨-, row', hwritten, rfl⟩
  · rw [hidle.sum_eq, add_zero]
  · exact Row.totals_of_written hwritten

/-- After a step over pending deltas, a row is at the highest of their offsets. -/
theorem source_step (h : OfOne key p ds) (hstep : step key row? ds = .ok row'?)
    (hne : pending row? ds ≠ []) {row' : Row} (hrow' : row'? = some row') :
  row'.source = ⟨p, greatest ((pending row? ds).map (·.source.offset))⟩
  := by
  rcases step_cases h hstep with ⟨hidle, rfl⟩ | ⟨-, written, hwritten, rfl⟩
  · obtain ⟨hnone, -⟩ := hidle.resolve_left hne
    rw [hnone] at hrow'
    cases hrow'
  · obtain rfl := Option.some.inj hrow'
    exact (Row.of_written hwritten).1

/-- A row has a step over deltas that leave as much pending as others. -/
theorem step_congr (h : OfOne key p ds) (h' : OfOne key p ds') {row₁? row₂? : Option Row}
    (heq : pending row? ds = pending row? ds') (hstep : step key row? ds = .ok row₁?)
    (hstep' : step key row? ds' = .ok row₂?) :
  row₁? = row₂?
  := by
  rcases step_cases h hstep with ⟨hidle, rfl⟩ | ⟨hbusy, row₁, hwritten₁, rfl⟩
  · rcases step_cases h' hstep' with ⟨-, rfl⟩ | ⟨hbusy, -⟩
    · rfl
    · exact absurd (heq ▸ hidle) hbusy
  · rcases step_cases h' hstep' with ⟨hidle, -⟩ | ⟨-, row₂, hwritten₂, rfl⟩
    · exact absurd (heq ▸ hidle) hbusy
    · rw [heq, hwritten₂] at hwritten₁
      cases hwritten₁
      rfl

/-! ### Two steps -/

variable {mid? : Option Row}

/-- A row counts no delta whose offset is above that of a delta which it does not count. -/
theorem pending_of_lt {d : Delta} (hd : d ∈ pending row? ds) (hds : OfOne key p ds)
    (hds' : OfOne key p ds') (hlt : ∀ d' ∈ ds', d.source.offset < d'.source.offset) :
  pending row? ds' = ds'
  := by
  obtain ⟨hmem, hnew⟩ := List.mem_filter.mp hd
  apply List.filter_eq_self.mpr
  intro d' hd'
  rw [decide_eq_true_eq] at hnew ⊢
  rintro row hrow ⟨horigin, hle⟩
  apply hnew row hrow
  constructor
  · exact horigin.trans ((hds' d' hd').2.trans (hds d hmem).2.symm)
  · exact Nat.le_trans (Nat.le_of_lt (hlt d' hd')) hle

/-- A step over deltas leaves pending what was pending of those above them. -/
theorem pending_step (hds : OfOne key p ds) (hds' : OfOne key p ds')
    (hlt : ∀ d ∈ ds, ∀ d' ∈ ds', d.source.offset < d'.source.offset)
    (hstep : step key row? ds = .ok mid?) :
  pending mid? ds' = pending row? ds'
  := by
  rcases step_cases hds hstep with ⟨-, rfl⟩ | ⟨hbusy, mid, hwritten, rfl⟩
  · rfl
  · have hne : (pending row? ds).map (·.source.offset) ≠ [] :=
      List.map_eq_nil_iff.not.mpr fun hnil => hbusy (.inl hnil)
    -- The delta that the row is at now was pending before.
    obtain ⟨d, hd, hoffset⟩ := List.mem_map.mp (greatest_mem hne)
    have habove := hlt d (List.mem_filter.mp hd).1
    rw [pending_of_lt hd hds hds' habove]
    apply List.filter_eq_self.mpr
    intro d' hd'
    rw [decide_eq_true_eq]
    rintro _ ⟨⟩ ⟨-, hle⟩
    rw [(Row.of_written hwritten).1] at hle
    change d'.source.offset ≤ greatest _ at hle
    rw [← hoffset] at hle
    exact Nat.not_le_of_lt (habove d' hd') hle

/-- The highest of some offsets is that of the ones above the others, if there are any. -/
theorem greatest_above (hne : ds' ≠ [])
    (hlt : ∀ d ∈ ds, ∀ d' ∈ ds', d.source.offset < d'.source.offset) :
  greatest ((ds ++ ds').map (·.source.offset)) = greatest (ds'.map (·.source.offset))
  := by
  rw [List.map_append, greatest_append, Nat.max_eq_right]
  by_cases hnil : ds = []
  · subst hnil
    exact Nat.zero_le _
  · obtain ⟨d, hd, hoffset⟩ := List.mem_map.mp (greatest_mem (List.map_eq_nil_iff.not.mpr hnil))
    obtain ⟨d', hd'⟩ := List.exists_mem_of_ne_nil ds' hne
    rw [← hoffset]
    exact Nat.le_trans (Nat.le_of_lt (hlt d hd d' hd')) (le_greatest (List.mem_map_of_mem hd'))

variable {cut? whole? : Option Row}

/-- Deltas of one address and one partition, cut where the offsets of the first part are below
those of the second, are merged and applied in two steps or in one: unless something overflows, the
totals are the same, an absent row counting as zero, and if there is a row after both, it is at the
same position. -/
theorem step_cut (hds : OfOne key p ds) (hds' : OfOne key p ds')
    (hlt : ∀ d ∈ ds, ∀ d' ∈ ds', d.source.offset < d'.source.offset)
    (hmid : step key row? ds = .ok mid?) (hcut : step key mid? ds' = .ok cut?)
    (hwhole : step key row? (ds ++ ds') = .ok whole?) :
  cut?.elim 0 Row.totals = whole?.elim 0 Row.totals ∧
    ∀ row ∈ cut?, ∀ row' ∈ whole?, row.source = row'.source
  := by
  have hboth := hds.append hds'
  have hpending := pending_step hds hds' hlt hmid
  constructor
  · rw [totals_step hds' hcut, hpending, totals_step hds hmid, totals_step hboth hwhole,
      pending_append, List.map_append, List.sum_append, add_assoc]
  · intro row hrow row' hrow'
    have hsplit := pending_append row? ds ds'
    by_cases hnil : pending row? ds' = []
    · -- Nothing of the second part is pending, so the first part decides.
      have hsame : whole? = mid? := by
        apply step_congr hboth hds _ hwhole hmid
        rw [hsplit, hnil, List.append_nil]
      have hstays : cut? = mid? := by
        rcases step_cases hds' hcut with ⟨-, rfl⟩ | ⟨hbusy, -⟩
        · rfl
        · exact absurd (.inl (hpending.trans hnil)) hbusy
      rw [hstays, ← hsame] at hrow
      rw [Option.mem_unique hrow hrow']
    · have habove : ∀ d ∈ pending row? ds, ∀ d' ∈ pending row? ds',
          d.source.offset < d'.source.offset :=
        fun d hd d' hd' => hlt d (List.mem_filter.mp hd).1 d' (List.mem_filter.mp hd').1
      rw [source_step hds' hcut (hpending ▸ hnil) hrow, hpending,
        source_step hboth hwhole (by simp [hsplit, hnil]) hrow', hsplit,
        greatest_above hnil habove]

/-! ### A gain in parts -/

open Batch

/-- The balance of the receiver changes. -/
def gain (amount : Int) (offset : Nat) : Delta where
  key := receiver
  change := { balance := amount }
  source := ⟨⟨"TRANSFERS", 0⟩, offset⟩
  time := 9

/-- A row that counts the gains up to the offset one. -/
def gained : Row where
  key := receiver
  totals := { balance := 12 }
  version := 3
  source := ⟨⟨"TRANSFERS", 0⟩, 1⟩
  settled := true
  firstSeen := 9
  lastSeen := 9

theorem ofOne_gain (xs : List (Int × Nat)) :
  OfOne receiver ⟨"TRANSFERS", 0⟩ (xs.map fun x => gain x.1 x.2)
  := by
  intro d hd
  obtain ⟨x, -, rfl⟩ := List.mem_map.mp hd
  exact ⟨rfl, rfl⟩

/-- A gain that is lost again leaves a row of zeros or no row, as it is cut.  Of gains around the
position of a row, only those above it count, in one step and in two. -/
theorem gains_cut :
  (∃ mid cut, step receiver none [gain 5 0] = .ok (some mid) ∧
    step receiver (some mid) [gain (-5) 1] = .ok (some cut) ∧
    step receiver none ([gain 5 0] ++ [gain (-5) 1]) = .ok none ∧ cut.totals = 0) ∧
  ∃ mid cut whole, step receiver (some gained) [gain 5 0, gain 7 1, gain 1 2] = .ok (some mid) ∧
    step receiver (some mid) [gain 2 3] = .ok (some cut) ∧
    step receiver (some gained) ([gain 5 0, gain 7 1, gain 1 2] ++ [gain 2 3]) = .ok (some whole) ∧
    cut.version ≠ whole.version ∧ cut.totals = whole.totals ∧ cut.source = whole.source
  := by
  constructor
  · refine ⟨_, _, rfl, rfl, rfl, ?_⟩
    have hcut := step_cut (ofOne_gain [(5, 0)]) (ofOne_gain [(-5, 1)]) (by decide)
      (rfl : step receiver none [gain 5 0] = _) rfl rfl
    exact hcut.1
  · refine ⟨_, _, _, rfl, rfl, rfl, by decide, ?_⟩
    have hcut := step_cut (ofOne_gain [(5, 0), (7, 1), (1, 2)]) (ofOne_gain [(2, 3)]) (by decide)
      (rfl : step receiver (some gained) [gain 5 0, gain 7 1, gain 1 2] = _) rfl rfl
    exact ⟨hcut.1, hcut.2 _ rfl _ rfl⟩

end Merge

end ChainLedger
