import ChainLedger.Delta

/-!
# Summary rows

A row holds the totals of one address with a version, the position last applied
to it, and a mark that says whether that position has been acknowledged to the
log.  A row whose mark is down is in doubt: it may still be put back.  Every
write raises the version by one.
-/

namespace ChainLedger

/-- The stored summary of one address. -/
structure Row where
  /-- The address. -/
  key : Address
  /-- Its totals. -/
  totals : Totals
  /-- The number of writes since the row was made. -/
  version : Nat
  /-- The position last applied. -/
  source : Position
  /-- Whether that position has been acknowledged. -/
  settled : Bool
  /-- The earliest chain time applied. -/
  firstSeen : Nat
  /-- The latest chain time applied. -/
  lastSeen : Nat
deriving DecidableEq

namespace Row

/-- The row that a first delta makes. -/
def ofDelta (d : Delta) : Row where
  key := d.key
  totals := d.change
  version := 0
  source := d.source
  settled := false
  firstSeen := d.time
  lastSeen := d.time

/-- The row with a delta applied, in doubt. -/
def apply (r : Row) (d : Delta) : Except Overflow Row := do
  let totals ← r.totals.add? d.change
  let version ← nextVersion? r.version
  return {
    key := r.key
    totals := totals
    version := version
    source := d.source
    settled := false
    firstSeen := min r.firstSeen d.time
    lastSeen := max r.lastSeen d.time }

/-- The row with its position marked as acknowledged. -/
def settle (r : Row) : Except Overflow Row := do
  return { r with version := ← nextVersion? r.version, settled := true }

/-- The row was last written from the partition of `p`. -/
def SameOrigin (r : Row) (p : Position) : Prop := r.source.partition = p.partition

instance (r : Row) (p : Position) : Decidable (r.SameOrigin p) :=
  inferInstanceAs (Decidable (_ = _))

/-- The row counts the records of the partition of `p` up to `p`. -/
def Reflects (r : Row) (p : Position) : Prop := r.SameOrigin p ∧ p.offset ≤ r.source.offset

instance (r : Row) (p : Position) : Decidable (r.Reflects p) :=
  inferInstanceAs (Decidable (_ ∧ _))

/-- A delta is applied exactly if the totals and the version fit. -/
theorem apply_eq_ok_iff {r r' : Row} {d : Delta} :
  r.apply d = .ok r' ↔
    (r.totals + d.change).Fits ∧ FitsUnsigned 64 (r.version + 1) ∧
      r' = { key := r.key, totals := r.totals + d.change, version := r.version + 1,
             source := d.source, settled := false,
             firstSeen := min r.firstSeen d.time, lastSeen := max r.lastSeen d.time }
  := by
  unfold apply
  constructor
  · intro h
    cases ht : r.totals.add? d.change with
    | error o => rw [ht] at h; cases h
    | ok t =>
        cases hv : nextVersion? r.version with
        | error o => rw [ht, hv] at h; cases h
        | ok v =>
            rw [ht, hv] at h
            cases h
            obtain ⟨hf, rfl⟩ := Totals.add?_eq_ok_iff.mp ht
            obtain ⟨hn, rfl⟩ := nextVersion?_eq_ok_iff.mp hv
            exact ⟨hf, hn, rfl⟩
  · rintro ⟨hf, hn, rfl⟩
    rw [Totals.add?_eq_ok_iff.mpr ⟨hf, rfl⟩, nextVersion?_eq_ok_iff.mpr ⟨hn, rfl⟩]
    rfl

/-- A row is settled exactly if the version fits. -/
theorem settle_eq_ok_iff {r r' : Row} :
  r.settle = .ok r' ↔
    FitsUnsigned 64 (r.version + 1) ∧ r' = { r with version := r.version + 1, settled := true }
  := by
  unfold settle
  constructor
  · intro h
    cases hv : nextVersion? r.version with
    | error o => rw [hv] at h; cases h
    | ok v =>
        rw [hv] at h
        cases h
        obtain ⟨hn, rfl⟩ := nextVersion?_eq_ok_iff.mp hv
        exact ⟨hn, rfl⟩
  · rintro ⟨hn, rfl⟩
    rw [nextVersion?_eq_ok_iff.mpr ⟨hn, rfl⟩]
    rfl

end Row

end ChainLedger
