import ChainLedger.Address
import ChainLedger.Position
import ChainLedger.Table
import ChainLedger.Totals

/-!
# Changes

A delta is a signed change to the totals of one address, attributed to the
position of the record that caused it and to that record's chain time.
-/

namespace ChainLedger

/-- A signed change to the totals of one address. -/
structure Delta where
  /-- The address changed. -/
  key : Address
  /-- What is added to its totals. -/
  change : Totals
  /-- The position of the record that caused the change. -/
  source : Position
  /-- The chain time of the record, in seconds. -/
  time : Nat
deriving DecidableEq

namespace Delta

/-- The delta that takes this one back, at the same position. -/
def negated (d : Delta) : Delta := { d with change := -d.change }

/-- The delta that takes this one back, if its columns fit. -/
def negated? (d : Delta) : Except Overflow Delta := do
  return { d with change := ← d.change.neg? }

/-- Whether the delta leaves all totals as they are. -/
def isNoop (d : Delta) : Bool := d.change.isZero

/-- The distinct addresses that the deltas change, ascending. -/
def keys (ds : List Delta) : List Address := (Table.ofList (ds.map fun d => (d.key, ()))).keys

end Delta

end ChainLedger
