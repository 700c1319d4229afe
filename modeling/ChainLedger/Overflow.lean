import ChainLedger.Width

/-!
# Overflow

Amounts are signed numbers of 128 bits and counters signed numbers of 64 bits;
versions are unsigned numbers of 64 bits.  Their arithmetic is exact: a result
that does not fit is no result but an `Overflow`.
-/

namespace ChainLedger

/-- The operation whose exact result did not fit. -/
inductive Overflow
  | addition
  | negation
deriving DecidableEq, Repr

namespace Overflow

/-- The text of an overflow. -/
def message : Overflow → String
  | addition => "attempt to add with overflow"
  | negation => "attempt to negate with overflow"

end Overflow

/-- The sum of two unsigned numbers, if it is one of `bits` bits. -/
def addUnsigned? (bits x y : Nat) : Option Nat :=
  if FitsUnsigned bits (x + y) then some (x + y) else none

/-- The number after a version. -/
def nextVersion? (v : Nat) : Except Overflow Nat :=
  if FitsUnsigned 64 (v + 1) then .ok (v + 1) else .error .addition

theorem nextVersion?_eq_ok_iff {v w : Nat} :
  nextVersion? v = .ok w ↔ FitsUnsigned 64 (v + 1) ∧ w = v + 1
  := by
  unfold nextVersion?
  split <;> simp_all [eq_comm]

end ChainLedger
