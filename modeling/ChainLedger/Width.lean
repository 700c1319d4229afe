/-!
# Numbers of a width

A number fits a width if it can be written with that many bits: an unsigned
number from zero on, a signed one evenly about zero.
-/

namespace ChainLedger

/-- `x` is a signed number of `bits` bits. -/
def FitsSigned (bits : Nat) (x : Int) : Prop :=
  -(Nat.pow 2 (bits - 1) : Int) ≤ x ∧ x < (Nat.pow 2 (bits - 1) : Int)

instance (bits : Nat) (x : Int) : Decidable (FitsSigned bits x) :=
  inferInstanceAs (Decidable (_ ∧ _))

/-- `x` is an unsigned number of `bits` bits. -/
def FitsUnsigned (bits : Nat) (x : Nat) : Prop := x < Nat.pow 2 bits

instance (bits : Nat) (x : Nat) : Decidable (FitsUnsigned bits x) :=
  inferInstanceAs (Decidable (_ < _))

end ChainLedger
