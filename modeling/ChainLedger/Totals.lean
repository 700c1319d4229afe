import ChainLedger.Overflow

/-!
# Totals

The five numeric columns of a summary.  Totals stand both for the absolute
values of a row and for a signed change to them.  They are added and negated
column by column, exactly; `add?`, `neg?` and `sum?` refuse a result whose
columns do not all fit.
-/

namespace ChainLedger

/-- The numeric columns of a summary. -/
structure Totals where
  /-- Balance in the smallest unit. -/
  balance : Int := 0
  /-- Everything ever received, in the smallest unit. -/
  received : Int := 0
  /-- Transactions taken part in. -/
  transfers : Int := 0
  /-- Canonical blocks mined. -/
  blocks : Int := 0
  /-- Canonical uncles mined. -/
  uncles : Int := 0
deriving DecidableEq, Repr

namespace Totals

/-- All columns zero. -/
instance : Zero Totals := ⟨{}⟩

/-- The sum, column by column. -/
instance : Add Totals where
  add a b :=
    { balance := a.balance + b.balance
      received := a.received + b.received
      transfers := a.transfers + b.transfers
      blocks := a.blocks + b.blocks
      uncles := a.uncles + b.uncles }

/-- The negation, column by column. -/
instance : Neg Totals where
  neg a :=
    { balance := -a.balance
      received := -a.received
      transfers := -a.transfers
      blocks := -a.blocks
      uncles := -a.uncles }

/-- The two amounts have 128 bits and the three counters 64. -/
def Fits (t : Totals) : Prop :=
  FitsSigned 128 t.balance ∧ FitsSigned 128 t.received ∧
    FitsSigned 64 t.transfers ∧ FitsSigned 64 t.blocks ∧ FitsSigned 64 t.uncles

instance (t : Totals) : Decidable t.Fits := inferInstanceAs (Decidable (_ ∧ _))

/-- Whether every column is zero. -/
def isZero (t : Totals) : Bool := t = 0

/-- The sum, if it fits. -/
def add? (a b : Totals) : Except Overflow Totals :=
  if (a + b).Fits then .ok (a + b) else .error .addition

/-- The negation, if it fits. -/
def neg? (a : Totals) : Except Overflow Totals :=
  if (-a).Fits then .ok (-a) else .error .negation

/-- The sum of a list from the left, every partial sum having to fit. -/
def sumFrom? (a : Totals) : List Totals → Except Overflow Totals
  | [] => .ok a
  | b :: rest => do sumFrom? (← a.add? b) rest

/-- The sum of a list, from zero and the left, every partial sum having to fit. -/
def sum? (l : List Totals) : Except Overflow Totals := sumFrom? 0 l

theorem add?_eq_ok_iff {a b c : Totals} :
  a.add? b = .ok c ↔ (a + b).Fits ∧ c = a + b
  := by
  unfold add?
  split <;> simp_all [eq_comm]

theorem neg?_eq_ok_iff {a c : Totals} :
  a.neg? = .ok c ↔ (-a).Fits ∧ c = -a
  := by
  unfold neg?
  split <;> simp_all [eq_comm]

end Totals

end ChainLedger
