/-!
# Positions in the log

The log is cut into partitions, each a topic with a number.  A position is an
offset in one partition, and a batch of records covers a closed range of
offsets of one partition.
-/

namespace ChainLedger

open Std

/-- A partition of the log. -/
structure Partition where
  topic : String
  number : Nat
deriving DecidableEq, Repr

namespace Partition

/-- Partitions are ordered by topic, then by number. -/
instance : Ord Partition := ⟨compareLex (compareOn topic) (compareOn number)⟩

instance : TransOrd Partition :=
  inferInstanceAs (TransCmp (compareLex (compareOn topic) (compareOn number)))

instance : LawfulEqOrd Partition where
  eq_of_compare {a b} h := by
    obtain ⟨ht, hn⟩ := compareLex_eq_eq.1 h
    cases a; cases b
    simp only [Partition.mk.injEq]
    exact ⟨LawfulEqOrd.eq_of_compare ht, LawfulEqOrd.eq_of_compare hn⟩

instance : Inhabited Partition := ⟨⟨"", 0⟩⟩

/-- `topic/number`. -/
def render (p : Partition) : String := p.topic ++ "/" ++ toString p.number

end Partition

/-- An offset in a partition. -/
structure Position where
  partition : Partition
  offset : Nat
deriving DecidableEq, Repr

namespace Position

/-- `topic/number@offset`. -/
def render (p : Position) : String := p.partition.render ++ "@" ++ toString p.offset

end Position

/-- The range of offsets that a batch covers, and the number of its records. -/
structure Bounds where
  partition : Partition
  first : Nat
  last : Nat
  count : Nat
deriving DecidableEq, Repr

namespace Bounds

/-- The position lies in the batch's partition and range. -/
def Contains (b : Bounds) (p : Position) : Prop :=
  p.partition = b.partition ∧ b.first ≤ p.offset ∧ p.offset ≤ b.last

instance (b : Bounds) (p : Position) : Decidable (b.Contains p) :=
  inferInstanceAs (Decidable (_ ∧ _))

/-- `topic/number [first..=last]`. -/
def render (b : Bounds) : String :=
  b.partition.render ++ " [" ++ toString b.first ++ "..=" ++ toString b.last ++ "]"

end Bounds

end ChainLedger
