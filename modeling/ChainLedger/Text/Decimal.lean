import ChainLedger.Width

/-!
# Decimal numbers

Numbers are written with their decimal digits and read from ASCII digits, any
number of leading zeros allowed.  An unsigned number may carry a plus sign; it
is refused if it has more bits than it may.
-/

namespace ChainLedger

namespace Decimal

/-- The digits of a number. -/
def ofNat (n : Nat) : List Char := Nat.toDigits 10 n

/-- The digits of an integer, after its sign if it is negative. -/
def ofInt : Int → List Char
  | .ofNat n => ofNat n
  | .negSucc n => '-' :: ofNat (n + 1)

/-- The number that a list of digits denotes. -/
def digits? (cs : List Char) : Option Nat :=
  if cs ≠ [] ∧ cs.all Char.isDigit then some (Nat.ofDigitChars 10 cs 0) else none

/-- A number is read back from its digits. -/
@[simp]
theorem digits?_ofNat (n : Nat) :
  digits? (ofNat n) = some n
  := by
  have hall : (ofNat n).all Char.isDigit = true :=
    List.all_eq_true.mpr fun _ hc => Nat.isDigit_of_mem_toDigits (by decide) (by decide) hc
  have hne : ofNat n ≠ [] := Nat.toDigits_ne_nil
  rw [digits?, if_pos ⟨hne, hall⟩]
  simp [ofNat, Nat.ofDigitChars_ten_toDigits]

/-- The unsigned number of a list of characters: digits, after a plus sign
perhaps. -/
def unsignedChars? : List Char → Option Nat
  | '+' :: cs => digits? cs
  | cs => digits? cs

/-- The unsigned number of at most `bits` bits that a text denotes. -/
def unsigned? (bits : Nat) (s : String) : Option Nat :=
  match unsignedChars? s.toList with
  | some n => if FitsUnsigned bits n then some n else none
  | none => none

theorem unsignedChars?_ofNat (n : Nat) :
  unsignedChars? (ofNat n) = some n
  := by
  unfold unsignedChars?
  split
  · next cs h =>
      have : ('+' : Char).isDigit = true :=
        Nat.isDigit_of_mem_toDigits (b := 10) (n := n) (by decide) (by decide)
          (by rw [← ofNat, h]; exact .head _)
      simp at this
  · exact digits?_ofNat n

/-- A number that has the bits is read back from its text. -/
theorem unsigned?_ofNat {bits n : Nat} (h : FitsUnsigned bits n) :
  unsigned? bits (String.ofList (ofNat n)) = some n
  := by
  simp [unsigned?, unsignedChars?_ofNat, h]

/-- The integer that a text denotes: digits, after a sign perhaps. -/
def integer? (s : String) : Option Int :=
  match s.toList with
  | '-' :: cs => (digits? cs).map fun n => -(n : Int)
  | cs => (unsignedChars? cs).map fun n => (n : Int)

end Decimal

end ChainLedger
