import ChainLedger.Text.Decimal

/-!
# Numbers with a fraction or an exponent

A number `m · 10 ^ e` as it is spelled in decimal digits, and whether the binary
number of 64 bits nearest to it is finite.
-/

namespace ChainLedger

/-- The number `mantissa · 10 ^ exponent`. -/
structure Scientific where
  mantissa : Nat
  exponent : Int
deriving DecidableEq, Repr

namespace Scientific

/-- The least number whose nearest binary number of 64 bits is infinite. -/
def tooLarge : Nat := Nat.pow 2 1024 - Nat.pow 2 970

/-- The number is below `tooLarge`.  Powers of ten that settle the question are
not computed in full. -/
def isFinite (x : Scientific) : Bool :=
  match x.exponent with
  | .ofNat k => x.mantissa * Nat.pow 10 (min k 400) < tooLarge
  | .negSucc k => x.mantissa < tooLarge * Nat.pow 10 (min (k + 1) (x.mantissa.log2 + 1))

/-- The number that digits, a fraction after a point and an exponent after `e`
denote, its sign left out. -/
def ofChars (cs : List Char) : Scientific :=
  let cs := cs.dropWhile fun c => c = '+' || c = '-'
  let whole := cs.takeWhile Char.isDigit
  let rest := cs.dropWhile Char.isDigit
  let fraction :=
    match rest with
    | '.' :: r => r.takeWhile Char.isDigit
    | _ => []
  let exponent :=
    match rest.dropWhile fun c => c ≠ 'e' && c ≠ 'E' with
    | _ :: r => (Decimal.integer? (String.ofList r)).getD 0
    | [] => 0
  ⟨Nat.ofDigitChars 10 (whole ++ fraction) 0, exponent - fraction.length⟩

end Scientific

end ChainLedger
