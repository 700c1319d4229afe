import ChainLedger.Word

/-!
# Addresses and hashes

An address has forty hexadecimal digits and a hash sixty-four.  An address is
written as `0x` and its lowercase digits; when one is read, the `0x` may be left
out and the digits may be of either case.
-/

namespace ChainLedger

/-- A twenty-byte account address. -/
abbrev Address := Word 40

/-- A thirty-two-byte block or transaction hash. -/
abbrev Hash := Word 64

instance : Std.TransOrd Address := inferInstanceAs (Std.TransOrd (Word 40))

instance : Std.LawfulEqOrd Address := inferInstanceAs (Std.LawfulEqOrd (Word 40))

namespace Address

/-- `0x` and the forty lowercase digits. -/
def render (a : Address) : String := String.ofList ('0' :: 'x' :: a.digits)

/-- The address that forty digits of either case denote, after at most one `0x`. -/
def ofChars? : List Char → Option Address
  | '0' :: 'x' :: ds => Word.ofDigits? 40 ds
  | ds => Word.ofDigits? 40 ds

/-- The address that a text denotes. -/
def parse? (s : String) : Option Address := ofChars? s.toList

/-- An address is read back from its text. -/
@[simp]
theorem parse?_render (a : Address) :
  parse? (render a) = some a
  := by
  simp [parse?, render, ofChars?]

end Address

end ChainLedger
