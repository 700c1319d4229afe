import ChainLedger.Text.Decimal
import ChainLedger.Text.Scientific
import ChainLedger.Toml
import ChainLedger.Word

/-!
# The words of a TOML text

Blanks and comments, keys, strings, numbers, dates and times.  Each is read from
the start of a list of characters, which gives its meaning and what follows, or
nothing if there is none or it is not well formed.
-/

namespace ChainLedger

namespace Toml

/-- The character may stand in a comment: a tab, or any that is no control. -/
def isText (c : Char) : Bool := c = '\t' || (0x20 ≤ c.toNat && c.toNat ≠ 0x7F)

/-- The character is a blank or a tab. -/
def isSpace (c : Char) : Bool := c = ' ' || c = '\t'

/-- The characters after blanks and tabs. -/
def skipSpaces (cs : List Char) : List Char := cs.dropWhile isSpace

/-- The characters after blanks, line ends and comments.  `comment` says whether
a comment is open. -/
def skipLines (comment : Bool) : List Char → List Char
  | [] => []
  | c :: r =>
    if comment && isText c then skipLines true r
    else if isSpace c || c = '\n' then skipLines false r
    else if c = '#' then skipLines true r
    else if c = '\r' then
      match r with
      | '\n' :: r => skipLines false r
      | _ => c :: r
    else c :: r

/-- The characters after a line end, or nothing left. -/
def lineEnd? : List Char → Option (List Char)
  | [] => some []
  | '\n' :: r => some r
  | '\r' :: '\n' :: r => some r
  | _ => none

/-- The characters after the end of a line, a comment before it perhaps. -/
def restOfLine? (cs : List Char) : Option (List Char) :=
  match skipSpaces cs with
  | '#' :: r => lineEnd? (r.dropWhile isText)
  | r => lineEnd? r

/-! ### Strings -/

/-- The character that a letter escapes. -/
def escaped? (c : Char) : Option Char :=
  if c = 'b' then some '\x08'
  else if c = 't' then some '\t'
  else if c = 'n' then some '\n'
  else if c = 'f' then some '\x0c'
  else if c = 'r' then some '\r'
  else if c = '"' then some '"'
  else if c = '\\' then some '\\'
  else none

/-- The character of a number in hexadecimal digits. -/
def numbered? (digits : List Char) : Option Char := do
  let n ← Hex.value? digits
  if n.isValidChar then some (Char.ofNat n) else none

/-- The string up to its closing quote. -/
def basic : List Char → Option (List Char × List Char)
  | [] => none
  | '"' :: r => some ([], r)
  | '\\' :: 'u' :: a :: b :: c :: d :: r => do
    let x ← numbered? [a, b, c, d]
    let (xs, r) ← basic r
    return (x :: xs, r)
  | '\\' :: 'U' :: a :: b :: c :: d :: e :: f :: g :: h :: r => do
    let x ← numbered? [a, b, c, d, e, f, g, h]
    let (xs, r) ← basic r
    return (x :: xs, r)
  | '\\' :: e :: r => do
    let x ← escaped? e
    let (xs, r) ← basic r
    return (x :: xs, r)
  | c :: r => if isText c then (basic r).map fun (xs, r) => (c :: xs, r) else none

/-- A backslash that ends a line is followed by blanks and a line end. -/
def endsLine (cs : List Char) : Bool :=
  match skipSpaces cs with
  | '\n' :: _ => true
  | '\r' :: '\n' :: _ => true
  | _ => false

/-- The string of several lines up to its three closing quotes, before which one
or two more may stand.  `skipping` says that blanks and line ends are left out,
as they are after a backslash that ends a line. -/
def basicLines (skipping : Bool) : List Char → Option (List Char × List Char)
  | [] => none
  | '"' :: '"' :: '"' :: '"' :: '"' :: r => some (['"', '"'], r)
  | '"' :: '"' :: '"' :: '"' :: r => some (['"'], r)
  | '"' :: '"' :: '"' :: r => some ([], r)
  | '\\' :: 'u' :: a :: b :: c :: d :: r => do
    let x ← numbered? [a, b, c, d]
    let (xs, r) ← basicLines false r
    return (x :: xs, r)
  | '\\' :: 'U' :: a :: b :: c :: d :: e :: f :: g :: h :: r => do
    let x ← numbered? [a, b, c, d, e, f, g, h]
    let (xs, r) ← basicLines false r
    return (x :: xs, r)
  | '\\' :: e :: r =>
    if endsLine (e :: r) then basicLines true (e :: r)
    else do
      let x ← escaped? e
      let (xs, r) ← basicLines false r
      return (x :: xs, r)
  | '\r' :: '\n' :: r =>
    if skipping then basicLines true r
    else (basicLines false r).map fun (xs, r) => ('\n' :: xs, r)
  | c :: r =>
    if skipping && (isSpace c || c = '\n') then basicLines true r
    else if isText c || c = '\n' then (basicLines false r).map fun (xs, r) => (c :: xs, r)
    else none

/-- The string without escapes up to its closing quote. -/
def literal : List Char → Option (List Char × List Char)
  | [] => none
  | '\'' :: r => some ([], r)
  | c :: r => if isText c then (literal r).map fun (xs, r) => (c :: xs, r) else none

/-- The string of several lines without escapes up to its three closing quotes,
before which one or two more may stand. -/
def literalLines : List Char → Option (List Char × List Char)
  | [] => none
  | '\'' :: '\'' :: '\'' :: '\'' :: '\'' :: r => some (['\'', '\''], r)
  | '\'' :: '\'' :: '\'' :: '\'' :: r => some (['\''], r)
  | '\'' :: '\'' :: '\'' :: r => some ([], r)
  | '\r' :: '\n' :: r => (literalLines r).map fun (xs, r) => ('\n' :: xs, r)
  | c :: r =>
    if isText c || c = '\n' then (literalLines r).map fun (xs, r) => (c :: xs, r) else none

/-- The characters after a line end right at the start. -/
def skipLineEnd : List Char → List Char
  | '\n' :: r => r
  | '\r' :: '\n' :: r => r
  | r => r

/-- A string of any of the four kinds. -/
def string? (cs : List Char) : Option (String × List Char) :=
  (match cs with
    | '"' :: '"' :: '"' :: r => basicLines false (skipLineEnd r)
    | '"' :: r => basic r
    | '\'' :: '\'' :: '\'' :: r => literalLines (skipLineEnd r)
    | '\'' :: r => literal r
    | _ => none).map fun (xs, r) => (String.ofList xs, r)

/-! ### Keys -/

/-- The character may stand in a key without quotes. -/
def isBare (c : Char) : Bool :=
  c.isAlphanum || c = '-' || c = '_'

/-- A key without dots outside of quotes. -/
def simpleKey? : List Char → Option (String × List Char)
  | '"' :: r => (basic r).map fun (xs, r) => (String.ofList xs, r)
  | '\'' :: r => (literal r).map fun (xs, r) => (String.ofList xs, r)
  | cs =>
    match cs.takeWhile isBare with
    | [] => none
    | xs => some (String.ofList xs, cs.dropWhile isBare)

/-- The parts of a key that has at most `n` parts, with the blanks around them. -/
def keyParts? : Nat → List Char → Option (List String × List Char)
  | 0, _ => none
  | n + 1, cs => do
    let (part, r) ← simpleKey? (skipSpaces cs)
    match skipSpaces r with
    | '.' :: r =>
      let (parts, r) ← keyParts? n r
      return (part :: parts, r)
    | r => return ([part], r)

/-- How deep arrays and tables may be nested, and how many parts a key may have. -/
def depthLimit : Nat := 79

/-- A key: the parts before the last one, the last one, and what follows. -/
def key? (cs : List Char) : Option (List String × String × List Char) := do
  let (parts, r) ← keyParts? depthLimit cs
  let name ← parts.getLast?
  return (parts.dropLast, name, r)

/-! ### Numbers -/

/-- More digits, an underscore allowed before each. -/
def moreDigits (isDigit : Char → Bool) : List Char → Option (List Char × List Char)
  | [] => some ([], [])
  | '_' :: c :: r =>
    if isDigit c then (moreDigits isDigit r).map fun (ds, r) => (c :: ds, r) else none
  | c :: r =>
    if isDigit c then (moreDigits isDigit r).map fun (ds, r) => (c :: ds, r)
    else some ([], c :: r)

/-- Digits, an underscore allowed between two of them. -/
def digits? (isDigit : Char → Bool) : List Char → Option (List Char × List Char)
  | [] => none
  | c :: r =>
    if isDigit c then (moreDigits isDigit r).map fun (ds, r) => (c :: ds, r) else none

/-- Decimal digits that start with no zero, or zero alone. -/
def whole? : List Char → Option (List Char × List Char)
  | '0' :: r => some (['0'], r)
  | cs => digits? Char.isDigit cs

/-- The fraction of a number, if it has one. -/
def fraction? : List Char → Option (List Char × List Char)
  | '.' :: r => (digits? Char.isDigit r).map fun (ds, r) => ('.' :: ds, r)
  | cs => some ([], cs)

/-- The digits of an exponent, after a sign perhaps. -/
def exponentDigits? : List Char → Option (List Char × List Char)
  | '+' :: r => (digits? Char.isDigit r).map fun (ds, r) => ('+' :: ds, r)
  | '-' :: r => (digits? Char.isDigit r).map fun (ds, r) => ('-' :: ds, r)
  | cs => digits? Char.isDigit cs

/-- The exponent of a number, if it has one. -/
def exponent? : List Char → Option (List Char × List Char)
  | 'e' :: r => (exponentDigits? r).map fun (ds, r) => ('e' :: ds, r)
  | 'E' :: r => (exponentDigits? r).map fun (ds, r) => ('e' :: ds, r)
  | cs => some ([], cs)

/-- A signed number of 64 bits. -/
def integer? (i : Int) : Option Toml :=
  if FitsSigned 64 i then some (integer i) else none

/-- The number of digits to a base, the first one the highest. -/
def ofDigits (base : Nat) (ds : List Char) : Nat :=
  ds.foldl (fun n c => n * base + (Hex.digit? c).getD 0) 0

/-- A number to a base other than ten. -/
def based? (base : Nat) (cs : List Char) : Option (Toml × List Char) := do
  let (ds, r) ← digits? (fun c => (Hex.digit? c).any (· < base)) cs
  return (← integer? (ofDigits base ds), r)

/-- A decimal number without its sign.  A number that is too large to be finite
is let through only if it is negative. -/
def decimal? (negative : Bool) (cs : List Char) : Option (Toml × List Char) := do
  let (ds, r) ← whole? cs
  let (fraction, r) ← fraction? r
  let (exponent, r) ← exponent? r
  if fraction.isEmpty ∧ exponent.isEmpty then
    let n := ofDigits 10 ds
    return (← integer? (if negative then -(n : Int) else n), r)
  else if negative ∨ (Scientific.ofChars (ds ++ (fraction ++ exponent))).isFinite then
    return (real, r)
  else none

/-- A number without its sign, which may also be infinite or no number at all. -/
def unsigned? (negative : Bool) : List Char → Option (Toml × List Char)
  | 'i' :: 'n' :: 'f' :: r => some (real, r)
  | 'n' :: 'a' :: 'n' :: r => some (real, r)
  | cs => decimal? negative cs

/-- A number. -/
def number? : List Char → Option (Toml × List Char)
  | '0' :: 'x' :: r => based? 16 r
  | '0' :: 'o' :: r => based? 8 r
  | '0' :: 'b' :: r => based? 2 r
  | '+' :: r => unsigned? false r
  | '-' :: r => unsigned? true r
  | cs => unsigned? false cs

/-! ### Dates and times -/

/-- The number of two digits. -/
def two? (a b : Char) : Option Nat := Decimal.digits? [a, b]

/-- The days of a month. -/
def daysOf (year month : Nat) : Nat :=
  if month = 2 then
    if year % 4 = 0 ∧ (year % 100 ≠ 0 ∨ year % 400 = 0) then 29 else 28
  else if month = 4 ∨ month = 6 ∨ month = 9 ∨ month = 11 then 30
  else 31

/-- The characters after a date. -/
def date? : List Char → Option (List Char)
  | a :: b :: c :: d :: '-' :: e :: f :: '-' :: g :: h :: r => do
    let year ← Decimal.digits? [a, b, c, d]
    let month ← two? e f
    let day ← two? g h
    if 1 ≤ month ∧ month ≤ 12 ∧ 1 ≤ day ∧ day ≤ daysOf year month then some r else none
  | _ => none

/-- The characters after the fraction of a second, if there is one. -/
def secondFraction? : List Char → Option (List Char)
  | '.' :: r => if (r.takeWhile Char.isDigit).isEmpty then none else some (r.dropWhile Char.isDigit)
  | cs => some cs

/-- The characters after a time.  A minute may have sixty-one seconds. -/
def time? : List Char → Option (List Char)
  | a :: b :: ':' :: c :: d :: ':' :: e :: f :: r => do
    if (← two? a b) ≤ 23 ∧ (← two? c d) ≤ 59 ∧ (← two? e f) ≤ 60 then secondFraction? r else none
  | _ => none

/-- The characters after the distance of a clock from the universal time. -/
def clockOffset? : List Char → Option (List Char)
  | a :: b :: ':' :: c :: d :: r => do
    if (← two? a b) ≤ 23 ∧ (← two? c d) ≤ 59 then some r else none
  | _ => none

/-- The characters after the zone of a time, if it has one. -/
def zone? : List Char → Option (List Char)
  | 'Z' :: r => some r
  | 'z' :: r => some r
  | '+' :: r => clockOffset? r
  | '-' :: r => clockOffset? r
  | cs => some cs

/-- A blank that is followed by a time separates it from the date. -/
def startsTime : List Char → Bool
  | a :: b :: ':' :: _ => a.isDigit && b.isDigit
  | _ => false

/-- The characters after a time with its zone, if there is one after a date. -/
def timeOfDate? : List Char → Option (List Char)
  | 'T' :: r => do zone? (← time? r)
  | 't' :: r => do zone? (← time? r)
  | ' ' :: r => if startsTime r then do zone? (← time? r) else some (' ' :: r)
  | cs => some cs

/-- The text starts like a date. -/
def startsDate : List Char → Bool
  | a :: b :: c :: d :: '-' :: _ => a.isDigit && b.isDigit && c.isDigit && d.isDigit
  | _ => false

/-- A number, a date, a time or both. -/
def numberOrMoment? (cs : List Char) : Option (Toml × List Char) :=
  if startsDate cs then do return (moment, ← timeOfDate? (← date? cs))
  else if startsTime cs then (time? cs).map fun r => (moment, r)
  else number? cs

end Toml

end ChainLedger
