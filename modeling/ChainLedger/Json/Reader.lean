import ChainLedger.Json
import ChainLedger.Text.Decimal
import ChainLedger.Word

/-!
# Reading JSON

The value that a text denotes, by the grammar of JSON and nothing more lenient.
Half a surrogate pair in a string is let through, since the grammar has it; the
string then denotes no text.
-/

namespace ChainLedger

namespace Json

/-- The blanks between the tokens. -/
def isBlank (c : Char) : Bool := c = ' ' || c = '\n' || c = '\r' || c = '\t'

/-- The characters from the next token on. -/
def skipBlanks (cs : List Char) : List Char := cs.dropWhile isBlank

/-- A part of a string: a character, or an escaped code unit of sixteen bits. -/
inductive Piece
  | char (c : Char)
  | code (u : Nat)

namespace Piece

/-- The pieces as characters: a code unit stands for itself, or together with
the next one as a surrogate pair.  Half a pair stands for nothing. -/
def join : List Piece → Option (List Char)
  | [] => some []
  | char c :: rest => (join rest).map (c :: ·)
  | code u :: rest =>
    if u < 0xD800 ∨ 0xE000 ≤ u then (join rest).map (Char.ofNat u :: ·)
    else
      match rest with
      | code v :: rest' =>
        if u < 0xDC00 ∧ 0xDC00 ≤ v ∧ v < 0xE000 then
          (join rest').map (Char.ofNat (0x10000 + (u - 0xD800) * 0x400 + (v - 0xDC00)) :: ·)
        else none
      | _ => none

end Piece

/-- The character that a letter escapes. -/
def escaped? (c : Char) : Option Char :=
  if c = '"' then some '"'
  else if c = '\\' then some '\\'
  else if c = '/' then some '/'
  else if c = 'b' then some '\x08'
  else if c = 'f' then some '\x0c'
  else if c = 'n' then some '\n'
  else if c = 'r' then some '\r'
  else if c = 't' then some '\t'
  else none

/-- The pieces of a string up to its closing quote, and what follows. -/
def pieces : List Char → Option (List Piece × List Char)
  | [] => none
  | '"' :: rest => some ([], rest)
  | '\\' :: 'u' :: a :: b :: c :: d :: rest =>
    match Hex.value? [a, b, c, d], pieces rest with
    | some u, some (ps, r) => some (.code u :: ps, r)
    | _, _ => none
  | '\\' :: e :: rest =>
    match escaped? e, pieces rest with
    | some c, some (ps, r) => some (.char c :: ps, r)
    | _, _ => none
  | c :: rest =>
    if c.toNat < 32 then none else (pieces rest).map fun (ps, r) => (.char c :: ps, r)

/-- The text of a string after its opening quote, and what follows. -/
def string (cs : List Char) : Option (Option String × List Char) :=
  (pieces cs).map fun (ps, r) => ((Piece.join ps).map String.ofList, r)

/-- The whole part of a number: zero alone, or digits that start otherwise. -/
def whole? (cs : List Char) : Option (List Char × List Char) :=
  match cs with
  | '0' :: rest => if (rest.head?.map Char.isDigit).getD false then none else some (['0'], rest)
  | _ =>
    match cs.takeWhile Char.isDigit with
    | [] => none
    | ds => some (ds, cs.dropWhile Char.isDigit)

/-- At least one digit. -/
def someDigits? (cs : List Char) : Option (List Char × List Char) :=
  match cs.takeWhile Char.isDigit with
  | [] => none
  | ds => some (ds, cs.dropWhile Char.isDigit)

/-- The fraction of a number, if it has one. -/
def fraction? : List Char → Option (List Char × List Char)
  | '.' :: rest => (someDigits? rest).map fun (ds, r) => ('.' :: ds, r)
  | cs => some ([], cs)

/-- The digits of an exponent, after a sign perhaps. -/
def exponentDigits? : List Char → Option (List Char × List Char)
  | '+' :: rest => (someDigits? rest).map fun (ds, r) => ('+' :: ds, r)
  | '-' :: rest => (someDigits? rest).map fun (ds, r) => ('-' :: ds, r)
  | cs => someDigits? cs

/-- The exponent of a number, if it has one. -/
def exponent? : List Char → Option (List Char × List Char)
  | 'e' :: rest => (exponentDigits? rest).map fun (ds, r) => ('e' :: ds, r)
  | 'E' :: rest => (exponentDigits? rest).map fun (ds, r) => ('E' :: ds, r)
  | cs => some ([], cs)

/-- A number without its sign, and what follows. -/
def unsignedNumber (negative : Bool) (cs : List Char) : Option (Json × List Char) := do
  let (ds, r) ← whole? cs
  let (fraction, r) ← fraction? r
  let (exponent, r) ← exponent? r
  let n := Nat.ofDigitChars 10 ds 0
  if fraction.isEmpty ∧ exponent.isEmpty ∧ ¬ (negative ∧ n = 0) then
    return (int (if negative then -(n : Int) else n), r)
  else
    let sign := if negative then ['-'] else []
    return (real (String.ofList (sign ++ (ds ++ (fraction ++ exponent)))), r)

/-- A number, and what follows. -/
def number : List Char → Option (Json × List Char)
  | '-' :: rest => unsignedNumber true rest
  | cs => unsignedNumber false cs

mutual

/-- The value at the start of a text, and what follows. -/
def value : Nat → List Char → Option (Json × List Char)
  | 0, _ => none
  | n + 1, cs =>
    match skipBlanks cs with
    | '"' :: rest => (string rest).map fun (s, r) => (str s, r)
    | '[' :: rest =>
      match skipBlanks rest with
      | ']' :: r => some (arr [], r)
      | _ => (items n rest).map fun (js, r) => (arr js, r)
    | '{' :: rest =>
      match skipBlanks rest with
      | '}' :: r => some (obj [], r)
      | _ => (members n rest).map fun (ms, r) => (obj ms, r)
    | 'n' :: 'u' :: 'l' :: 'l' :: rest => some (null, rest)
    | 't' :: 'r' :: 'u' :: 'e' :: rest => some (bool true, rest)
    | 'f' :: 'a' :: 'l' :: 's' :: 'e' :: rest => some (bool false, rest)
    | cs => number cs

/-- The items of an array up to its closing bracket, and what follows. -/
def items : Nat → List Char → Option (List Json × List Char)
  | 0, _ => none
  | n + 1, cs =>
    match value n cs with
    | none => none
    | some (j, r) =>
      match skipBlanks r with
      | ',' :: r => (items n r).map fun (js, r) => (j :: js, r)
      | ']' :: r => some ([j], r)
      | _ => none

/-- The members of an object up to its closing brace, and what follows. -/
def members : Nat → List Char → Option (List (Option String × Json) × List Char)
  | 0, _ => none
  | n + 1, cs =>
    match skipBlanks cs with
    | '"' :: rest =>
      match string rest with
      | none => none
      | some (name, r) =>
        match skipBlanks r with
        | ':' :: r =>
          match value n r with
          | none => none
          | some (j, r) =>
            match skipBlanks r with
            | ',' :: r => (members n r).map fun (ms, r) => ((name, j) :: ms, r)
            | '}' :: r => some ([(name, j)], r)
            | _ => none
        | _ => none
    | _ => none

end

/-- The value that a list of characters denotes.  Every step of the reading but
two takes a character, so twice their number is steps enough. -/
def ofChars? (cs : List Char) : Option Json :=
  match value (2 * cs.length + 2) cs with
  | some (j, r) => if (skipBlanks r).isEmpty then some j else none
  | none => none

/-- The value that a text denotes. -/
def parse? (s : String) : Option Json := ofChars? s.toList

end Json

end ChainLedger
