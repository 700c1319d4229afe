import ChainLedger.Toml.Lexeme

/-!
# Reading TOML

The tables that a text denotes: a text is a sequence of lines, each blank, a key
with its value, or a header; the keys go into the table of the last header.
-/

namespace ChainLedger

namespace Toml

/-- The table of some keys and values in braces. -/
def ofPairs? (pairs : List (List String × String × Toml)) : Option Toml :=
  (pairs.foldlM (fun es (path, name, v) => Entries.addDotted name v path es) []).map
    (table .braces)

mutual

/-- The value at the start of a text and what follows.  `depth` is how deep it may
still be nested. -/
def value? : Nat → Nat → List Char → Option (Toml × List Char)
  | 0, _, _ => none
  | n + 1, depth, cs =>
    match cs with
    | '"' :: _ => (string? cs).map fun (s, r) => (string s, r)
    | '\'' :: _ => (string? cs).map fun (s, r) => (string s, r)
    | '[' :: r =>
      match depth with
      | 0 => none
      | depth + 1 =>
        match skipLines false r with
        | ']' :: r => some (array [], r)
        | r => (items? n depth r).map fun (vs, r) => (array vs, r)
    | '{' :: r =>
      match depth with
      | 0 => none
      | depth + 1 =>
        match skipSpaces r with
        | '}' :: r => some (table .braces [], r)
        | r => do
          let (pairs, r) ← pairs? n depth r
          return (← ofPairs? pairs, r)
    | 't' :: 'r' :: 'u' :: 'e' :: r => some (boolean true, r)
    | 'f' :: 'a' :: 'l' :: 's' :: 'e' :: r => some (boolean false, r)
    | _ => numberOrMoment? cs

/-- The items of an array from one of them to its closing bracket, before which a
comma may stand. -/
def items? : Nat → Nat → List Char → Option (List Toml × List Char)
  | 0, _, _ => none
  | n + 1, depth, cs => do
    let (v, r) ← value? n depth cs
    match skipLines false r with
    | ']' :: r => return ([v], r)
    | ',' :: r =>
      match skipLines false r with
      | ']' :: r => return ([v], r)
      | r =>
        let (vs, r) ← items? n depth r
        return (v :: vs, r)
    | _ => none

/-- The keys and values of a table in braces from one of them to its closing
brace. -/
def pairs? : Nat → Nat → List Char → Option (List (List String × String × Toml) × List Char)
  | 0, _, _ => none
  | n + 1, depth, cs => do
    let (path, name, r) ← key? cs
    match r with
    | '=' :: r =>
      let (v, r) ← value? n depth (skipSpaces r)
      match skipSpaces r with
      | '}' :: r => return ([(path, name, v)], r)
      | ',' :: r =>
        let (ps, r) ← pairs? n depth r
        return ((path, name, v) :: ps, r)
      | _ => none
    | _ => none

end

/-- A document while it is read: its tables, and the path of the last header. -/
structure Draft where
  entries : Entries := []
  header : List String := []

/-- One line that is not blank, its leading blanks skipped. -/
def line? (d : Draft) : List Char → Option (Draft × List Char)
  | '[' :: '[' :: cs => do
    let (path, name, r) ← key? cs
    match r with
    | ']' :: ']' :: r =>
      let entries ← d.entries.within (Entries.openNext name) path
      return (⟨entries, path ++ [name]⟩, ← restOfLine? r)
    | _ => none
  | '[' :: cs => do
    let (path, name, r) ← key? cs
    match r with
    | ']' :: r =>
      let entries ← d.entries.within (Entries.openTable name) path
      return (⟨entries, path ++ [name]⟩, ← restOfLine? r)
    | _ => none
  | cs => do
    let (path, name, r) ← key? cs
    match r with
    | '=' :: r =>
      let r := skipSpaces r
      let (v, r) ← value? (2 * r.length + 2) depthLimit r
      let entries ← d.entries.within (Entries.addDotted name v path) d.header
      return ({ d with entries }, ← restOfLine? r)
    | _ => none

/-- The document of at most `n` lines that are not blank. -/
def lines? : Nat → Draft → List Char → Option Entries
  | n, d, cs =>
    match skipLines false cs with
    | [] => some d.entries
    | cs =>
      match n with
      | 0 => none
      | n + 1 => do
        let (d, r) ← line? d cs
        lines? n d r

/-- The characters after a mark of the byte order. -/
def skipByteOrderMark : List Char → List Char
  | '\ufeff' :: r => r
  | cs => cs

/-- The entries of the outermost table of a text.  Every line has a character, so
their number bounds the lines. -/
def parse? (s : String) : Option Entries :=
  let cs := skipByteOrderMark s.toList
  lines? cs.length {} cs

end Toml

end ChainLedger
