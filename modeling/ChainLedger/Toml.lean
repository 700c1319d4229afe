/-!
# TOML values

The values of a TOML text and the tables that hold them.  A table remembers how
it came about, since that decides what may still be added to it: a dotted key
reaches into tables that dotted keys made, a header opens a table that so far
is only implied by longer headers, and what is written in braces is closed.
-/

namespace ChainLedger

/-- How a table came about. -/
inductive Toml.Origin
  /-- It has a header of its own. -/
  | stated
  /-- Headers of tables inside it imply it. -/
  | implied
  /-- Dotted keys made it. -/
  | dotted
  /-- It is written in braces. -/
  | braces
deriving DecidableEq, Repr

/-- A TOML value.  Numbers with a fraction, dates and times are only known to be
well formed. -/
inductive Toml
  | string (s : String)
  | integer (i : Int)
  | real
  | boolean (b : Bool)
  | moment
  | array (items : List Toml)
  | table (origin : Toml.Origin) (entries : List (String × Toml))
  /-- The tables of repeated headers, the open one last. -/
  | tables (items : List (List (String × Toml)))

namespace Toml

/-- The named values of a table, in the order they were added. -/
abbrev Entries := List (String × Toml)

namespace Entries

/-- The value of a name. -/
def get? (es : Entries) (name : String) : Option Toml :=
  (es.find? fun e => e.1 = name).map (·.2)

/-- The entries with the value of a name set, at the end if it is new. -/
def set (es : Entries) (name : String) (v : Toml) : Entries :=
  if (es.get? name).isSome then es.map fun e => if e.1 = name then (name, v) else e
  else es ++ [(name, v)]

/-- Adds a value under a name that is not taken. -/
def add (name : String) (v : Toml) (es : Entries) : Option Entries :=
  if (es.get? name).isSome then none else some (es.set name v)

/-- Adds a value under a dotted key.  Each part but the last names a table that
dotted keys made; on the way, but not at the end of it, the table may also be
one implied by headers, or the last of repeated ones. -/
def addDotted (name : String) (v : Toml) : List String → Entries → Option Entries
  | [], es => es.add name v
  | p :: ps, es =>
    match es.get? p with
    | none => (addDotted name v ps []).map fun t => es.set p (table .dotted t)
    | some (table .dotted t) =>
      (addDotted name v ps t).map fun t => es.set p (table .dotted t)
    | some (table .implied t) =>
      if ps.isEmpty then none
      else (addDotted name v ps t).map fun t => es.set p (table .implied t)
    | some (tables ts) =>
      if ps.isEmpty then none
      else (addDotted name v ps (ts.getLast?.getD [])).map fun t =>
        es.set p (tables (ts.dropLast ++ [t]))
    | some _ => none

/-- Changes the table that the path of a header leads to, making tables that are
missing on the way. -/
def within (change : Entries → Option Entries) : List String → Entries → Option Entries
  | [], es => change es
  | p :: ps, es =>
    match es.get? p with
    | none => (within change ps []).map fun t => es.set p (table .implied t)
    | some (table .braces _) => none
    | some (table origin t) => (within change ps t).map fun t => es.set p (table origin t)
    | some (tables ts) =>
      (within change ps (ts.getLast?.getD [])).map fun t =>
        es.set p (tables (ts.dropLast ++ [t]))
    | some _ => none

/-- Opens the table of a name: a new one, or one that is only implied. -/
def openTable (name : String) (es : Entries) : Option Entries :=
  match es.get? name with
  | none => some (es.set name (table .stated []))
  | some (table .implied t) => some (es.set name (table .stated t))
  | some _ => none

/-- Opens one more of the repeated tables of a name. -/
def openNext (name : String) (es : Entries) : Option Entries :=
  match es.get? name with
  | none => some (es.set name (tables [[]]))
  | some (tables ts) => some (es.set name (tables (ts ++ [[]])))
  | some _ => none

end Entries

end Toml

end ChainLedger
