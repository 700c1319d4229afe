import ChainLedger.Width

/-!
# JSON values

A JSON value as its text is built, object members in order and repeated names
kept.  A whole number is its value; any other number keeps its spelling.  A
string may hold the escape of half a surrogate pair, and then it has a place in
the grammar but denotes no text.
-/

namespace ChainLedger

/-- A JSON value. -/
inductive Json
  | null
  | bool (b : Bool)
  /-- A number written without fraction and exponent; not minus zero. -/
  | int (i : Int)
  /-- Any other number, as it is spelled. -/
  | real (spelling : String)
  /-- A string, with its text if it denotes one. -/
  | str (text : Option String)
  | arr (items : List Json)
  /-- An object, with its members' names if they denote texts. -/
  | obj (members : List (Option String × Json))

namespace Json

instance : Inhabited Json := ⟨null⟩

/-- The string of a text. -/
def text (s : String) : Json := str (some s)

/-- The number of a natural number. -/
def nat (n : Nat) : Json := int n

/-- An object of named members. -/
def object (members : List (String × Json)) : Json :=
  obj (members.map fun m => (some m.1, m.2))

/-- The value, or null. -/
def orNull : Option Json → Json
  | some j => j
  | none => null

/-- The text of a string. -/
def text? : Json → Option String
  | str s => s
  | null | bool _ | int _ | real _ | arr _ | obj _ => none

/-- The truth value. -/
def bool? : Json → Option Bool
  | bool b => some b
  | null | int _ | real _ | str _ | arr _ | obj _ => none

/-- The whole number. -/
def int? : Json → Option Int
  | int i => some i
  | null | bool _ | real _ | str _ | arr _ | obj _ => none

/-- The unsigned whole number of at most `bits` bits. -/
def unsigned? (bits : Nat) : Json → Option Nat
  | int (.ofNat n) => if FitsUnsigned bits n then some n else none
  | int (.negSucc _) | null | bool _ | real _ | str _ | arr _ | obj _ => none

/-- The items of an array. -/
def items? : Json → Option (List Json)
  | arr items => some items
  | null | bool _ | int _ | real _ | str _ | obj _ => none

/-- The first member of a name. -/
def member? (name : String) : Json → Option Json
  | obj members => (members.find? fun m => m.1 = some name).map (·.2)
  | null | bool _ | int _ | real _ | str _ | arr _ => none

mutual

/-- How deep arrays and objects are nested. -/
def depth : Json → Nat
  | arr items => depthItems items + 1
  | obj members => depthMembers members + 1
  | null | bool _ | int _ | real _ | str _ => 0

/-- The greatest depth of some items. -/
def depthItems : List Json → Nat
  | [] => 0
  | j :: rest => max j.depth (depthItems rest)

/-- The greatest depth of some members. -/
def depthMembers : List (Option String × Json) → Nat
  | [] => 0
  | (_, j) :: rest => max j.depth (depthMembers rest)

end

end Json

end ChainLedger
