import ChainLedger.Failure
import ChainLedger.Row

/-!
# The row store

The calls of the store that holds the rows.  A row is made only where there is
none, and is changed only against the version that the caller has read.  Every
call runs under a deadline; one that misses it may or may not have taken effect.
-/

namespace ChainLedger

/-- A call of the row store. -/
inductive StoreCall
  /-- The row of an address. -/
  | find (key : Address)
  /-- The rows of several addresses. -/
  | findAll (keys : List Address)
  /-- Makes a row, if its address has none. -/
  | insert (row : Row)
  /-- Replaces the row of the same address, if that has the expected version. -/
  | update (row : Row) (expected : Nat)
  /-- Removes the row of an address. -/
  | remove (key : Address)
  /-- Marks a row as acknowledged, if it has the expected version. -/
  | settle (key : Address) (expected : Nat)

namespace StoreCall

/-- The type of the answer to a call. -/
@[reducible] def Answer : StoreCall → Type
  | find _ => Option Row
  | findAll _ => Table Address Row
  | insert _ => Bool
  | update _ _ => Bool
  | remove _ => Unit
  | settle _ _ => Bool

/-- The name of a call. -/
def name : StoreCall → String
  | find _ => "find_by_id"
  | findAll _ => "find_all_by_id_in"
  | insert _ => "insert_if_not_exists"
  | update _ _ => "update"
  | remove _ => "remove"
  | settle _ _ => "commit_offset_bump"

end StoreCall

/-- How a call under a deadline ends. -/
inductive Timed (α : Type)
  /-- It is answered in time. -/
  | answered (r : Except StoreError α)
  /-- The deadline passes first. -/
  | late

namespace Timed

variable {α : Type}

/-- What the caller of a named operation makes of the end of its call. -/
def result (operation : String) : Timed α → Except StoreError α
  | answered r => r
  | late => .error (.timeout operation)

end Timed

end ChainLedger
