import ChainLedger.Store

/-!
# A store in memory

The rows of all addresses in one table.  Each call is a single step.  The store
can be switched off; then every call fails and changes nothing.
-/

namespace ChainLedger

/-- A row store in memory. -/
structure MemoryStore where
  rows : Table Address Row := .empty
  available : Bool := true
deriving DecidableEq

namespace MemoryStore

/-- The failure of every call while the store is switched off. -/
def switchedOff : StoreError := .unavailable "in-memory store switched off"

/-- The store with a row written whatever was there. -/
def put (s : MemoryStore) (row : Row) : MemoryStore :=
  { s with rows := s.rows.insert row.key row }

/-- The rows of those addresses that have one. -/
def select (s : MemoryStore) (keys : List Address) : Table Address Row :=
  .ofList (keys.filterMap fun key => (s.rows.get? key).map fun row => (key, row))

/-- The store after a call, and the answer; a version that cannot be raised is a
fault. -/
def perform (s : MemoryStore) (c : StoreCall) :
    MemoryStore × Except Fault (Except StoreError c.Answer) :=
  if s.available then
    match c with
    | .find key => (s, .ok (.ok (s.rows.get? key)))
    | .findAll keys => (s, .ok (.ok (s.select keys)))
    | .insert row =>
      match s.rows.get? row.key with
      | some _ => (s, .ok (.ok false))
      | none => (s.put row, .ok (.ok true))
    | .update row expected =>
      match s.rows.get? row.key with
      | some old =>
        if old.version = expected then (s.put row, .ok (.ok true)) else (s, .ok (.ok false))
      | none => (s, .ok (.ok false))
    | .remove key => ({ s with rows := s.rows.erase key }, .ok (.ok ()))
    | .settle key expected =>
      match s.rows.get? key with
      | some old =>
        if old.version = expected then
          match old.settle with
          | .ok row => ({ s with rows := s.rows.insert key row }, .ok (.ok true))
          | .error o => (s, .error (.overflow o))
        else (s, .ok (.ok false))
      | none => (s, .ok (.ok false))
  else (s, .ok (.error switchedOff))

end MemoryStore

end ChainLedger
