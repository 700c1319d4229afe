import ChainLedger.Row

/-!
# Merging the deltas of a batch

All deltas of one address in a batch become a single one: the sum of those that
the address's row does not count yet, at the highest of their offsets and the
latest of their times.  A sum of zero makes no row, but against a row that exists
it is kept, so that the row's position moves on.
-/

namespace ChainLedger

namespace Merge

/-- The deltas that the row does not count yet. -/
def pending (row? : Option Row) (ds : List Delta) : List Delta :=
  ds.filter fun d => ∀ r ∈ row?, ¬ r.Reflects d.source

/-- The position of the highest offset, the last one if several have it. -/
def latest (p : Position) (ds : List Delta) : Position :=
  ds.foldl (fun best d => if best.offset ≤ d.source.offset then d.source else best) p

/-- The single delta that stands for the deltas of an address, if there is
anything to apply. -/
def ofKey (key : Address) (row? : Option Row) (ds : List Delta) :
    Except Overflow (Option Delta) :=
  match pending row? ds with
  | [] => .ok none
  | d :: rest => do
    let merged : Delta := {
      key := key
      change := ← Totals.sum? ((d :: rest).map (·.change))
      source := latest d.source rest
      time := rest.foldl (fun t d => max t d.time) d.time }
    return if merged.isNoop ∧ row?.isNone then none else some merged

/-- The single delta that stands for deltas of one address. -/
def ofList (rows : Table Address Row) (ds : List Delta) : Except Overflow (Option Delta) :=
  match ds with
  | [] => .ok none
  | d :: _ => ofKey d.key (rows.get? d.key) ds

/-- Merges the deltas of each address of a list into the table. -/
def collect (rows : Table Address Row) (ds : List Delta) :
    List Address → Table Address Delta → Except Overflow (Table Address Delta)
  | [], merged => .ok merged
  | key :: keys, merged => do
    match ← ofKey key (rows.get? key) (ds.filter (·.key = key)) with
    | none => collect rows ds keys merged
    | some d => collect rows ds keys (merged.insert key d)

/-- The merged delta of every address that has anything to apply. -/
def batch (rows : Table Address Row) (ds : List Delta) :
    Except Overflow (Table Address Delta) :=
  collect rows ds (Delta.keys ds) .empty

end Merge

end ChainLedger
