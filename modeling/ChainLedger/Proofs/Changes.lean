import ChainLedger.Proofs.Polling
import ChainLedger.Proofs.Sum

/-!
# What records change

What some records change an address by is a sum over the records, so it does not depend on their
order.  Nor does it depend on where they stand in the log: a record counts by its kind and its
payload only.  A payload that leaves the chain changes every address by just what it has changed
it by when it joined the chain, with the opposite signs.
-/

namespace ChainLedger

/-- The delta at another position. -/
def Delta.moved (p : Position) (d : Delta) : Delta := { d with source := p }

/-- What is done with the result of a computation of two parts, is done with that of the second. -/
theorem map_bind {ε α β γ : Type} (x : Except ε α) (f : α → Except ε β) (g : β → γ) :
  (x >>= f).map g = x >>= fun a => (f a).map g
  := by
  cases x with
  | error e => rfl
  | ok a => rfl

/-- The position of a payload has no influence but on the positions of its deltas. -/
theorem Payload.deltas_moved (q : Payload) (p p' : Position) :
  q.deltas p = (q.deltas p').map (List.map (Delta.moved p))
  := by
  cases q with
  | block b =>
      simp only [deltas, map_bind]
      rfl
  | uncle u =>
      simp only [deltas, map_bind]
      rfl
  | transaction t =>
      simp only [deltas, map_bind]
      rfl

namespace Record

variable {key : Address} {r r' : Record} {rs rs' : List Record}

/-- The position of a record has no influence but on the positions of its deltas. -/
theorem deltas_moved (hkind : r.kind = r'.kind) (hpayload : r.payload = r'.payload) :
  r.deltas = r'.deltas.map (Delta.moved r.position)
  := by
  have heffect : r.effect = r'.effect.map (List.map (Delta.moved r.position)) := by
    rw [effect, effect, hkind, hpayload]
    have hmoved := r'.payload.deltas_moved r.position r'.position
    cases r'.kind with
    | added => exact hmoved
    | dropped =>
        dsimp only
        rw [hmoved]
        cases r'.payload.deltas r'.position with
        | error e => rfl
        | ok ds =>
            simp only [Except.map, List.map_map]
            rfl
    | pooled => rfl
    | unknown => rfl
  rw [deltas, deltas, heffect]
  cases r'.effect with
  | error e => rfl
  | ok ds => rfl

/-- The changes that some records make to an address, one by one. -/
def parts (key : Address) (rs : List Record) : List Totals :=
  ((rs.flatMap deltas).filter (·.key = key)).map (·.change)

theorem parts_append (key : Address) (rs rs' : List Record) :
  parts key (rs ++ rs') = parts key rs ++ parts key rs'
  := by
  simp [parts]

theorem parts_perm (h : rs.Perm rs') :
  (parts key rs).Perm (parts key rs')
  := ((h.flatMap_right deltas).filter _).map _

theorem parts_flatMap {α : Type} (key : Address) (l : List α) (f : α → List Record) :
  parts key (l.flatMap f) = l.flatMap fun a => parts key (f a)
  := by
  induction l with
  | nil => rfl
  | cons a l ih => rw [List.flatMap_cons, parts_append, ih, List.flatMap_cons]

/-- What a record changes depends on its kind and its payload only. -/
theorem parts_congr (hkind : r.kind = r'.kind) (hpayload : r.payload = r'.payload) :
  parts key [r] = parts key [r']
  := by
  simp only [parts, List.flatMap_singleton, deltas_moved hkind hpayload, List.filter_map,
    List.map_map]
  rfl

/-- A record that leaves the chain takes back what it did when it joined the chain. -/
theorem parts_of_dropped (hkind : r.kind = .added) (hkind' : r'.kind = .dropped)
    (hpayload : r'.payload = r.payload) :
  parts key [r'] = (parts key [r]).map (-·)
  := by
  have hdeltas : ({ r' with kind := .added } : Record).deltas.map Delta.negated = r'.deltas := by
    simp only [deltas, effect, hkind', position]
    cases r'.payload.deltas ⟨r'.partition, r'.offset⟩ with
    | error e => rfl
    | ok ds => rfl
  rw [← parts_congr (r := { r' with kind := .added }) hkind.symm hpayload]
  simp only [parts, List.flatMap_singleton, ← hdeltas, List.filter_map, List.map_map]
  rfl

/-- What some records change an address by. -/
def changes (key : Address) (rs : List Record) : Totals :=
  Delta.total ((rs.flatMap deltas).filter (·.key = key))

theorem changes_eq (key : Address) (rs : List Record) :
  changes key rs = (parts key rs).sum
  := rfl

@[simp]
theorem changes_nil :
  changes key [] = 0
  := rfl

theorem changes_append (key : Address) (rs rs' : List Record) :
  changes key (rs ++ rs') = changes key rs + changes key rs'
  := by
  simp only [changes_eq, parts_append, List.sum_append]

/-- What some records change an address by is the sum over the records. -/
theorem changes_eq_sum (key : Address) (rs : List Record) :
  changes key rs = (rs.map fun r => changes key [r]).sum
  := by
  induction rs with
  | nil => rfl
  | cons r rs ih =>
      rw [List.map_cons, List.sum_cons, ← ih]
      apply changes_append key [r] rs

end Record

/-- What a payload changes an address by when it joins the chain. -/
def Payload.changes (key : Address) (q : Payload) : Totals :=
  Record.changes key [⟨.added, q, ⟨"", 0⟩, 0⟩]

namespace Record

variable {key : Address} {r : Record}

/-- A record that joins the chain changes an address by what its payload does. -/
theorem changes_of_added (h : r.kind = .added) :
  changes key [r] = r.payload.changes key
  := congrArg List.sum (parts_congr h rfl)

/-- A record that leaves the chain takes back what its payload does. -/
theorem changes_of_dropped (h : r.kind = .dropped) :
  changes key [r] = -r.payload.changes key
  := by
  have hparts : parts key [r] = (parts key [⟨.added, r.payload, ⟨"", 0⟩, 0⟩]).map (-·) :=
    parts_of_dropped rfl h rfl
  rw [changes_eq, hparts]
  exact (List.sum_neg _).symm

end Record

end ChainLedger
