import ChainLedger.Apply
import ChainLedger.Proofs.Execution
import ChainLedger.Proofs.Lookup

/-!
# A store that may lose calls

The rows of a store in memory, whose calls are either served or, in `lossy`
surroundings, lost.  A lost call fails, is late or stops its caller; it has taken its
whole effect or none, and takes none later.
-/

namespace ChainLedger

/-- Rows after a store call, and the store's answer. -/
def StoreCall.on (c : StoreCall) (rows : Table Address Row) :
    Table Address Row × Except Fault (Except StoreError c.Answer) :=
  let (store, r) := MemoryStore.perform { rows } c
  (store.rows, r)

namespace StoreCall

variable {rows : Table Address Row}

@[simp]
theorem on_find (key : Address) :
  (find key).on rows = (rows, .ok (.ok (rows.get? key)))
  := rfl

@[simp]
theorem on_findAll (keys : List Address) :
  (findAll keys).on rows = (rows, .ok (.ok (MemoryStore.select { rows } keys)))
  := rfl

theorem on_remove (key : Address) :
  (remove key).on rows = (rows.erase key, .ok (.ok ()))
  := rfl

theorem on_insert_of_none {row : Row} (h : rows.get? row.key = none) :
  (insert row).on rows = (rows.insert row.key row, .ok (.ok true))
  := by
  simp [on, MemoryStore.perform, h, MemoryStore.put]

theorem on_insert_of_some {row old : Row} (h : rows.get? row.key = some old) :
  (insert row).on rows = (rows, .ok (.ok false))
  := by
  simp [on, MemoryStore.perform, h]

theorem on_update_of_version {row old : Row} {expected : Nat}
    (h : rows.get? row.key = some old) (hversion : old.version = expected) :
  (update row expected).on rows = (rows.insert row.key row, .ok (.ok true))
  := by
  simp [on, MemoryStore.perform, h, hversion, MemoryStore.put]

/-- An update of a row that is not there, or of another version, does nothing. -/
theorem on_update_of_not {row : Row} {expected : Nat}
    (h : ∀ old, rows.get? row.key = some old → old.version ≠ expected) :
  (update row expected).on rows = (rows, .ok (.ok false))
  := by
  rw [on, MemoryStore.perform]
  cases hrow : rows.get? row.key with
  | none => rfl
  | some old => simp [h old hrow]

/-- An insertion makes the row where there is none, or changes nothing. -/
theorem on_insert_cases (row : Row) (rows : Table Address Row) :
  (rows.get? row.key = none ∧ (insert row).on rows = (rows.insert row.key row, .ok (.ok true)))
    ∨ (insert row).on rows = (rows, .ok (.ok false))
  := by
  cases hrow : rows.get? row.key with
  | none => exact .inl ⟨rfl, on_insert_of_none hrow⟩
  | some old => exact .inr (on_insert_of_some hrow)

/-- An update replaces a row of the version expected, or changes nothing. -/
theorem on_update_cases (row : Row) (expected : Nat) (rows : Table Address Row) :
  (∃ old, rows.get? row.key = some old ∧ old.version = expected ∧
      (update row expected).on rows = (rows.insert row.key row, .ok (.ok true)))
    ∨ (update row expected).on rows = (rows, .ok (.ok false))
  := by
  by_cases hold : ∃ old, rows.get? row.key = some old ∧ old.version = expected
  · obtain ⟨old, hrow, hversion⟩ := hold
    exact .inl ⟨old, hrow, hversion, on_update_of_version hrow hversion⟩
  · exact .inr (on_update_of_not fun old hrow hversion => hold ⟨old, hrow, hversion⟩)

theorem on_settle_of_ok {key : Address} {row row' : Row} {expected : Nat}
    (h : rows.get? key = some row) (hversion : row.version = expected)
    (hsettle : row.settle = .ok row') :
  (settle key expected).on rows = (rows.insert key row', .ok (.ok true))
  := by
  simp [on, MemoryStore.perform, h, hversion, hsettle]

theorem on_settle_of_error {key : Address} {row : Row} {expected : Nat} {o : Overflow}
    (h : rows.get? key = some row) (hversion : row.version = expected)
    (hsettle : row.settle = .error o) :
  (settle key expected).on rows = (rows, .error (.overflow o))
  := by
  simp [on, MemoryStore.perform, h, hversion, hsettle]

end StoreCall

/-- The call is not answered: it fails, is late, or stops its caller. -/
def Unanswered {α : Type} (r : Except Fault (Timed α)) : Prop := ∀ a, r ≠ .ok (.answered (.ok a))

/-- How a store call may be answered. -/
inductive StoreAnswers (lossy : Prop) (rows : Table Address Row) (c : StoreCall) :
    Except Fault (Timed c.Answer) → Table Address Row → Prop
  /-- The store serves the call. -/
  | served : StoreAnswers lossy rows c ((c.on rows).2.map .answered) (c.on rows).1
  /-- The call is lost before it takes effect. -/
  | lost (h : lossy) {r : Except Fault (Timed c.Answer)} (hr : Unanswered r) :
      StoreAnswers lossy rows c r rows
  /-- The call is lost after it took effect. -/
  | landed (h : lossy) {r : Except Fault (Timed c.Answer)} (hr : Unanswered r) :
      StoreAnswers lossy rows c r (c.on rows).1

/-- What the caller of a store call makes of the end of the call. -/
def heard {c : StoreCall} (r : Except Fault (Timed c.Answer)) :
    Except Fault (Except StoreError c.Answer) :=
  r.map (·.result c.name)

/-- There is no answer: a store failure or a fault. -/
def Fails {ε α : Type} (r : Except Fault (Except ε α)) : Prop := ∀ a, r ≠ .ok (.ok a)

/-- After a failure, it is enough to go on from the error or the fault. -/
theorem Prog.Follows.of_fails {S : Signature} {ε α β σ : Type} {A : Surroundings S σ}
    {k : Except ε α → Prog S β} {Q : Except Fault β → σ → Prop}
    {r : Except Fault (Except ε α)} {s : σ} (hr : Fails r) (hfault : ∀ f, Q (.error f) s)
    (herror : ∀ e, Ensures A s (k (.error e)) Q) :
  Follows A k Q r s
  := by
  rcases r with f | (e | a)
  · exact hfault f
  · exact herror e
  · exact absurd rfl (hr a)

theorem fails_heard {c : StoreCall} {r : Except Fault (Timed c.Answer)} (h : Unanswered r) :
  Fails (heard r)
  := by
  intro a ha
  rcases r with f | (_ | a') | _
  · cases ha
  · cases ha
  · cases ha
    exact h a rfl
  · cases ha

theorem heard_served (rows : Table Address Row) (c : StoreCall) :
  heard ((c.on rows).2.map .answered) = (c.on rows).2
  := by
  rcases (c.on rows).2 with f | r
  · rfl
  · rfl

/-- What is to be shown after a store call: of the answer of the store, and in lossy
surroundings also of every failure, with the call's effect and without. -/
structure AfterStore (lossy : Prop) (rows : Table Address Row) (c : StoreCall)
    (Q : Except Fault (Except StoreError c.Answer) → Table Address Row → Prop) : Prop where
  served : Q (c.on rows).2 (c.on rows).1
  lost : lossy → ∀ r, Fails r → Q r rows
  landed : lossy → ∀ r, Fails r → Q r (c.on rows).1

/-- What is shown after a store call holds whatever its caller hears. -/
theorem AfterStore.of_answers {lossy : Prop} {rows rows' : Table Address Row} {c : StoreCall}
    {Q : Except Fault (Except StoreError c.Answer) → Table Address Row → Prop}
    (h : AfterStore lossy rows c Q) {r : Except Fault (Timed c.Answer)}
    (hr : StoreAnswers lossy rows c r rows') :
  Q (heard r) rows'
  := by
  cases hr with
  | served =>
      rw [heard_served]
      apply h.served
  | lost hlossy hr => apply h.lost hlossy _ (fails_heard hr)
  | landed hlossy hr => apply h.landed hlossy _ (fails_heard hr)

/-- After a call that changes nothing, a failure is the same with the effect and without. -/
theorem AfterStore.of_read {lossy : Prop} {rows : Table Address Row} {c : StoreCall}
    {a : c.Answer} {Q : Except Fault (Except StoreError c.Answer) → Table Address Row → Prop}
    (hc : c.on rows = (rows, .ok (.ok a))) (hserved : Q (.ok (.ok a)) rows)
    (hlost : lossy → ∀ r, Fails r → Q r rows) :
  AfterStore lossy rows c Q
  := by
  constructor
  · rw [hc]
    exact hserved
  · exact hlost
  · rw [hc]
    exact hlost

end ChainLedger
