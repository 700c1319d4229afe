import ChainLedger.Proofs.Seating

/-!
# The store in memory, address by address

The store in memory keeps a cell for each address: what it answers to a call for an address depends
on the row of this address alone.  So its rows may be spread over tables of their own, one for each
address, and no call can tell.  Over these tables every loop comes to its end.
-/

namespace ChainLedger

open Prog

variable {rows : Table Address Row} {key : Address}

theorem Table.only_insert (rows : Table Address Row) (key : Address) (row : Row) :
  (rows.only key).insert key row = (rows.insert key row).only key
  := by
  apply ext
  intro k
  simp only [get?_insert, get?_only]
  split
  · rfl
  · rfl

theorem Table.only_erase (rows : Table Address Row) (key : Address) :
  (rows.only key).erase key = (rows.erase key).only key
  := by
  apply ext
  intro k
  simp only [get?_erase, get?_only]
  split
  · simp
  · rfl

/-- A row that is not there, or of another version, is not settled. -/
theorem StoreCall.on_settle_of_not {expected : Nat}
    (h : ∀ row, rows.get? key = some row → row.version ≠ expected) :
  (settle key expected).on rows = (rows, .ok (.ok false))
  := by
  rw [on, MemoryStore.perform]
  cases hrow : rows.get? key with
  | none => rfl
  | some row => simp [h row hrow]

/-- A call for one address is answered as if there were no other, and leaves the others alone. -/
theorem StoreCall.on_only_of_address {c : StoreCall} (h : c.address? = some key)
    (rows : Table Address Row) :
  c.on (rows.only key) = ((c.on rows).1.only key, (c.on rows).2)
    ∧ ∀ k ≠ key, (c.on rows).1.get? k = rows.get? k
  := by
  have hcell : (rows.only key).get? key = rows.get? key := by simp
  cases c with
  | findAll keys => cases h
  | find k =>
      have habout : About key (.store (.find k) 0) := Option.some.inj h
      exact on_only habout rows
  | insert row =>
      have habout : About key (.store (.insert row) 0) := Option.some.inj h
      exact on_only habout rows
  | update row expected =>
      have habout : About key (.store (.update row expected) 0) := Option.some.inj h
      exact on_only habout rows
  | remove k =>
      obtain rfl : k = key := Option.some.inj h
      rw [on_remove, on_remove, Table.only_erase]
      refine ⟨rfl, fun k' hk => ?_⟩
      rw [Table.get?_erase, if_neg (Ne.symm hk)]
  | settle k expected =>
      obtain rfl : k = key := Option.some.inj h
      by_cases hold : ∃ old, rows.get? k = some old ∧ old.version = expected
      · obtain ⟨old, hrow, hversion⟩ := hold
        cases hsettle : old.settle with
        | error o =>
            rw [on_settle_of_error hrow hversion hsettle,
              on_settle_of_error (hcell.trans hrow) hversion hsettle]
            exact ⟨rfl, fun _ _ => rfl⟩
        | ok row' =>
            rw [on_settle_of_ok hrow hversion hsettle,
              on_settle_of_ok (hcell.trans hrow) hversion hsettle, Table.only_insert]
            refine ⟨rfl, fun k' hk => ?_⟩
            rw [Table.get?_insert, if_neg hk]
      · have hnot : ∀ row, rows.get? k = some row → row.version ≠ expected :=
          fun row hrow hversion => hold ⟨row, hrow, hversion⟩
        rw [on_settle_of_not hnot, on_settle_of_not (by rwa [hcell])]
        exact ⟨rfl, fun _ _ => rfl⟩

/-- A job also comes as far in surroundings that may answer the same. -/
theorem Task.Path.simulate {σ τ : Type} {A : Surroundings applySignature σ}
    {A' : Surroundings applySignature τ} {Rel : σ → τ → Prop} (hA : Simulates A A' Rel)
    {policy : Policy} {j : Job} {x y : σ × Task} {s : τ} (h : Task.Path A policy j x y)
    (hx : Rel x.1 s) :
  ∃ s', Task.Path A' policy j (s, x.2) (s', y.2) ∧ Rel y.1 s'
  := by
  induction h with
  | refl => exact ⟨s, .refl, hx⟩
  | tail _ hmove ih =>
      obtain ⟨s₁, hpath, hs₁⟩ := ih
      obtain ⟨s', hmove', hs'⟩ := hmove.simulate hA hs₁
      exact ⟨s', hpath.tail hmove', hs'⟩

/-! ### The cells -/

namespace Cells

/-- The table of one address: its rows are stored under their own addresses. -/
abbrev Cell : Type := { rows : Table Address Row // Keyed rows }

/-- The rows of some addresses. -/
def gather (cells : Address → Cell) : List Address → Table Address Row
  | [] => .empty
  | key :: keys => (gather cells keys).put key ((cells key).1.get? key)

theorem get?_gather (cells : Address → Cell) (keys : List Address) (key : Address) :
  (gather cells keys).get? key = if key ∈ keys then (cells key).1.get? key else none
  := by
  induction keys with
  | nil => rfl
  | cons k keys ih =>
      rw [gather, Table.get?_put, ih]
      by_cases hk : key = k
      · simp [hk]
      · simp [hk]

/-- The rows of a store in memory, with a table of its own for each address; the oracle tells the
`positions`, and the log notes the batches acknowledged. -/
def inMemory (positions : Partition → Option Nat) : Cells Cell (List Bounds) where
  store x c := (⟨(c.on x.1).1, StoreCall.keyed_on x.2 c⟩, (c.on x.1).2.map .answered)
  findAll cells keys := (cells, .ok (.answered (.ok (gather cells keys))))
  latestOffset x p := (x, .ok (.ok (positions p)))
  accepting _ := true
  acknowledge log b := (log ++ [b], .ok (.ok ()))
  findAll_congr := by
    intro cells keys keys' hkeys
    have hsame : gather cells keys = gather cells keys' := by
      apply Table.ext
      intro key
      rw [get?_gather, get?_gather]
      exact if_congr (hkeys key) rfl rfl
    rw [hsame]
  key_of_find := by
    intro x x' key row h
    have hfound : Except.ok (Timed.answered (Except.ok (x.1.get? key)))
        = (Except.ok (.answered (.ok (some row))) : Except Fault (Timed (Option Row))) :=
      congrArg (·.2) h
    have hrow : x.1.get? key = some row :=
      Except.ok.inj (Timed.answered.inj (Except.ok.inj hfound))
    exact x.2 key row hrow
  keyed_of_findAll := by
    rintro cells keys _ _ ⟨⟩ key row hrow
    rw [get?_gather] at hrow
    split at hrow
    · exact (cells key).2 key row hrow
    · cases hrow

theorem keyed_only (h : Keyed rows) (key : Address) :
  Keyed (rows.only key)
  := by
  intro k row hrow
  rw [Table.get?_only] at hrow
  split at hrow
  · exact h k row hrow
  · cases hrow

/-- The rows of a store, each put into the table of its address. -/
def spread (rows : Table Address Row) (h : Keyed rows) (key : Address) : Cell :=
  ⟨rows.only key, keyed_only h key⟩

/-- No call can tell the rows spread over tables of their own from the rows in one table. -/
theorem call_inMemory (positions : Partition → Option Nat) (h : Keyed rows) (c : StoreCall) :
  (inMemory positions).call (spread rows h) c
    = (spread (c.on rows).1 (StoreCall.keyed_on h c), (c.on rows).2.map .answered)
  := by
  cases haddress : c.address? with
  | some key =>
      obtain ⟨honly, hothers⟩ := StoreCall.on_only_of_address haddress rows
      rw [call_of_address haddress, serve]
      apply Prod.ext
      · funext k
        apply Subtype.ext
        dsimp only
        by_cases hk : k = key
        · subst hk
          rw [Function.update_self]
          exact congrArg (·.1) honly
        · rw [Function.update_of_ne hk]
          exact (Table.only_congr (hothers k hk)).symm
      · exact congrArg (fun a => a.2.map Timed.answered) honly
  | none =>
      cases c with
      | findAll keys =>
          have hrows : gather (spread rows h) keys = MemoryStore.select { rows } keys := by
            apply Table.ext
            intro key
            rw [get?_gather, MemoryStore.get?_select, spread, Table.get?_only, if_pos rfl]
          exact Prod.ext rfl
            (congrArg (fun rows => Except.ok (Timed.answered (Except.ok rows))) hrows)
      | find => cases haddress
      | insert => cases haddress
      | update => cases haddress
      | remove => cases haddress
      | settle => cases haddress

/-! ### The loops -/

variable {positions : Partition → Option Nat} {policy : Policy}

/-- A loop moves over the table of its address as over any table. -/
theorem simulates_inMemory :
  Simulates (ApplyAnswers False positions) (inMemory positions).alone.Loops
    fun rows x => rows = x.1
  := by
  rintro _ c r _ x h rfl
  cases h with
  | @store _ _ c _ _ h =>
      cases h with
      | served => exact ⟨⟨(c.on x.1).1, StoreCall.keyed_on x.2 c⟩, .store rfl, rfl⟩
      | lost h => exact h.elim
      | landed h => exact h.elim
  | position => exact ⟨x, .latestOffset rfl, rfl⟩
  | unavailable h => exact h.elim
  | waited => exact ⟨x, .waited .., rfl⟩

/-- Every loop comes to its end over the table of its address. -/
theorem exists_path_inMemory (j : Job) (x : Cell) :
  ∃ e y, Task.Path (inMemory positions).alone.Loops policy j (x, Task.start policy j) (y, .ended e)
  := by
  have hpath : ∃ e rows', Task.Path (ApplyAnswers False positions) policy j
      (x.1, Task.start policy j) (rows', .ended e) := Task.exists_path j _ x.1
  obtain ⟨e, rows', hpath⟩ := hpath
  obtain ⟨y, hpath', -⟩ := hpath.simulate simulates_inMemory rfl
  exact ⟨e, y, hpath'⟩

end Cells

end ChainLedger
