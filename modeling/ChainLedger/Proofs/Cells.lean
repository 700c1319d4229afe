import Mathlib.Logic.Function.Basic
import ChainLedger.Proofs.Calls

/-!
# A cell for each address

A store and an oracle whose answers for an address depend on the calls for that address alone keep
a cell for each address: a call reads and changes the cell of its address and no other.  A loop
calls for one address, so it moves in the whole store just as it moves alone with its cell, and
alone there is only one way for it to go.
-/

namespace ChainLedger

open Prog

/-- The address that a store call is about, if it is about a single one. -/
def StoreCall.address? : StoreCall → Option Address
  | find key => some key
  | findAll _ => none
  | insert row => some row.key
  | update row _ => some row.key
  | remove key => some key
  | settle key _ => some key

/-- A store and an oracle that keep a cell for each address, and a log.  What they hold, and when
their calls fail or take effect, is up to them; the rows are in the cells. -/
structure Cells (κ Λ : Type) where
  /-- A store call about one address, by the cell of that address. -/
  store : κ → (c : StoreCall) → κ × Except Fault (Timed c.Answer)
  /-- A store call that reads several rows. -/
  findAll : (Address → κ) → List Address →
    (Address → κ) × Except Fault (Timed (Table Address Row))
  /-- A call of the oracle for an address, by the cell of that address. -/
  latestOffset : κ → Partition → κ × Except Fault (Except OracleError (Option Nat))
  /-- Whether batches are accepted. -/
  accepting : Λ → Bool
  /-- An acknowledgment. -/
  acknowledge : Λ → Bounds → Λ × Except Fault (Except LogError Unit)
  /-- The order in which rows are asked for makes no difference, nor does asking twice. -/
  findAll_congr : ∀ cells keys keys', (∀ key, key ∈ keys ↔ key ∈ keys') →
    findAll cells keys = findAll cells keys'
  /-- A row that is read is that of the address asked for. -/
  key_of_find : ∀ {x x' key row},
    store x (.find key) = (x', .ok (.answered (.ok (some row)))) → row.key = key
  /-- Rows that are read are those of their addresses. -/
  keyed_of_findAll : ∀ {cells keys cells' rows},
    findAll cells keys = (cells', .ok (.answered (.ok rows))) → Keyed rows

/-- What the apply loops and the batch work on: the cells of all addresses, and the log. -/
structure Stand (κ Λ : Type) where
  cells : Address → κ
  log : Λ

namespace Cells

variable {κ Λ : Type} {C : Cells κ Λ} {cells cells' : Address → κ} {key : Address}

/-- A store call about one address, among the cells of all. -/
def serve (C : Cells κ Λ) (key : Address) (cells : Address → κ) (c : StoreCall) :
    (Address → κ) × Except Fault (Timed c.Answer) :=
  (Function.update cells key (C.store (cells key) c).1, (C.store (cells key) c).2)

/-- A store call, among the cells of all addresses. -/
def call (C : Cells κ Λ) (cells : Address → κ) :
    (c : StoreCall) → (Address → κ) × Except Fault (Timed c.Answer)
  | .find key => C.serve key cells (.find key)
  | .findAll keys => C.findAll cells keys
  | .insert row => C.serve row.key cells (.insert row)
  | .update row expected => C.serve row.key cells (.update row expected)
  | .remove key => C.serve key cells (.remove key)
  | .settle key expected => C.serve key cells (.settle key expected)

theorem call_of_address {c : StoreCall} (h : c.address? = some key) (cells : Address → κ) :
  C.call cells c = C.serve key cells c
  := by
  cases c with
  | findAll keys => cases h
  | find => cases h; rfl
  | insert => cases h; rfl
  | update => cases h; rfl
  | remove => cases h; rfl
  | settle => cases h; rfl

/-- How the calls of the loop of an address are answered. -/
inductive Loop (C : Cells κ Λ) (key : Address) : Surroundings applySignature (Address → κ)
  | store {cells cells' : Address → κ} {c : StoreCall} {deadline : Nat}
      {r : Except Fault (Timed c.Answer)} (h : C.call cells c = (cells', r)) :
      Loop C key cells (.store c deadline) r cells'
  | latestOffset {cells : Address → κ} {x : κ} {p : Partition}
      {r : Except Fault (Except OracleError (Option Nat))}
      (h : C.latestOffset (cells key) p = (x, r)) :
      Loop C key cells (.latestOffset p) r (Function.update cells key x)
  | waited (cells : Address → κ) (ms : Nat) : Loop C key cells (.wait ms) (.ok ()) cells

/-- A cell by itself. -/
def alone (C : Cells κ Λ) : Ports κ where
  store _ x c r x' := C.store x c = (x', r)
  latestOffset x p r x' := C.latestOffset x p = (x', r)
  acknowledge _ _ _ _ := False

/-- A call for one address does to the cell of that address what it would do if there were no
other, and nothing to the others. -/
theorem loop_iff {c : ApplyCall} {r : Except Fault (applySignature.Answer c)} (h : About key c) :
  C.Loop key cells c r cells'
    ↔ ∃ x, C.alone.Loops (cells key) c r x ∧ cells' = Function.update cells key x
  := by
  cases c with
  | store c deadline =>
      have haddress : c.address? = some key := by
        cases c with
        | find k => exact congrArg some h
        | insert row => exact congrArg some h
        | update row expected => exact congrArg some h
        | findAll keys => exact h.elim
        | remove k => exact h.elim
        | settle k expected => exact h.elim
      constructor
      · intro hcall
        cases hcall with
        | store hcall =>
            rw [call_of_address haddress] at hcall
            cases hcall
            exact ⟨_, .store rfl, rfl⟩
      · rintro ⟨x, hcall, rfl⟩
        cases hcall with
        | store hcall =>
            apply Loop.store
            rw [call_of_address haddress, serve, show C.store (cells key) c = (x, r) from hcall]
  | latestOffset p =>
      constructor
      · intro hcall
        cases hcall with
        | latestOffset hcall => exact ⟨_, .latestOffset hcall, rfl⟩
      · rintro ⟨x, hcall, rfl⟩
        cases hcall with
        | latestOffset hcall => exact .latestOffset hcall
  | wait ms =>
      constructor
      · rintro ⟨⟩
        exact ⟨cells key, .waited _ _, (Function.update_eq_self key cells).symm⟩
      · rintro ⟨x, ⟨⟩, rfl⟩
        rw [Function.update_eq_self]
        exact .waited _ _

/-! ### A loop alone with its cell -/

variable {policy : Policy} {j : Job} {x x₀ : κ} {t : Task}

/-- A cell has one answer to every call. -/
theorem alone_unique {c : ApplyCall} {r r' : Except Fault (applySignature.Answer c)} {y y' : κ}
    (h : C.alone.Loops x c r y) (h' : C.alone.Loops x c r' y') :
  r = r' ∧ y = y'
  := by
  cases h with
  | store h =>
      cases h' with
      | store h' =>
          cases h.symm.trans h'
          exact ⟨rfl, rfl⟩
  | latestOffset h =>
      cases h' with
      | latestOffset h' =>
          cases h.symm.trans h'
          exact ⟨rfl, rfl⟩
  | waited =>
      cases h'
      exact ⟨rfl, rfl⟩

/-- A loop alone with its cell has at most one move. -/
theorem move_unique {t' t'' : Task} {y y' : κ}
    (h : Task.Move C.alone.Loops policy j x t y t')
    (h' : Task.Move C.alone.Loops policy j x t y' t'') :
  (y, t') = (y', t'')
  := by
  cases h with
  | answered h =>
      cases h' with
      | answered h' =>
          obtain ⟨hr, rfl⟩ := alone_unique h h'
          cases hr
          rfl
      | stopped h' => cases (alone_unique h h').1
  | stopped h =>
      cases h' with
      | answered h' => cases (alone_unique h h').1
      | stopped h' =>
          obtain ⟨-, rfl⟩ := alone_unique h h'
          rfl
  | crash =>
      cases h'
      rfl
  | again =>
      cases h'
      rfl
  | done =>
      cases h'
      rfl

/-- A loop that has ended does not move. -/
theorem path_of_ended {e : JobEnd Apply.Result} {y : κ × Task}
    (h : Task.Path C.alone.Loops policy j (x, .ended e) y) :
  y = (x, .ended e)
  := by
  rcases Relation.ReflTransGen.cases_head h with heq | ⟨z, hmove, -⟩
  · exact heq.symm
  · cases hmove

/-- A loop alone with its cell comes to one end at most. -/
theorem path_unique {start : κ × Task} {y y' : κ} {e e' : JobEnd Apply.Result}
    (h : Task.Path C.alone.Loops policy j start (y, .ended e))
    (h' : Task.Path C.alone.Loops policy j start (y', .ended e')) :
  y = y' ∧ e = e'
  := by
  have hunique : Relator.RightUnique fun a b : κ × Task =>
      Task.Move C.alone.Loops policy j a.1 a.2 b.1 b.2 := fun _ _ _ => move_unique
  have heq : (y, Task.ended e) = (y', Task.ended e') := by
    rcases Relation.ReflTransGen.total_of_right_unique hunique h h' with hrest | hrest
    · exact (path_of_ended hrest).symm
    · exact path_of_ended hrest
  cases heq
  exact ⟨rfl, rfl⟩

/-- What is said of the reads and writes of a loop: they are of its delta's address. -/
def reads (κ : Type) (d : Delta) : Watch κ where
  seen row? _ := ∀ row ∈ row?, row.key = d.key
  sent w? _ := ∀ w ∈ w?, ∃ row', w.Makes d row'
  done w _ := ∃ row', w.Makes d row'

/-- Whatever a write may come to, it is of the delta's address. -/
theorem afterWrite_reads {d : Delta} {w : Write} {row' : Row} (hmakes : w.Makes d row')
    (r : Except Fault (Timed Bool)) (x : κ) :
  (reads κ d).AfterWrite w r x
  := by
  apply Watch.AfterWrite.of
  · exact fun _ => ⟨row', hmakes⟩
  · rintro - _ ⟨⟩
  · rintro - _ ⟨⟩
    exact ⟨row', hmakes⟩

/-- A cell answers with rows of the address asked for, so this is soundly said. -/
theorem sound_reads (C : Cells κ Λ) (d : Delta) :
  (reads κ d).Sound C.alone (fun _ _ => True) d
  := by
  constructor
  · exact fun _ h => h
  · exact fun _ h => h
  · exact fun _ h => h
  · exact fun h => h _ rfl
  · exact fun _ => trivial
  · intro x w? r x' hsent hcall
    apply Watch.AfterRead.of
    · exact fun _ _ w hw _ _ _ => hsent w hw
    · rintro row? rfl -
      refine ⟨?_, ?_⟩
      · rintro _ ⟨⟩
      · rintro row rfl
        exact C.key_of_find hcall
    · exact fun _ => hsent
  · exact fun _ _ _ => afterWrite_reads (Write.makes_insert d) _ _
  · exact fun _ hseen _ hupdated _ =>
      afterWrite_reads (Write.makes_update _ (hseen _ rfl) hupdated) _ _

/-- What holds of a loop alone with its cell: it calls for its own address only. -/
abbrev Bound (C : Cells κ Λ) (j : Job) (x : κ) (t : Task) : Prop :=
  t.Stays C.alone.Loops (fun _ _ => True) j.delta.key (reads κ j.delta).Between
    (fun e x => (reads κ j.delta).Ends j.delta x e) x

/-- A loop whose row is of its address calls for that address only, and ends there. -/
theorem bound_of_path (hkey : ∀ row ∈ j.row?, row.key = j.delta.key) {y : κ × Task}
    (h : Task.Path C.alone.Loops policy j (x₀, Task.start policy j) y) :
  C.Bound j y.1 y.2
  := by
  have hrely : Rely C.alone.Loops fun _ _ _ => True :=
    ⟨trivial, fun _ _ => trivial, fun _ _ _ => trivial⟩
  have hinvariant : Apply.Invariant C.alone.Loops (fun _ _ => True) policy j.delta
      (reads κ j.delta).Between fun e x => (reads κ j.delta).Ends j.delta x e :=
    (C.sound_reads j.delta).invariant
  have hstart : (reads κ j.delta).Between (.start j.row?) x₀ := by
    refine ⟨?_, ?_⟩
    · rintro _ ⟨⟩
    · rintro _ ⟨⟩
      exact ⟨rfl, hkey⟩
  induction h with
  | refl =>
      exact ⟨Apply.uses_turn fun row hseen => hinvariant.key hstart hseen,
        hinvariant.turn hstart⟩
  | tail _ hmove ih => exact (hmove.stays (I := fun j => _) (E := fun j => _) hrely hinvariant ih).1

end Cells

end ChainLedger
