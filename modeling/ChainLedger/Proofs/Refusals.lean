import ChainLedger.Proofs.Budgets

/-!
# Loops that never end

A loop makes no more calls than its budgets pay for, but for the insertions that are refused.
So a loop that never ends is refused without end.  There are such loops, under every policy:
those that find no row whenever they read, and are told that there is one whenever they make it.
-/

namespace ChainLedger

open Prog Transcript

variable {policy : Policy} {d : Delta} {row? : Option Row} {j : Job}
  {f : Nat → Transcript applySignature × Task}

/-! ### Endless runs -/

/-- A run of a loop that never ends: what it has heard, and what is left of it, after every
number of moves. -/
structure Endless (policy : Policy) (d : Delta) (row? : Option Row)
    (f : Nat → Transcript applySignature × Task) : Prop where
  start : f 0 = ([], Task.start policy ⟨d, row?⟩)
  move : ∀ n, Task.Move transcribed policy ⟨d, row?⟩ (f n).1 (f n).2 (f (n + 1)).1 (f (n + 1)).2

/-- How many turns are about to start: one when a turn is over and another one follows. -/
def Task.turning : Task → Nat
  | .running (.done (.again _)) => 1
  | _ => 0

theorem Task.turning_le (task : Task) :
  task.turning ≤ 1
  := by
  unfold turning
  split
  · exact Nat.le_refl 1
  · exact Nat.zero_le 1

/-- Every turn that does not end the loop starts with a call. -/
theorem Apply.turning_turn (s : State) :
  Task.turning (.running (turn policy d s)) = 0
  := by
  rw [turn]
  cases s.seen with
  | none => rfl
  | some row? =>
      cases row? with
      | none => rfl
      | some row =>
          dsimp only [Standing.of]
          by_cases hopen : row.settled ∨ row.SameOrigin d.source
          · simp only [hopen, if_true]
            split
            · rfl
            · rw [replace]
              cases row.apply d with
              | error o => rfl
              | ok row' => rfl
          · simp only [hopen, if_false]
            rw [contend]
            split
            · rfl
            · rfl

/-- A move that does not end the loop is a call, or starts a turn. -/
theorem Task.Move.turning_lt {t t' : Transcript applySignature} {task task' : Task}
    (h : Task.Move transcribed policy j t task t' task') (hrunning : ∀ e, task' ≠ .ended e) :
  2 * t.length + task'.turning < 2 * t'.length + task.turning
  := by
  cases h with
  | @answered _ c next a hcall =>
      cases hcall
      have hturning := Task.turning_le (.running (next a))
      rw [List.length_append, List.length_singleton]
      omega
  | again =>
      rw [Apply.turning_turn]
      exact Nat.lt_succ_self _
  | stopped hcall => exact absurd rfl (hrunning _)
  | crash => exact absurd rfl (hrunning _)
  | done => exact absurd rfl (hrunning _)

namespace Endless

/-- The loop gets to all that the run is made of. -/
theorem path (h : Endless policy d row? f) (n : Nat) :
  Task.Path transcribed policy ⟨d, row?⟩ ([], Task.start policy ⟨d, row?⟩) (f n)
  := by
  induction n with
  | zero =>
      rw [h.start]
      exact .refl
  | succ n ih => exact ih.tail (h.move n)

theorem not_ended (h : Endless policy d row? f) (n : Nat) (e : JobEnd Apply.Result) :
  (f n).2 ≠ .ended e
  := by
  intro he
  have hmove := h.move n
  rw [he] at hmove
  cases hmove

/-- At least every other move is a call. -/
theorem le_length (h : Endless policy d row? f) (n : Nat) :
  n + (f n).2.turning ≤ 2 * (f n).1.length
  := by
  induction n with
  | zero =>
      rw [h.start]
      rw [Task.start, Apply.turning_turn]
      exact Nat.le_refl 0
  | succ n ih =>
      have hmove := (h.move n).turning_lt (h.not_ended _)
      omega

/-- An endless run has calls without end. -/
theorem lt_length (h : Endless policy d row? f) (b : Nat) :
  b < (f (2 * b + 1)).1.length
  := by
  have hlength := h.le_length (2 * b + 1)
  omega

end Endless

/-! ### The bound -/

theorem Transcript.Paid.length_le_of_refusals {t : Transcript applySignature}
    (h : t.Paid policy) :
  t.length ≤ 3 * (policy.attempts + policy.conflicts + refusals t) + 2
  := by
  obtain ⟨hreloads, hlength⟩ := h
  omega

/-- Whatever a loop hears, it reads its row again no more often than it may use up attempts and
lose conflicts, and has been refused, and the number of its calls is bounded by these three
alone.  If it never ends, then it is refused without end. -/
theorem Apply.bounded_but_for_refusals (policy : Policy) (d : Delta) (row? : Option Row) :
  (∀ t task, Task.Path transcribed policy ⟨d, row?⟩ ([], Task.start policy ⟨d, row?⟩) (t, task) →
      reloads t ≤ policy.attempts + policy.conflicts + refusals t ∧
      t.length ≤ 3 * (policy.attempts + policy.conflicts + refusals t) + 2) ∧
    ∀ f, Endless policy d row? f → ∀ b, ∃ n, b < refusals (f n).1
  := by
  constructor
  · intro t task h
    exact ⟨h.paid.reloads_le, h.paid.length_le_of_refusals⟩
  · intro f h b
    let n := 2 * (3 * (policy.attempts + policy.conflicts + b) + 2) + 1
    have hmany : 3 * (policy.attempts + policy.conflicts + b) + 2 < (f n).1.length := h.lt_length _
    have hfew := (h.path n).paid.length_le_of_refusals
    exact ⟨n, by omega⟩

/-! ### A loop that is always refused -/

/-- What is heard first, has no influence on a move. -/
theorem Task.Move.after {t t' : Transcript applySignature} {task task' : Task}
    (front : Transcript applySignature) (h : Task.Move transcribed policy j t task t' task') :
  Task.Move transcribed policy j (front ++ t) task (front ++ t') task'
  := by
  cases h with
  | answered hcall => exact .answered (hcall ▸ (List.append_assoc ..).symm)
  | stopped hcall => exact .stopped (hcall ▸ (List.append_assoc ..).symm)
  | crash => exact .crash
  | again => exact .again
  | done => exact .done

/-- The loop is told that there is a row. -/
def refusal (policy : Policy) (d : Delta) : Exchange applySignature :=
  ⟨.store (.insert (Row.ofDelta d)) policy.deadline, .ok (.answered (.ok false))⟩

/-- The loop finds no row. -/
def absence (policy : Policy) (d : Delta) : Exchange applySignature :=
  ⟨.store (.find d.key) policy.deadline, .ok (.answered (.ok none))⟩

/-- A loop that finds no row whenever it reads, and is refused whenever it makes one. -/
def refused (policy : Policy) (d : Delta) : Nat → Transcript applySignature × Task
  | 0 => ([], .running (Apply.turn policy d (.start none)))
  | 1 => ([refusal policy d], .running (.done (.again { seen := none })))
  | 2 => ([refusal policy d], .running (Apply.turn policy d { seen := none }))
  | 3 => ([refusal policy d, absence policy d], .running (.done (.again (.start none))))
  | n + 4 => ([refusal policy d, absence policy d] ++ (refused policy d n).1, (refused policy d n).2)

theorem move_refused (policy : Policy) (d : Delta) : ∀ n,
  Task.Move transcribed policy ⟨d, none⟩ (refused policy d n).1 (refused policy d n).2
    (refused policy d (n + 1)).1 (refused policy d (n + 1)).2
  | 0 => .answered (c := .store (.insert (Row.ofDelta d)) policy.deadline)
      (a := .answered (.ok false)) rfl
  | 1 => .again
  | 2 => .answered (c := .store (.find d.key) policy.deadline) (a := .answered (.ok none)) rfl
  | 3 => .again
  | n + 4 => (move_refused policy d n).after _

theorem endless_refused (policy : Policy) (d : Delta) :
  Endless policy d none (refused policy d)
  := ⟨rfl, move_refused policy d⟩

namespace Batch

/-- A loop that is always refused has calls without end, and refusals without end. -/
theorem refused_bounded_but_for_refusals :
  Endless hasty credit none (refused hasty credit) ∧
    (∀ n, (refused hasty credit n).1.length
        ≤ 3 * (1 + 100 + refusals (refused hasty credit n).1) + 2) ∧
    ∀ b, ∃ n, b < refusals (refused hasty credit n).1
  := by
  have hendless := endless_refused hasty credit
  obtain ⟨hbounded, hunbounded⟩ := Apply.bounded_but_for_refusals hasty credit none
  exact ⟨hendless, fun n => (hbounded _ _ (hendless.path n)).2, hunbounded _ hendless⟩

/-- The calls of a loop are not bounded by the attempts and conflicts alone: one that is always
refused exceeds every bound. -/
theorem loops_unbounded :
  ¬ ∃ bound : Nat → Nat → Nat, ∀ policy d row? t task,
    Task.Path transcribed policy ⟨d, row?⟩ ([], Task.start policy ⟨d, row?⟩) (t, task) →
      t.length ≤ bound policy.attempts policy.conflicts
  := by
  rintro ⟨bound, hbound⟩
  have hendless := endless_refused hasty credit
  have hlength := hbound _ _ _ _ _ (hendless.path (2 * bound 1 100 + 1))
  exact Nat.not_le_of_lt (hendless.lt_length _) hlength

end Batch

end ChainLedger
