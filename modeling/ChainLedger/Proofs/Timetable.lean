import ChainLedger.Pool
import Mathlib.Data.List.Induction
import Mathlib.Data.Nat.Find

/-!
# Timetables

A timetable tells when each job of a list starts, on a number of places: each at the first time at
which fewer jobs before it hold a place than there are places.  So jobs start in their order, never
more of them hold a place than there are places, and while a job still has to start, all places
are held.
-/

namespace ChainLedger

namespace Pool

variable {α : Type}

/-- A job with the time at which it starts. -/
structure Shift (α : Type) where
  start : Nat
  job : Sleeper α

namespace Shift

/-- The time at which the job ends. -/
def stop (x : Shift α) : Nat := x.start + x.job.ms

/-- The job has started and not ended at a time. -/
def Holds (x : Shift α) (t : Nat) : Prop := x.start ≤ t ∧ t < x.stop

instance (x : Shift α) (t : Nat) : Decidable (x.Holds t) := inferInstanceAs (Decidable (_ ∧ _))

end Shift

/-- How many jobs hold a place at a time. -/
def busy (chart : List (Shift α)) (t : Nat) : Nat := chart.countP (·.Holds t)

/-- Each job starts at the first time at which fewer of those before it hold a place than there
are places. -/
inductive Timetable (places : Nat) : List (Shift α) → Prop
  | nil : Timetable places []
  | concat {chart : List (Shift α)} {x : Shift α} (h : Timetable places chart)
      (hfree : busy chart x.start < places) (hfull : ∀ t < x.start, places ≤ busy chart t) :
      Timetable places (chart ++ [x])

variable {places : Nat} {chart : List (Shift α)} {x : Shift α} {t : Nat}

theorem busy_append (chart more : List (Shift α)) (t : Nat) :
  busy (chart ++ more) t = busy chart t + busy more t
  := List.countP_append

theorem busy_singleton (x : Shift α) (t : Nat) :
  busy [x] t = if x.Holds t then 1 else 0
  := by
  rw [busy, List.countP_singleton]
  simp only [decide_eq_true_eq]

/-- When all jobs have started, the number of those that hold a place no longer grows. -/
theorem busy_le_of_started {t' : Nat} (h : ∀ x ∈ chart, x.start ≤ t) (ht : t ≤ t') :
  busy chart t' ≤ busy chart t
  := by
  apply List.countP_mono_left
  intro x hx hholds
  obtain ⟨-, hstop⟩ := of_decide_eq_true hholds
  exact decide_eq_true ⟨h x hx, Nat.lt_of_le_of_lt ht hstop⟩

namespace Timetable

/-- Where a place is free, all jobs have started. -/
theorem start_le (h : Timetable places chart) (hfree : busy chart t < places) :
  ∀ x ∈ chart, x.start ≤ t
  := by
  induction h with
  | nil => exact fun x hx => absurd hx List.not_mem_nil
  | @concat chart y _ _ hfull ih =>
      rw [busy_append] at hfree
      intro x hx
      rcases List.mem_append.mp hx with hx | hx
      · exact ih (by omega) x hx
      · obtain rfl := List.mem_singleton.mp hx
        by_contra hlt
        have hbusy := hfull t (by omega)
        omega

/-- The jobs start in their order. -/
theorem ordered (h : Timetable places chart) :
  chart.Pairwise fun x y => x.start ≤ y.start
  := by
  induction h with
  | nil => exact .nil
  | concat h hfree _ ih =>
      rw [List.pairwise_append]
      refine ⟨ih, List.pairwise_singleton _ _, fun x hx y hy => ?_⟩
      obtain rfl := List.mem_singleton.mp hy
      exact h.start_le hfree x hx

/-- There are never more jobs at work than places. -/
theorem busy_le (h : Timetable places chart) (t : Nat) :
  busy chart t ≤ places
  := by
  induction h with
  | nil => exact Nat.zero_le places
  | @concat chart x h hfree _ ih =>
      rw [busy_append, busy_singleton]
      split
      · next hholds =>
          have hbusy := busy_le_of_started (h.start_le hfree) hholds.1
          omega
      · exact ih

/-- While a job has still to start, no place is free. -/
theorem full (h : Timetable places chart) (hx : x ∈ chart) (ht : t < x.start) :
  busy chart t = places
  := by
  apply Nat.le_antisymm (h.busy_le t)
  by_contra hfree
  have hstart := h.start_le (Nat.lt_of_not_le hfree) x hx
  omega

/-- A job of a timetable starts at the first time at which a place is free for it. -/
theorem of_append {chart more : List (Shift α)} (h : Timetable places (chart ++ x :: more)) :
  busy chart x.start < places ∧ ∀ t < x.start, places ≤ busy chart t
  := by
  generalize hwhole : chart ++ x :: more = whole at h
  induction h generalizing more with
  | nil => exact absurd hwhole (by simp)
  | @concat whole y _ hfree hfull ih =>
      rcases List.eq_nil_or_concat more with rfl | ⟨rest, z, rfl⟩
      · obtain ⟨rfl, hy⟩ := List.append_inj' hwhole rfl
        obtain rfl := List.singleton_inj.mp hy
        exact ⟨hfree, hfull⟩
      · rw [List.concat_eq_append, ← List.cons_append, ← List.append_assoc] at hwhole
        exact ih (List.append_inj' hwhole rfl).1

end Timetable

/-- At some time all jobs have ended. -/
theorem exists_stop_le (chart : List (Shift α)) :
  ∃ t, ∀ x ∈ chart, x.stop ≤ t
  := by
  induction chart with
  | nil => exact ⟨0, fun x hx => absurd hx List.not_mem_nil⟩
  | cons y chart ih =>
      obtain ⟨t, ht⟩ := ih
      refine ⟨max y.stop t, List.forall_mem_cons.mpr ⟨Nat.le_max_left _ _, fun x hx => ?_⟩⟩
      exact Nat.le_trans (ht x hx) (Nat.le_max_right _ _)

/-- Every list of jobs has a timetable, if there is a place. -/
theorem exists_timetable (hplaces : 0 < places) (jobs : List (Sleeper α)) :
  ∃ chart : List (Shift α), chart.map (·.job) = jobs ∧ Timetable places chart
  := by
  induction jobs using List.reverseRecOn with
  | nil => exact ⟨[], rfl, .nil⟩
  | append_singleton jobs job ih =>
      obtain ⟨chart, rfl, h⟩ := ih
      have hidle : ∃ t, busy chart t < places := by
        obtain ⟨t, ht⟩ := exists_stop_le chart
        refine ⟨t, ?_⟩
        rw [busy, List.countP_eq_zero.mpr]
        · exact hplaces
        · intro x hx hholds
          exact Nat.not_lt_of_le (ht x hx) (of_decide_eq_true hholds).2
      let x : Shift α := ⟨Nat.find hidle, job⟩
      refine ⟨chart ++ [x], ?_, h.concat (Nat.find_spec hidle) fun t ht => ?_⟩
      · rw [List.map_append]
        rfl
      · exact Nat.le_of_not_lt (Nat.find_min hidle ht)

end Pool

end ChainLedger
