import ChainLedger.Proofs.Cells
import ChainLedger.Proofs.Results

/-!
# Loops that take places

The loops of a batch take the places of a pool: a loop may start when a place is free, and it
keeps its place until it has ended.  Which loop starts next, and which one moves next, is left
open.  On the cells of distinct addresses this makes no difference: each loop ends as it would end
alone with its cell, so all schedules and all numbers of places lead to the same ends and the same
cells.
-/

namespace ChainLedger

open Prog

/-- What is not among the images of a list is the image of none of its entries. -/
theorem ne_of_new {α β : Type} {f : α → β} {a : α} {l : List α} (h : f a ∉ l.map f) {a' : α}
    (ha' : a' ∈ l) :
  f a' ≠ f a
  := by
  intro heq
  apply h
  rw [← heq]
  exact List.mem_map_of_mem ha'

/-- Whether a loop holds a place: it has started and has not ended. -/
def Task.isSeated : Option Task → Bool
  | some (.running _) => true
  | some (.ended _) | none => false

/-- If no loop is running, then no place is taken. -/
theorem countP_isSeated {tasks : List (Option Task)} (h : ∀ p, some (.running p) ∉ tasks) :
  tasks.countP Task.isSeated = 0
  := by
  apply List.countP_eq_zero.mpr
  rintro (_ | (p | e)) ht
  · exact Bool.false_ne_true
  · exact absurd ht (h p)
  · exact Bool.false_ne_true

/-- A step of a pool of some size: a loop that has not started takes a free place, or one that
holds a place makes a move.  A loop that has not started is `none`. -/
inductive Pool.Steps {σ : Type} (A : Address → Surroundings applySignature σ) (policy : Policy)
    (size : Nat) (jobs : List Job) : σ × List (Option Task) → σ × List (Option Task) → Prop
  | start (n : Nat) {s : σ} {tasks : List (Option Task)} {j : Job} (hj : jobs[n]? = some j)
      (ht : tasks[n]? = some none) (hfree : tasks.countP Task.isSeated < max size 1) :
      Steps A policy size jobs (s, tasks) (s, tasks.set n (some (Task.start policy j)))
  | move (n : Nat) {s s' : σ} {tasks : List (Option Task)} {j : Job} {t t' : Task}
      (hj : jobs[n]? = some j) (ht : tasks[n]? = some (some t))
      (hmove : t.Move (A j.delta.key) policy j s s' t') :
      Steps A policy size jobs (s, tasks) (s', tasks.set n (some t'))

/-- All loops have started and run to their ends, and these are the ends. -/
def Pool.Finishes {σ : Type} (A : Address → Surroundings applySignature σ) (policy : Policy)
    (size : Nat) (jobs : List Job) (s : σ) (ends : List (JobEnd Apply.Result)) (s' : σ) : Prop :=
  Relation.ReflTransGen (Pool.Steps A policy size jobs) (s, jobs.map fun _ => none)
    (s', ends.map fun e => some (.ended e))

/-- Jobs of distinct addresses, each with a row of its address. -/
structure Job.Apart (jobs : List Job) : Prop where
  nodup : (jobs.map (·.delta.key)).Nodup
  key : ∀ j ∈ jobs, ∀ row ∈ j.row?, row.key = j.delta.key

/-- The job at a place of the list is the only one of its address. -/
theorem Job.Apart.index_eq {jobs : List Job} (h : Job.Apart jobs) {n m : Nat} {j j' : Job}
    (hj : jobs[n]? = some j) (hj' : jobs[m]? = some j') (hkey : j'.delta.key = j.delta.key) :
  n = m
  := by
  have hn : (jobs.map (·.delta.key))[n]? = some j.delta.key := by simp [hj]
  have hm : (jobs.map (·.delta.key))[m]? = some j.delta.key := by simp [hj', hkey]
  exact (List.getElem?_inj (List.getElem?_eq_some_iff.mp hn).1 h.nodup).mp (hn.trans hm.symm)

namespace Cells

variable {κ Λ : Type} {C : Cells κ Λ} {policy : Policy} {size : Nat} {jobs : List Job}
  {cells cells' : Address → κ}

/-! ### A loop among the others -/

/-- A loop that calls for its own address moves among the others as it moves alone, and leaves
their cells as they are. -/
theorem move_iff {j : Job} {t t' : Task} (h : C.Bound j (cells j.delta.key) t) :
  t.Move (C.Loop j.delta.key) policy j cells cells' t'
    ↔ ∃ x, t.Move C.alone.Loops policy j (cells j.delta.key) x t'
      ∧ cells' = Function.update cells j.delta.key x
  := by
  have hsame : cells = Function.update cells j.delta.key (cells j.delta.key) :=
    (Function.update_eq_self _ _).symm
  constructor
  · intro hmove
    cases hmove with
    | answered hcall =>
        obtain ⟨x, halone, rfl⟩ := (loop_iff h.1.1).mp hcall
        exact ⟨x, .answered halone, rfl⟩
    | stopped hcall =>
        obtain ⟨x, halone, rfl⟩ := (loop_iff h.1.1).mp hcall
        exact ⟨x, .stopped halone, rfl⟩
    | crash => exact ⟨_, .crash, hsame⟩
    | again => exact ⟨_, .again, hsame⟩
    | done => exact ⟨_, .done, hsame⟩
  · rintro ⟨x, hmove, rfl⟩
    cases hmove with
    | answered hcall => exact .answered ((loop_iff h.1.1).mpr ⟨x, hcall, rfl⟩)
    | stopped hcall => exact .stopped ((loop_iff h.1.1).mpr ⟨x, hcall, rfl⟩)
    | crash =>
        rw [← hsame]
        exact .crash
    | again =>
        rw [← hsame]
        exact .again
    | done =>
        rw [← hsame]
        exact .done

/-- A job starts, or makes a move alone with its cell. -/
inductive Onward (C : Cells κ Λ) (policy : Policy) (j : Job) :
    κ × Option Task → κ × Option Task → Prop
  | start (x : κ) : Onward C policy j (x, none) (x, some (Task.start policy j))
  | move {x x' : κ} {t t' : Task} (h : t.Move C.alone.Loops policy j x x' t') :
      Onward C policy j (x, some t) (x', some t')

/-- How far a job has come: it has not started and its cell is as it was, or it has come as far as
it may come alone. -/
def Reached (C : Cells κ Λ) (policy : Policy) (j : Job) (x₀ x : κ) : Option Task → Prop
  | none => x = x₀
  | some t => Task.Path C.alone.Loops policy j (x₀, Task.start policy j) (x, t)

theorem Reached.onward {j : Job} {x₀ x x' : κ} {t t' : Option Task}
    (h : C.Reached policy j x₀ x t) (hon : C.Onward policy j (x, t) (x', t')) :
  C.Reached policy j x₀ x' t'
  := by
  cases hon with
  | start =>
      obtain rfl : x = x₀ := h
      exact .refl
  | @move _ _ t t' hmove =>
      have hpath : Task.Path C.alone.Loops policy j (x₀, Task.start policy j) (x, t) := h
      exact hpath.tail hmove

/-- Something holds of each job, with its cell and what has become of it. -/
structure OfJobs (P : Job → κ → Option Task → Prop) (jobs : List Job)
    (x : (Address → κ) × List (Option Task)) : Prop where
  length : jobs.length = x.2.length
  each : ∀ (n : Nat) (j : Job) (t : Option Task), jobs[n]? = some j → x.2[n]? = some t →
    P j (x.1 j.delta.key) t

/-- Before the first step of a pool no job has started. -/
theorem ofJobs_start {P : Job → κ → Option Task → Prop}
    (h : ∀ j ∈ jobs, P j (cells j.delta.key) none) :
  OfJobs P jobs (cells, jobs.map fun _ => none)
  := by
  constructor
  · exact (List.length_map _).symm
  · intro n j t hj ht
    dsimp only at ht
    rw [List.getElem?_map, hj] at ht
    obtain rfl := Option.some.inj ht
    exact h j (List.mem_of_getElem? hj)

/-- If one job goes on and changes its own cell at most, then what holds of the others still holds
of them. -/
theorem OfJobs.set {P P' : Job → κ → Option Task → Prop} (hjobs : Job.Apart jobs)
    {tasks : List (Option Task)} {n : Nat} {j : Job} {t : Option Task} {x : κ}
    (h : OfJobs P jobs (cells, tasks)) (hj : jobs[n]? = some j) (hP : P' j x t)
    (hothers : ∀ j' x' t', j'.delta.key ≠ j.delta.key → P j' x' t' → P' j' x' t') :
  OfJobs P' jobs (Function.update cells j.delta.key x, tasks.set n t)
  := by
  constructor
  · exact h.length.trans List.length_set.symm
  · intro m j' t' hj' ht'
    dsimp only at ht' ⊢
    by_cases hnm : n = m
    · subst hnm
      obtain rfl := Option.some.inj (hj.symm.trans hj')
      have hlt : n < tasks.length := by
        have hlength : jobs.length = tasks.length := h.length
        rw [← hlength]
        exact (List.getElem?_eq_some_iff.mp hj).1
      rw [List.getElem?_set_self hlt] at ht'
      obtain rfl := Option.some.inj ht'
      rw [Function.update_self]
      exact hP
    · rw [List.getElem?_set_ne hnm] at ht'
      have hkey : j'.delta.key ≠ j.delta.key := fun hkey => hnm (hjobs.index_eq hj hj' hkey)
      rw [Function.update_of_ne hkey]
      exact hothers j' _ t' hkey (h.each m j' t' hj' ht')

/-- What holds of all jobs together: each has come as far as it may come alone, and the cells of
all other addresses are as they were. -/
structure Seated (C : Cells κ Λ) (policy : Policy) (jobs : List Job) (cells₀ : Address → κ)
    (x : (Address → κ) × List (Option Task)) : Prop extends
    OfJobs (fun j => C.Reached policy j (cells₀ j.delta.key)) jobs x where
  others : ∀ key, key ∉ jobs.map (·.delta.key) → x.1 key = cells₀ key

variable {cells₀ : Address → κ} {x y : (Address → κ) × List (Option Task)}

theorem seated_start (cells₀ : Address → κ) :
  C.Seated policy jobs cells₀ (cells₀, jobs.map fun _ => none)
  := by
  constructor
  · exact ofJobs_start fun _ _ => rfl
  · exact fun _ _ => rfl

/-- In a pool whose jobs have come as far as they may alone, a step takes one of them onward as it
goes alone. -/
theorem Seated.onward (hjobs : Job.Apart jobs) (h : C.Seated policy jobs cells₀ x)
    (hstep : Pool.Steps C.Loop policy size jobs x y) :
  ∃ n j t x' t', jobs[n]? = some j ∧ x.2[n]? = some t
    ∧ C.Onward policy j (x.1 j.delta.key, t) (x', t')
    ∧ y = (Function.update x.1 j.delta.key x', x.2.set n t')
  := by
  cases hstep with
  | @start n cells tasks j hj ht _ =>
      refine ⟨n, j, none, _, _, hj, ht, .start _, ?_⟩
      rw [Function.update_eq_self]
  | @move n cells cells' tasks j t t' hj ht hmove =>
      have hpath : Task.Path C.alone.Loops policy j (cells₀ j.delta.key, Task.start policy j)
          (cells j.delta.key, t) := h.each n j (some t) hj ht
      have hbound := bound_of_path (hjobs.key j (List.mem_of_getElem? hj)) hpath
      obtain ⟨x', halone, rfl⟩ := (move_iff hbound).mp hmove
      exact ⟨n, j, some t, x', some t', hj, ht, .move halone, rfl⟩

/-- A step of the pool keeps the jobs apart. -/
theorem Seated.step (hjobs : Job.Apart jobs) (h : C.Seated policy jobs cells₀ x)
    (hstep : Pool.Steps C.Loop policy size jobs x y) :
  C.Seated policy jobs cells₀ y
  := by
  obtain ⟨n, j, t, x', t', hj, ht, hon, rfl⟩ := h.onward hjobs hstep
  have hreached : C.Reached policy j (cells₀ j.delta.key) x' t' := (h.each n j t hj ht).onward hon
  constructor
  · exact h.toOfJobs.set hjobs hj hreached fun _ _ _ _ => id
  · intro key hkey
    have hne : key ≠ j.delta.key := by
      rintro rfl
      exact hkey (List.mem_map_of_mem (List.mem_of_getElem? hj))
    dsimp only
    rw [Function.update_of_ne hne]
    exact h.others key hkey

theorem seated_of_steps (hjobs : Job.Apart jobs)
    (h : Relation.ReflTransGen (Pool.Steps C.Loop policy size jobs)
      (cells, jobs.map fun _ => none) x) :
  C.Seated policy jobs cells x
  := by
  induction h with
  | refl => exact seated_start cells
  | tail _ hstep ih => exact ih.step hjobs hstep

/-! ### All loops -/

/-- Each job comes to its end alone with its cell, and the cells of all other addresses stay as
they are. -/
structure Ended (C : Cells κ Λ) (policy : Policy) (jobs : List Job) (cells : Address → κ)
    (ends : List (JobEnd Apply.Result)) (cells' : Address → κ) : Prop where
  each : List.Forall₂ (fun j e => Task.Path C.alone.Loops policy j
    (cells j.delta.key, Task.start policy j) (cells' j.delta.key, .ended e)) jobs ends
  others : ∀ key, key ∉ jobs.map (·.delta.key) → cells' key = cells key

/-- However the jobs take their places, each ends as it would alone. -/
theorem ended_of_finishes (hjobs : Job.Apart jobs) {ends : List (JobEnd Apply.Result)}
    (h : Pool.Finishes C.Loop policy size jobs cells ends cells') :
  C.Ended policy jobs cells ends cells'
  := by
  have hseated : C.Seated policy jobs cells (cells', ends.map fun e => some (.ended e)) :=
    seated_of_steps hjobs h
  constructor
  · rw [List.forall₂_iff_get]
    have hlength : jobs.length = ends.length := by simpa using hseated.length
    refine ⟨hlength, fun n hj he => ?_⟩
    apply hseated.each n _ (some (.ended ends[n]))
    · simp
    · simp
  · exact hseated.others

/-- There is only one way for all jobs to end. -/
theorem Ended.unique {ends ends' : List (JobEnd Apply.Result)} {cells'' : Address → κ}
    (h : C.Ended policy jobs cells ends cells') (h' : C.Ended policy jobs cells ends' cells'') :
  ends = ends' ∧ cells' = cells''
  := by
  constructor
  · have heach := h.each
    have heach' := h'.each
    clear h h'
    induction heach generalizing ends' with
    | nil =>
        cases heach'
        rfl
    | cons hpath _ ih =>
        cases heach' with
        | cons hpath' hrest =>
            obtain ⟨-, rfl⟩ := path_unique hpath hpath'
            rw [ih hrest]
  · funext key
    by_cases hkey : key ∈ jobs.map (·.delta.key)
    · obtain ⟨j, hj, rfl⟩ := List.mem_map.mp hkey
      obtain ⟨e, -, hpath⟩ := exists_of_forall₂ h.each hj
      obtain ⟨e', -, hpath'⟩ := exists_of_forall₂ h'.each hj
      exact (path_unique hpath hpath').1
    · rw [h.others key hkey, h'.others key hkey]

/-- If each job comes to an end alone with its cell, then all of them do. -/
theorem exists_ended (hnodup : (jobs.map (·.delta.key)).Nodup)
    (h : ∀ j ∈ jobs, ∃ e x, Task.Path C.alone.Loops policy j
      (cells j.delta.key, Task.start policy j) (x, .ended e)) :
  ∃ ends cells', C.Ended policy jobs cells ends cells'
  := by
  induction jobs with
  | nil => exact ⟨[], cells, .nil, fun _ _ => rfl⟩
  | cons j jobs ih =>
      obtain ⟨hnew, hnodup⟩ := List.nodup_cons.mp hnodup
      obtain ⟨ends, cells', hended⟩ := ih hnodup fun j' hj' => h j' (.tail _ hj')
      obtain ⟨e, x, hpath⟩ := h j (.head _)
      have hothers : ∀ j' ∈ jobs, j'.delta.key ≠ j.delta.key := fun _ => ne_of_new hnew
      refine ⟨e :: ends, Function.update cells' j.delta.key x, .cons ?_ ?_, ?_⟩
      · rw [Function.update_self]
        exact hpath
      · refine ((List.forall₂_and_left _ _).mpr ⟨hothers, hended.each⟩).imp ?_
        rintro j' e' ⟨hne, hpath'⟩
        rwa [Function.update_of_ne hne]
      · intro key hkey
        rw [List.map_cons, List.mem_cons, not_or] at hkey
        rw [Function.update_of_ne hkey.1, hended.others key hkey.2]

end Cells

end ChainLedger
