import Mathlib.Algebra.GroupWithZero.Nat
import Mathlib.Algebra.Order.BigOperators.Group.List
import Mathlib.Algebra.Order.Group.Nat
import Mathlib.Data.Set.List
import ChainLedger.Proofs.Seating

/-!
# Schedules come to an end

Loops that can each come to an end alone come to their ends in every schedule.  Each step of a pool
takes one loop a step nearer to its end and leaves the others where they are, so the steps run out;
and as long as a loop has not ended there is a step to make, as one that holds a place can move,
and if none holds a place then there is a free one.
-/

namespace ChainLedger

open Prog

/-- Whatever the steps of a pool, they run out, and they do so only when all loops have ended. -/
structure Pool.Terminates {σ : Type} (A : Address → Surroundings applySignature σ) (policy : Policy)
    (size : Nat) (jobs : List Job) (s : σ) : Prop where
  /-- No schedule is endless. -/
  halts : ∀ f : Nat → σ × List (Option Task), f 0 = (s, jobs.map fun _ => none) →
    ¬ ∀ n, Pool.Steps A policy size jobs (f n) (f (n + 1))
  /-- However far the loops have come, they can all come to their ends. -/
  finishes : ∀ x, Relation.ReflTransGen (Pool.Steps A policy size jobs)
    (s, jobs.map fun _ => none) x →
      ∃ (ends : List (JobEnd Apply.Result)) (s' : σ),
        Relation.ReflTransGen (Pool.Steps A policy size jobs) x
          (s', ends.map fun e => some (.ended e))

namespace Cells

variable {κ Λ : Type} {C : Cells κ Λ} {policy : Policy} {size : Nat} {jobs : List Job} {j : Job}
  {cells cells₀ cells' : Address → κ} {x y : (Address → κ) × List (Option Task)}

/-! ### The steps that are left -/

/-- How many steps a job has left. -/
inductive Left (C : Cells κ Λ) (policy : Policy) (j : Job) : κ × Option Task → Nat → Prop
  | ended (x : κ) (e : JobEnd Apply.Result) : Left C policy j (x, some (.ended e)) 0
  | onward {a b : κ × Option Task} {n : Nat} (h : C.Onward policy j a b)
      (hrest : Left C policy j b n) : Left C policy j a (n + 1)

theorem onward_unique {a b b' : κ × Option Task} (h : C.Onward policy j a b)
    (h' : C.Onward policy j a b') :
  b = b'
  := by
  cases h with
  | start =>
      cases h'
      rfl
  | move hmove =>
      cases h' with
      | move hmove' =>
          cases move_unique hmove hmove'
          rfl

/-- A job that goes onward has one step less to go. -/
theorem Left.of_onward {a b : κ × Option Task} {n : Nat} (h : C.Left policy j a n)
    (hon : C.Onward policy j a b) :
  ∃ m, n = m + 1 ∧ C.Left policy j b m
  := by
  cases h with
  | ended x e =>
      cases hon with
      | move hmove => cases hmove
  | onward hon' hrest =>
      obtain rfl := onward_unique hon hon'
      exact ⟨_, rfl, hrest⟩

/-- A job that can come to an end alone has some number of steps left. -/
theorem exists_left {a : κ} {b : κ} {e : JobEnd Apply.Result}
    (h : Task.Path C.alone.Loops policy j (a, Task.start policy j) (b, .ended e)) :
  ∃ n, C.Left policy j (a, none) n
  := by
  have hstarted : ∀ z : κ × Task, Task.Path C.alone.Loops policy j z (b, .ended e) →
      ∃ n, C.Left policy j (z.1, some z.2) n := by
    intro z hpath
    induction hpath using Relation.ReflTransGen.head_induction_on with
    | refl => exact ⟨0, .ended b e⟩
    | head hmove _ ih =>
        obtain ⟨n, hn⟩ := ih
        exact ⟨n + 1, .onward (.move hmove) hn⟩
  obtain ⟨n, hn⟩ := hstarted _ h
  exact ⟨n + 1, .onward (.start a) hn⟩

/-- Every job has as many steps left as is said for its address. -/
abbrev AllLeft (C : Cells κ Λ) (policy : Policy) (jobs : List Job) (left : Address → Nat)
    (x : (Address → κ) × List (Option Task)) : Prop :=
  OfJobs (fun j cell t => C.Left policy j (cell, t) (left j.delta.key)) jobs x

/-- The steps that all jobs together have left. -/
def sumLeft (jobs : List Job) (left : Address → Nat) : Nat :=
  (jobs.map fun j => left j.delta.key).sum

/-- A step of the pool leaves fewer steps. -/
theorem AllLeft.step (hjobs : Job.Apart jobs) {left : Address → Nat}
    (hseated : C.Seated policy jobs cells₀ x) (h : C.AllLeft policy jobs left x)
    (hstep : Pool.Steps C.Loop policy size jobs x y) :
  ∃ left', C.AllLeft policy jobs left' y ∧ sumLeft jobs left' < sumLeft jobs left
  := by
  obtain ⟨n, j, t, x', t', hj, ht, hon, rfl⟩ := hseated.onward hjobs hstep
  obtain ⟨m, hm, hleft⟩ := (h.each n j t hj ht).of_onward hon
  refine ⟨Function.update left j.delta.key m, h.set hjobs hj ?_ ?_, ?_⟩
  · rw [Function.update_self]
    exact hleft
  · intro j' x'' t'' hne hleft'
    rwa [Function.update_of_ne hne]
  · apply List.sum_lt_sum
    · intro j' _
      by_cases hkey : j'.delta.key = j.delta.key
      · rw [hkey, Function.update_self, hm]
        exact Nat.le_succ m
      · rw [Function.update_of_ne hkey]
    · refine ⟨j, List.mem_of_getElem? hj, ?_⟩
      rw [Function.update_self, hm]
      exact Nat.lt_succ_self m

/-! ### The steps that can be made -/

theorem OfJobs.exists_job {P : Job → κ → Option Task → Prop} (h : OfJobs P jobs x) {n : Nat}
    {t : Option Task} (ht : x.2[n]? = some t) :
  ∃ j, jobs[n]? = some j
  := by
  have hlt : n < jobs.length := by
    rw [h.length]
    exact (List.getElem?_eq_some_iff.mp ht).1
  exact ⟨jobs[n], List.getElem?_eq_getElem hlt⟩

/-- A loop that holds a place and can end alone can move. -/
theorem AllLeft.exists_move (hjobs : Job.Apart jobs) {left : Address → Nat}
    (hseated : C.Seated policy jobs cells₀ x) (h : C.AllLeft policy jobs left x) {p : Apply.Step}
    (hp : some (.running p) ∈ x.2) :
  ∃ y, Pool.Steps C.Loop policy size jobs x y
  := by
  obtain ⟨cells, tasks⟩ := x
  obtain ⟨n, ht⟩ := List.mem_iff_getElem?.mp hp
  obtain ⟨j, hj⟩ := h.exists_job ht
  have hleft : C.Left policy j (cells j.delta.key, some (.running p)) (left j.delta.key) :=
    h.each n j _ hj ht
  have hpath : C.Reached policy j (cells₀ j.delta.key) (cells j.delta.key) (some (.running p)) :=
    hseated.each n j _ hj ht
  have hbound := bound_of_path (hjobs.key j (List.mem_of_getElem? hj)) hpath
  -- the number of steps left is no variable, so the cases of a first step need it as one
  generalize left j.delta.key = m at hleft
  cases hleft with
  | onward hon hrest =>
      cases hon with
      | move hmove => exact ⟨_, .move n hj ht ((move_iff hbound).mpr ⟨_, hmove, rfl⟩)⟩

/-- If no loop holds a place, then one that has not started can start. -/
theorem OfJobs.exists_start {P : Job → κ → Option Task → Prop} (h : OfJobs P jobs x)
    (hrunning : ∀ p, some (.running p) ∉ x.2) (hwaiting : none ∈ x.2) :
  ∃ y, Pool.Steps C.Loop policy size jobs x y
  := by
  obtain ⟨cells, tasks⟩ := x
  obtain ⟨n, ht⟩ := List.mem_iff_getElem?.mp hwaiting
  obtain ⟨j, hj⟩ := h.exists_job ht
  refine ⟨_, .start n hj ht ?_⟩
  rw [countP_isSeated hrunning]
  exact Nat.lt_of_lt_of_le Nat.one_pos (Nat.le_max_right size 1)

/-- In a pool all of whose jobs can end alone, there is a step to make until all have ended. -/
theorem AllLeft.progress (hjobs : Job.Apart jobs) {left : Address → Nat}
    (hseated : C.Seated policy jobs cells₀ x) (h : C.AllLeft policy jobs left x) :
  (∃ ends : List (JobEnd Apply.Result), x.2 = ends.map fun e => some (.ended e))
    ∨ ∃ y, Pool.Steps C.Loop policy size jobs x y
  := by
  by_cases hrunning : ∃ p, some (.running p) ∈ x.2
  · obtain ⟨p, hp⟩ := hrunning
    exact .inr (h.exists_move hjobs hseated hp)
  rw [not_exists] at hrunning
  by_cases hwaiting : none ∈ x.2
  · exact .inr (h.exists_start hrunning hwaiting)
  left
  have hended : ∀ t ∈ x.2, ∃ e, some (Task.ended e) = t := by
    rintro (_ | (p | e)) ht
    · exact absurd ht hwaiting
    · exact absurd ht (hrunning p)
    · exact ⟨e, rfl⟩
  have hmap : x.2 ∈ Set.range (List.map fun e => some (Task.ended e)) := by
    rw [Set.range_list_map]
    exact hended
  obtain ⟨ends, hends⟩ := hmap
  exact ⟨ends, hends.symm⟩

/-! ### All schedules -/

/-- If the jobs of a pool can each come to an end alone, then each has some number of steps left
before the first. -/
theorem exists_allLeft (hjobs : Job.Apart jobs) {ends : List (JobEnd Apply.Result)}
    (h : C.Ended policy jobs cells ends cells') :
  ∃ left, C.AllLeft policy jobs left (cells, jobs.map fun _ => none)
  := by
  have heach : ∀ key, ∃ n, ∀ j ∈ jobs, j.delta.key = key → C.Left policy j (cells key, none) n := by
    intro key
    by_cases hkey : ∃ j ∈ jobs, j.delta.key = key
    · obtain ⟨j, hj, rfl⟩ := hkey
      obtain ⟨e, -, hpath⟩ := exists_of_forall₂ h.each hj
      obtain ⟨n, hn⟩ := exists_left hpath
      refine ⟨n, fun j' hj' heq => ?_⟩
      rwa [List.inj_on_of_nodup_map hjobs.nodup hj' hj heq]
    · exact ⟨0, fun j hj heq => absurd ⟨j, hj, heq⟩ hkey⟩
  choose left hleft using heach
  exact ⟨left, ofJobs_start fun j hj => hleft _ j hj rfl⟩

/-- A pool with a number of steps left makes no endless run. -/
theorem AllLeft.halts (hjobs : Job.Apart jobs) {left : Address → Nat}
    (hseated : C.Seated policy jobs cells₀ x) (h : C.AllLeft policy jobs left x)
    (f : Nat → (Address → κ) × List (Option Task)) (hf : f 0 = x) :
  ¬ ∀ n, Pool.Steps C.Loop policy size jobs (f n) (f (n + 1))
  := by
  intro hsteps
  -- an endless run stays endless without its first step, and has fewer steps left
  induction hn : sumLeft jobs left using Nat.strong_induction_on generalizing left x f with
  | _ n ih =>
      subst hf
      obtain ⟨left', hleft', hlt⟩ := h.step hjobs hseated (hsteps 0)
      rw [hn] at hlt
      exact ih _ hlt (hseated.step hjobs (hsteps 0)) hleft' (fun n => f (n + 1)) rfl
        (fun n => hsteps (n + 1)) rfl

/-- A pool with a number of steps left can make them all. -/
theorem AllLeft.finishes (hjobs : Job.Apart jobs) {left : Address → Nat}
    (hseated : C.Seated policy jobs cells₀ x) (h : C.AllLeft policy jobs left x) :
  ∃ (ends : List (JobEnd Apply.Result)) (cells' : Address → κ),
    Relation.ReflTransGen (Pool.Steps C.Loop policy size jobs) x
      (cells', ends.map fun e => some (.ended e))
  := by
  induction hn : sumLeft jobs left using Nat.strong_induction_on generalizing left x with
  | _ n ih =>
      rcases h.progress hjobs hseated with ⟨ends, hends⟩ | ⟨y, hstep⟩
      · refine ⟨ends, x.1, ?_⟩
        rw [← hends]
      · obtain ⟨left', hleft', hlt⟩ := h.step hjobs hseated hstep
        rw [hn] at hlt
        obtain ⟨ends, cells', hrest⟩ := ih _ hlt (hseated.step hjobs hstep) hleft' rfl
        exact ⟨ends, cells', .head hstep hrest⟩

/-- Whatever steps a pool makes, each of its jobs has some number of steps left. -/
theorem AllLeft.of_steps (hjobs : Job.Apart jobs) {left : Address → Nat}
    (h : C.AllLeft policy jobs left (cells, jobs.map fun _ => none))
    (hsteps : Relation.ReflTransGen (Pool.Steps C.Loop policy size jobs)
      (cells, jobs.map fun _ => none) x) :
  ∃ left', C.AllLeft policy jobs left' x
  := by
  induction hsteps with
  | refl => exact ⟨left, h⟩
  | tail hsteps hstep ih =>
      obtain ⟨left', hleft'⟩ := ih
      obtain ⟨left'', hleft'', -⟩ := hleft'.step hjobs (seated_of_steps hjobs hsteps) hstep
      exact ⟨left'', hleft''⟩

/-- If the jobs of a pool can each come to an end alone, then all its schedules come to an end. -/
theorem Ended.terminates (hjobs : Job.Apart jobs) {ends : List (JobEnd Apply.Result)}
    (h : C.Ended policy jobs cells ends cells') (size : Nat) :
  Pool.Terminates C.Loop policy size jobs cells
  := by
  obtain ⟨left, hleft⟩ := exists_allLeft hjobs h
  constructor
  · exact fun f => hleft.halts hjobs (seated_start cells) f
  · intro x hsteps
    obtain ⟨left', hleft'⟩ := hleft.of_steps hjobs hsteps
    exact hleft'.finishes hjobs (seated_of_steps hjobs hsteps)

/-- Jobs that can each be run to an end alone can all be run to these ends, in a pool of any
size. -/
theorem Ended.finishes (hjobs : Job.Apart jobs) {ends : List (JobEnd Apply.Result)}
    (h : C.Ended policy jobs cells ends cells') (size : Nat) :
  Pool.Finishes C.Loop policy size jobs cells ends cells'
  := by
  obtain ⟨ends', cells'', hfinishes⟩ := (h.terminates hjobs size).finishes _ .refl
  obtain ⟨rfl, rfl⟩ := h.unique (ended_of_finishes hjobs hfinishes)
  exact hfinishes

end Cells

end ChainLedger
