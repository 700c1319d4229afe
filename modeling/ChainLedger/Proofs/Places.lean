import ChainLedger.Proofs.Timetable
import Mathlib.Algebra.GroupWithZero.Nat
import Mathlib.Algebra.Order.BigOperators.Group.List
import Mathlib.Algebra.Order.Group.Nat
import Mathlib.Logic.Relation

/-!
# The places of a pool

The steps of a pool at work on jobs that each sleep for a while and then end, whichever order the
jobs that are due move in.  The steps run out.  They are the same for a pool that starts later, so
a pool whose places are all free runs the next list of jobs as one that has run none.
-/

namespace ChainLedger

namespace Pool

/-- A job takes the same time whenever it runs. -/
theorem Nap.move_eq {α : Type} (now now' : Nat) (t : Nap α) :
  Nap.move () now t = Nap.move () now' t
  := by
  cases t <;> rfl

/-- A place held by a job that goes on some time later. -/
def Slot.delayed {τ : Type} (d : Nat) (x : Slot τ) : Slot τ := { x with due := x.due + d }

namespace Schedule

variable {α τ : Type} {size : Nat}

/-! ### Steps -/

/-- One step of a pool at work: a job that is due moves, the first of those that wait takes a free
place, or time passes until the next job is due.  Which job moves first, and whether one moves
before another takes its place, is left open.  The order of those that wait is not: a place goes to
the one that has asked first, and the jobs are taken to ask in list order. -/
inductive Next (size : Nat) :
    Schedule (Nap α) (JobEnd α) → Schedule (Nap α) (JobEnd α) → Prop
  /-- A job that is due moves. -/
  | move {s : Schedule (Nap α) (JobEnd α)} {before after : List (Slot (Nap α))}
      {x : Slot (Nap α)} (hrunning : s.running = before ++ x :: after) (hdue : x.due ≤ s.now) :
      Next size s (s.settle before x after (Nap.move () s.now x.task).2)
  /-- The first job that waits takes a free place. -/
  | seat {s : Schedule (Nap α) (JobEnd α)} {i : Nat} {t : Nap α} {rest : List (Nat × Nap α)}
      (hwaiting : s.waiting = (i, t) :: rest) (hfree : s.running.length < max size 1) :
      Next size s { s with
        waiting := rest
        running := s.running ++ [⟨i, s.now, t⟩]
        peak := max s.peak (s.running ++ [Slot.mk i s.now t]).length }
  /-- Time passes: nobody is due, and no place is free or nobody waits. -/
  | pass {s : Schedule (Nap α) (JobEnd α)} (hrunning : s.running ≠ [])
      (hdue : ∀ x ∈ s.running, s.now < x.due)
      (hfull : s.waiting = [] ∨ max size 1 ≤ s.running.length) :
      Next size s { s with now := s.nextDue }

/-- Some steps of a pool at work. -/
abbrev Steps (size : Nat) :
    Schedule (Nap α) (JobEnd α) → Schedule (Nap α) (JobEnd α) → Prop :=
  Relation.ReflTransGen (Next size)

/-- The first job that is due, and those before and after it. -/
theorem splitDue_eq_some {now : Nat} {l before after : List (Slot τ)} {x : Slot τ}
    (h : splitDue now l = some (before, x, after)) :
  l = before ++ x :: after ∧ x.due ≤ now
  := by
  induction l generalizing before with
  | nil => cases h
  | cons y l ih =>
      rw [splitDue] at h
      split at h
      · next hdue =>
          cases h
          exact ⟨rfl, hdue⟩
      · obtain ⟨⟨before', x', after'⟩, hsplit, heq⟩ := Option.map_eq_some_iff.mp h
        cases heq
        obtain ⟨rfl, hdue⟩ := ih hsplit
        exact ⟨rfl, hdue⟩

theorem splitDue_eq_none {now : Nat} {l : List (Slot τ)} (h : splitDue now l = none) :
  ∀ x ∈ l, now < x.due
  := by
  induction l with
  | nil => exact fun x hx => absurd hx List.not_mem_nil
  | cons y l ih =>
      rw [splitDue] at h
      split at h
      · cases h
      · next hdue =>
          rw [Option.map_eq_none_iff] at h
          exact List.forall_mem_cons.mpr ⟨Nat.lt_of_not_le hdue, ih h⟩

theorem foldl_min (l : List (Slot τ)) (t : Nat) :
  (l.foldl (fun t x => min t x.due) t = t ∨
      ∃ x ∈ l, x.due = l.foldl (fun t x => min t x.due) t) ∧
    l.foldl (fun t x => min t x.due) t ≤ t ∧
    ∀ x ∈ l, l.foldl (fun t x => min t x.due) t ≤ x.due
  := by
  induction l generalizing t with
  | nil => exact ⟨.inl rfl, Nat.le_refl t, fun x hx => absurd hx List.not_mem_nil⟩
  | cons y l ih =>
      obtain ⟨hfound, hle, hall⟩ := ih (min t y.due)
      rw [List.foldl_cons, List.forall_mem_cons]
      refine ⟨?_, by omega, by omega, hall⟩
      rcases hfound with heq | ⟨x, hx, heq⟩
      · by_cases hty : t ≤ y.due
        · exact .inl (by omega)
        · exact .inr ⟨y, List.mem_cons_self, by omega⟩
      · exact .inr ⟨x, List.mem_cons_of_mem y hx, heq⟩

/-- The next time at which a job is due is the time of one of them, and not after any. -/
theorem nextDue_spec {β : Type} {s : Schedule τ β} (h : s.running ≠ []) :
  (∃ x ∈ s.running, x.due = s.nextDue) ∧ ∀ x ∈ s.running, s.nextDue ≤ x.due
  := by
  cases hrunning : s.running with
  | nil => exact absurd hrunning h
  | cons y l =>
      obtain ⟨hfound, hle, hall⟩ := foldl_min l y.due
      rw [nextDue, hrunning, List.forall_mem_cons]
      refine ⟨?_, hle, hall⟩
      rcases hfound with heq | ⟨x, hx, heq⟩
      · exact ⟨y, List.mem_cons_self, heq.symm⟩
      · exact ⟨x, List.mem_cons_of_mem y hx, heq⟩

theorem isDone_iff {β : Type} {s : Schedule τ β} :
  s.isDone = true ↔ s.waiting = [] ∧ s.running = []
  := by
  rw [isDone, Bool.and_eq_true, List.isEmpty_iff, List.isEmpty_iff]

/-- The step that a pool takes, as long as not all jobs have ended, is one of its steps. -/
theorem next_step {s : Schedule (Nap α) (JobEnd α)} (h : s.isDone = false) :
  Next size s (step size Nap.move () s).2
  := by
  have hplace : 0 < max size 1 := by omega
  have hopen : s.waiting = [] → s.running ≠ [] := by
    intro hwaiting hrunning
    rw [isDone_iff.mpr ⟨hwaiting, hrunning⟩] at h
    cases h
  rw [step]
  split
  · next before x after hsplit =>
      obtain ⟨hrunning, hdue⟩ := splitDue_eq_some hsplit
      exact .move hrunning hdue
  · next hsplit =>
      have hdue := splitDue_eq_none hsplit
      split
      · next i t rest hwaiting =>
          split
          · next hfree => exact .seat hwaiting hfree
          · next hfull =>
              have hrunning : s.running ≠ [] := by
                intro hnil
                rw [hnil] at hfull
                exact hfull hplace
              exact .pass hrunning hdue (.inr (Nat.le_of_not_lt hfull))
      · next hwaiting => exact .pass (hopen hwaiting) hdue (.inl hwaiting)

/-! ### The steps run out -/

/-- How many more steps a job in its place takes part in at most: its moves, and the passing of
time up to each of them. -/
def awaited (now : Nat) (x : Slot (Nap α)) : Nat :=
  (match x.task with
    | .fresh _ => 2
    | .rested _ => 0) + if now < x.due then 2 else 1

/-- How many steps the pool still takes at most. -/
def left (s : Schedule (Nap α) (JobEnd α)) : Nat :=
  4 * s.waiting.length + (s.running.map (awaited s.now)).sum

theorem awaited_pos (now : Nat) (x : Slot (Nap α)) :
  0 < awaited now x
  := by
  rw [awaited]
  apply Nat.add_pos_right
  split
  · exact Nat.two_pos
  · exact Nat.one_pos

theorem awaited_of_lt {now : Nat} {x : Slot (Nap α)} (h : now < x.due) {t : Nat} :
  awaited t x ≤ awaited now x ∧ (x.due = t → awaited t x < awaited now x)
  := by
  rw [awaited, awaited, if_pos h]
  by_cases hlt : t < x.due
  · rw [if_pos hlt]
    exact ⟨Nat.le_refl _, fun heq => absurd heq (Nat.ne_of_gt hlt)⟩
  · rw [if_neg hlt]
    omega

theorem left_settle {s : Schedule (Nap α) (JobEnd α)} {before after : List (Slot (Nap α))}
    {x : Slot (Nap α)} (hrunning : s.running = before ++ x :: after) (hdue : x.due ≤ s.now) :
  (s.settle before x after (Nap.move () s.now x.task).2).left < s.left
  := by
  obtain ⟨i, due, task⟩ := x
  cases task with
  | fresh job =>
      have hsleeps : awaited s.now ⟨i, s.now + job.ms, .rested job⟩
          < awaited s.now ⟨i, due, .fresh job⟩ := by
        simp only [awaited, if_neg (Nat.not_lt_of_le hdue)]
        split <;> omega
      by_cases hms : job.ms = 0
      · simp only [Nap.move, settle, if_pos hms, left, hrunning, List.map_append, List.map_cons,
          List.sum_append, List.sum_cons]
        omega
      · simp only [Nap.move, settle, if_neg hms, left, hrunning, List.map_append, List.map_cons,
          List.map_nil, List.sum_append, List.sum_cons, List.sum_nil]
        omega
  | rested job =>
      have hends := awaited_pos s.now ⟨i, due, .rested job⟩
      simp only [Nap.move, settle, left, hrunning, List.map_append, List.map_cons,
        List.sum_append, List.sum_cons]
      omega

/-- Each step leaves fewer steps. -/
theorem left_lt {s s' : Schedule (Nap α) (JobEnd α)} (h : Next size s s') :
  s'.left < s.left
  := by
  cases h with
  | move hrunning hdue => exact left_settle hrunning hdue
  | @seat i t rest hwaiting hfree =>
      have hseat : awaited s.now ⟨i, s.now, t⟩ < 4 := by
        rw [awaited, if_neg (Nat.lt_irrefl s.now)]
        split <;> omega
      simp only [left, hwaiting, List.length_cons, List.map_append, List.map_cons, List.map_nil,
        List.sum_append, List.sum_cons, List.sum_nil]
      omega
  | pass hrunning hdue hfull =>
      obtain ⟨⟨x, hx, hnext⟩, -⟩ := nextDue_spec hrunning
      have hlt : (s.running.map (awaited s.nextDue)).sum < (s.running.map (awaited s.now)).sum :=
        List.sum_lt_sum _ _ (fun y hy => (awaited_of_lt (hdue y hy)).1)
          ⟨x, hx, (awaited_of_lt (hdue x hx)).2 hnext⟩
      simp only [left]
      omega

/-- A pool cannot go on for ever. -/
theorem not_endless (f : Nat → Schedule (Nap α) (JobEnd α)) :
  ¬ ∀ n, Next size (f n) (f (n + 1))
  := by
  intro h
  have hleft : ∀ n, (f n).left + n ≤ (f 0).left := by
    intro n
    induction n with
    | zero => exact Nat.le_refl _
    | succ n ih =>
        have hlt := left_lt (h n)
        omega
  have hlast := hleft ((f 0).left + 1)
  omega

theorem isDone_of_left {s : Schedule (Nap α) (JobEnd α)} (h : s.left = 0) :
  s.isDone = true
  := by
  rw [left, Nat.add_eq_zero_iff, List.sum_eq_zero_iff] at h
  obtain ⟨hwaiting, hrunning⟩ := h
  refine isDone_iff.mpr ⟨List.length_eq_zero_iff.mp (by omega), ?_⟩
  apply List.eq_nil_iff_forall_not_mem.mpr
  intro x hx
  have hzero := hrunning _ (List.mem_map_of_mem hx)
  have hpos := awaited_pos s.now x
  omega

/-- A pool runs by its steps, and with as many of them as are left, all jobs end. -/
theorem steps_run (size n : Nat) (s : Schedule (Nap α) (JobEnd α)) :
  Steps size s (run size Nap.move n () s).2
    ∧ (s.left ≤ n → (run size Nap.move n () s).2.isDone = true)
  := by
  induction n generalizing s with
  | zero => exact ⟨.refl, fun hleft => isDone_of_left (Nat.le_zero.mp hleft)⟩
  | succ n ih =>
      rw [run]
      cases hdone : s.isDone with
      | true => exact ⟨.refl, fun _ => hdone⟩
      | false =>
          have hnext : Next size s (step size Nap.move () s).2 := next_step hdone
          obtain ⟨hsteps, hend⟩ := ih (step size Nap.move () s).2
          have hlt := left_lt hnext
          exact ⟨.head hnext hsteps, fun hleft => hend (by omega)⟩

/-! ### Later runs -/

/-- The pool, handed another list of jobs.  The places that are held stay held. -/
def resume {β : Type} (s : Schedule τ β) (tasks : List τ) : Schedule τ β :=
  { s with waiting := tasks.zipIdx.map fun t => (t.2, t.1), ended := [], peak := 0 }

/-- The pool as it would be if all had happened some time later. -/
def delayed {β : Type} (d : Nat) (s : Schedule τ β) : Schedule τ β :=
  { s with
    now := s.now + d
    running := s.running.map (Slot.delayed d) }

theorem resume_eq {β : Type} {s : Schedule τ β} (h : s.running = []) (tasks : List τ) :
  s.resume tasks = (start 0 tasks).delayed s.now
  := by
  simp only [resume, delayed, start, h, List.map_nil, Nat.zero_add]

theorem nextDue_delayed {β : Type} (d : Nat) {s : Schedule τ β} (h : s.running ≠ []) :
  (s.delayed d).nextDue = s.nextDue + d
  := by
  obtain ⟨⟨x, hx, hdue⟩, hall⟩ := nextDue_spec h
  have hd : (s.delayed d).running ≠ [] := fun hnil => h (List.map_eq_nil_iff.mp hnil)
  obtain ⟨⟨y', hy', hdue'⟩, hall'⟩ := nextDue_spec hd
  obtain ⟨y, hy, rfl⟩ := List.mem_map.mp hy'
  have hle := hall y hy
  have hle' := hall' _ (List.mem_map_of_mem hx)
  simp only [Slot.delayed] at hdue' hle'
  omega

theorem settle_delayed (d : Nat) (s : Schedule (Nap α) (JobEnd α))
    (before after : List (Slot (Nap α))) (x : Slot (Nap α)) (m : Move (Nap α) (JobEnd α)) :
  (s.settle before x after m).delayed d
    = (s.delayed d).settle (before.map (Slot.delayed d)) (x.delayed d)
        (after.map (Slot.delayed d)) m
  := by
  cases m with
  | go t => simp only [settle, delayed, Slot.delayed, List.map_append, List.map_cons]
  | sleep ms t =>
      by_cases hms : ms = 0
      · simp only [settle, delayed, Slot.delayed, if_pos hms, List.map_append, List.map_cons,
          Nat.add_right_comm s.now ms d]
      · simp only [settle, delayed, Slot.delayed, if_neg hms, List.map_append, List.map_cons,
          List.map_nil, Nat.add_right_comm s.now ms d]
  | stop a => simp only [settle, delayed, Slot.delayed, List.map_append]

/-- A pool takes the same steps later. -/
theorem next_delayed {d : Nat} {s u : Schedule (Nap α) (JobEnd α)} :
  Next size (s.delayed d) u ↔ ∃ s', Next size s s' ∧ u = s'.delayed d
  := by
  constructor
  · intro h
    cases h with
    | move hrunning hdue =>
        obtain ⟨before, rest, hparts, rfl, hrest⟩ := List.map_eq_append_iff.mp hrunning
        obtain ⟨x, after, rfl, rfl, rfl⟩ := List.map_eq_cons_iff.mp hrest
        refine ⟨_, .move hparts (Nat.le_of_add_le_add_right hdue), ?_⟩
        rw [settle_delayed, Nap.move_eq s.now (s.delayed d).now]
        rfl
    | @seat i t rest hwaiting hfree =>
        have hplace : s.running.length < max size 1 := by
          simpa only [delayed, List.length_map] using hfree
        refine ⟨_, .seat hwaiting hplace, ?_⟩
        simp only [delayed, Slot.delayed, List.map_append, List.map_cons, List.map_nil,
          List.length_append, List.length_map, List.length_singleton]
    | pass hrunning hdue hfull =>
        have hsome : s.running ≠ [] := fun hnil => hrunning (List.map_eq_nil_iff.mpr hnil)
        have hlate : ∀ x ∈ s.running, s.now < x.due := fun x hx =>
          Nat.lt_of_add_lt_add_right (hdue _ (List.mem_map_of_mem hx))
        refine ⟨_, .pass hsome hlate ?_, ?_⟩
        · simpa only [delayed, List.length_map] using hfull
        · rw [nextDue_delayed d hsome]
          rfl
  · rintro ⟨s', h, rfl⟩
    cases h with
    | @move before after x hrunning hdue =>
        rw [settle_delayed, Nap.move_eq s.now (s.delayed d).now]
        have hparts : (s.delayed d).running
            = before.map (Slot.delayed d) ++ x.delayed d :: after.map (Slot.delayed d) := by
          rw [delayed, hrunning, List.map_append, List.map_cons]
        exact .move hparts (Nat.add_le_add_right hdue d)
    | @seat i t rest hwaiting hfree =>
        have hplace : (s.delayed d).running.length < max size 1 := by
          simpa only [delayed, List.length_map] using hfree
        have hnext := @Next.seat α size (s.delayed d) i t rest hwaiting hplace
        simpa only [delayed, Slot.delayed, List.map_append, List.map_cons, List.map_nil,
          List.length_append, List.length_map, List.length_singleton] using hnext
    | pass hrunning hdue hfull =>
        have hsome : (s.delayed d).running ≠ [] := fun hnil =>
          hrunning (List.map_eq_nil_iff.mp hnil)
        have hlate : ∀ x ∈ (s.delayed d).running, (s.delayed d).now < x.due := by
          intro x hx
          obtain ⟨y, hy, rfl⟩ := List.mem_map.mp hx
          exact Nat.add_lt_add_right (hdue y hy) d
        have hplaces : s.waiting = [] ∨ max size 1 ≤ (s.delayed d).running.length := by
          simpa only [delayed, List.length_map] using hfull
        have hnext := Next.pass hsome hlate hplaces
        rw [nextDue_delayed d hrunning] at hnext
        exact hnext

theorem steps_delayed {d : Nat} {s u : Schedule (Nap α) (JobEnd α)} :
  Steps size (s.delayed d) u ↔ ∃ s', Steps size s s' ∧ u = s'.delayed d
  := by
  constructor
  · intro h
    induction h with
    | refl => exact ⟨s, .refl, rfl⟩
    | tail _ hnext ih =>
        obtain ⟨s₁, hsteps, rfl⟩ := ih
        obtain ⟨s₂, hstep, rfl⟩ := next_delayed.mp hnext
        exact ⟨s₂, hsteps.tail hstep, rfl⟩
  · rintro ⟨s', h, rfl⟩
    exact h.lift (delayed d) fun a b hnext => next_delayed.mpr ⟨b, hnext, rfl⟩

/-- A pool whose places are free runs another list of jobs as a pool does that has run none. -/
theorem steps_resume {s u : Schedule (Nap α) (JobEnd α)} (h : s.running = [])
    (tasks : List (Nap α)) :
  Steps size (s.resume tasks) u
    ↔ ∃ s', Steps size (.start 0 tasks) s' ∧ u = s'.delayed s.now
  := by
  rw [resume_eq h]
  exact steps_delayed

end Schedule

end Pool

end ChainLedger
