import ChainLedger.Proofs.Places

/-!
# Pools that keep to a timetable

A pool at work keeps to the timetable of its jobs, whatever the jobs are and in whatever order those
that are due move.  The jobs that have begun are the first ones of the timetable, and each of them
has begun at its time; it holds a place until its end, also when others are stopped by a fault.
When all have ended, no place is held, and the results are those of the jobs, in their order.
-/

namespace ChainLedger

namespace Pool

variable {α : Type} {size : Nat}

/-- How the job ends. -/
def Sleeper.outcome (x : Sleeper α) : JobEnd α :=
  if x.fails then .crashed else .finished x.value

/-- A job that holds a place, with its number in the list of all jobs. -/
structure Seat (α : Type) where
  entry : Shift α × Nat
  /-- Whether it has gone to sleep. -/
  asleep : Bool

/-- The place that is held. -/
def Seat.slot : Seat α → Slot (Nap α)
  | ⟨(x, i), false⟩ => ⟨i, x.start, .fresh x.job⟩
  | ⟨(x, i), true⟩ => ⟨i, x.stop, .rested x.job⟩

/-- A job may hold a place at a time: from its start to its end, and it goes to sleep as soon as
it has started. -/
structure Seat.Fits (now : Nat) (y : Seat α) : Prop where
  start_le : y.entry.1.start ≤ now
  le_stop : now ≤ y.entry.1.stop
  awake : y.asleep = false → y.entry.1.start = now

/-- A job that is not due has gone to sleep, until its end. -/
theorem Seat.Fits.asleep {now : Nat} {y : Seat α} (h : y.Fits now) (hdue : now < y.slot.due) :
  y.asleep = true ∧ y.slot.due = y.entry.1.stop
  := by
  obtain ⟨⟨x, i⟩, asleep⟩ := y
  cases asleep with
  | false => exact absurd (h.awake rfl) (Nat.ne_of_gt hdue)
  | true => exact ⟨rfl, rfl⟩

/-- A pool at work as a timetable has it.  Some jobs have begun, and of those some hold a place and
the others are over; the other jobs are ahead. -/
structure Follows (size : Nat) (begun ahead : List (Shift α)) (seats : List (Seat α))
    (past : List (Shift α × Nat)) (s : Schedule (Nap α) (JobEnd α)) : Prop where
  waiting : s.waiting = (ahead.zipIdx begun.length).map fun x => (x.2, .fresh x.1.job)
  running : s.running = seats.map Seat.slot
  ended : s.ended = past.map fun x => (x.2, x.1.job.outcome)
  /-- Each job that has begun holds one place or is over once. -/
  parts : (seats.map Seat.entry ++ past).Perm begun.zipIdx
  fits : ∀ y ∈ seats, y.Fits s.now
  stop_le : ∀ x ∈ past, x.1.stop ≤ s.now
  now_le : ∀ x ∈ ahead, s.now ≤ x.start
  /-- No more places were ever held than there are. -/
  running_le : s.running.length ≤ max size 1
  peak_le : s.peak ≤ max size 1
  /-- Time passes only up to the end of a job. -/
  now_eq : s.now = 0 ∨ ∃ x ∈ begun, x.stop = s.now

namespace Follows

variable {begun ahead : List (Shift α)} {seats : List (Seat α)} {past : List (Shift α × Nat)}
  {s s' : Schedule (Nap α) (JobEnd α)}

/-! ### Places held -/

/-- Those at work at a time are among those that hold a place and those that are over. -/
theorem busy_eq (h : Follows size begun ahead seats past s) (t : Nat) :
  busy begun t = seats.countP (·.entry.1.Holds t) + past.countP (·.1.Holds t)
  := by
  have hfirst : begun.zipIdx.countP (·.1.Holds t) = busy begun t := by
    conv_rhs => rw [busy, ← List.zipIdx_map_fst 0 begun, List.countP_map]
    rfl
  rw [← hfirst, ← h.parts.countP_eq, List.countP_append, List.countP_map]
  rfl

/-- No more of the jobs that have begun are at work now than hold a place. -/
theorem busy_le_running (h : Follows size begun ahead seats past s) :
  busy begun s.now ≤ s.running.length
  := by
  have hpast : past.countP (·.1.Holds s.now) = 0 := by
    apply List.countP_eq_zero.mpr
    intro x hx hholds
    exact Nat.not_lt_of_le (h.stop_le x hx) (of_decide_eq_true hholds).2
  rw [h.busy_eq, hpast, h.running, List.length_map]
  exact List.countP_le_length

/-- As long as none of those that hold a place is due, they all are at work. -/
theorem running_le_busy (h : Follows size begun ahead seats past s)
    (hdue : ∀ x ∈ s.running, s.now < x.due) {t : Nat} (ht : s.now ≤ t)
    (hbefore : ∀ x ∈ s.running, t < x.due) :
  s.running.length ≤ busy begun t
  := by
  have hseats : seats.countP (·.entry.1.Holds t) = seats.length := by
    apply List.countP_eq_length.mpr
    intro y hy
    have hslot : y.slot ∈ s.running := h.running ▸ List.mem_map_of_mem hy
    have hstop := ((h.fits y hy).asleep (hdue _ hslot)).2 ▸ hbefore _ hslot
    exact decide_eq_true ⟨Nat.le_trans (h.fits y hy).start_le ht, hstop⟩
  rw [h.busy_eq, hseats, h.running, List.length_map]
  exact Nat.le_add_right _ _

/-! ### Steps -/

/-- Before a pool starts, all jobs are ahead. -/
theorem start (chart : List (Shift α)) :
  Follows size [] chart [] [] (.start 0 (chart.map fun x => .fresh x.job))
  where
  waiting := by
    rw [Schedule.start, List.zipIdx_map, List.map_map]
    rfl
  running := rfl
  ended := rfl
  parts := .refl []
  fits y hy := absurd hy List.not_mem_nil
  stop_le x hx := absurd hx List.not_mem_nil
  now_le _ _ := Nat.zero_le _
  running_le := Nat.zero_le _
  peak_le := Nat.zero_le _
  now_eq := .inl rfl

/-- A job goes to sleep, and may fall behind others in their order. -/
theorem sleep {sb sa seats' : List (Seat α)} {x : Shift α × Nat}
    (h : Follows size begun ahead (sb ++ ⟨x, false⟩ :: sa) past s)
    (hseats : seats'.Perm (sb ++ ⟨x, true⟩ :: sa)) :
  Follows size begun ahead seats' past { s with running := seats'.map Seat.slot }
  where
  waiting := h.waiting
  running := rfl
  ended := h.ended
  parts := by
    refine .trans ((hseats.map Seat.entry).append_right past) ?_
    have hparts := h.parts
    rw [List.map_append, List.map_cons] at hparts ⊢
    exact hparts
  fits y hy := by
    rcases List.mem_append.mp (hseats.mem_iff.mp hy) with hy | hy
    · exact h.fits y (List.mem_append_left _ hy)
    · rcases List.mem_cons.mp hy with rfl | hy
      · obtain ⟨hstart, hstop, -⟩ := h.fits ⟨x, false⟩ List.mem_append_cons_self
        exact ⟨hstart, hstop, nofun⟩
      · exact h.fits y (List.mem_append_right _ (List.mem_cons_of_mem _ hy))
  stop_le := h.stop_le
  now_le := h.now_le
  running_le := by
    have hle := h.running_le
    rw [h.running] at hle
    simp only [List.length_map, hseats.length_eq, List.length_append, List.length_cons] at hle ⊢
    exact hle
  peak_le := h.peak_le
  now_eq := h.now_eq

/-- A job ends and leaves its place. -/
theorem stop {sb sa : List (Seat α)} {x : Shift α × Nat}
    (h : Follows size begun ahead (sb ++ ⟨x, true⟩ :: sa) past s) (hdue : x.1.stop ≤ s.now) :
  Follows size begun ahead (sb ++ sa) (past ++ [x]) { s with
    running := (sb ++ sa).map Seat.slot
    ended := s.ended ++ [(x.2, x.1.job.outcome)] }
  where
  waiting := h.waiting
  running := rfl
  ended := by
    simp only [List.map_append, h.ended, List.map_singleton]
  parts := by
    refine .trans ?_ h.parts
    rw [← List.append_assoc, List.map_append, List.map_append, List.map_cons]
    refine .trans (List.perm_append_singleton _ _) ?_
    exact List.perm_middle.symm.append_right past
  fits y hy := h.fits y <| by
    rcases List.mem_append.mp hy with hy | hy
    · exact List.mem_append_left _ hy
    · exact List.mem_append_right _ (List.mem_cons_of_mem _ hy)
  stop_le := by
    intro y hy
    rcases List.mem_append.mp hy with hy | hy
    · exact h.stop_le y hy
    · obtain rfl := List.mem_singleton.mp hy
      exact hdue
  now_le := h.now_le
  running_le := by
    have hle := h.running_le
    rw [h.running] at hle
    simp only [List.length_map, List.length_append, List.length_cons] at hle ⊢
    omega
  peak_le := h.peak_le
  now_eq := h.now_eq

/-- A job that is due moves. -/
theorem move (h : Follows size begun ahead seats past s) {before after : List (Slot (Nap α))}
    {x : Slot (Nap α)} (hrunning : s.running = before ++ x :: after) (hdue : x.due ≤ s.now) :
  ∃ seats' past', Follows size begun ahead seats' past'
    (s.settle before x after (Nap.move () s.now x.task).2)
  := by
  obtain ⟨sb, rest, rfl, rfl, hrest⟩ := List.map_eq_append_iff.mp (h.running ▸ hrunning)
  obtain ⟨y, sa, rfl, rfl, rfl⟩ := List.map_eq_cons_iff.mp hrest
  obtain ⟨⟨z, i⟩, asleep⟩ := y
  cases asleep with
  | false =>
      have hstop : s.now + z.job.ms = z.stop := by
        rw [← (h.fits _ List.mem_append_cons_self).awake rfl]
        rfl
      by_cases hms : z.job.ms = 0
      · refine ⟨sb ++ ⟨(z, i), true⟩ :: sa, past, ?_⟩
        have hsleep := h.sleep (.refl _)
        rw [List.map_append, List.map_cons] at hsleep
        simp only [Seat.slot, Nap.move, Schedule.settle, if_pos hms, hstop]
        exact hsleep
      · refine ⟨sb ++ sa ++ [⟨(z, i), true⟩], past, ?_⟩
        have hlast : (sb ++ sa ++ [Seat.mk (z, i) true]).Perm (sb ++ ⟨(z, i), true⟩ :: sa) := by
          rw [List.append_assoc]
          exact (List.perm_append_singleton _ sa).append_left sb
        have hsleep := h.sleep hlast
        rw [List.map_append, List.map_append, List.map_singleton] at hsleep
        simp only [Seat.slot, Nap.move, Schedule.settle, if_neg hms, hstop]
        exact hsleep
  | true =>
      refine ⟨sb ++ sa, past ++ [(z, i)], ?_⟩
      have hstop := h.stop hdue
      rw [List.map_append] at hstop
      exact hstop

/-- The first job that waits takes a place. -/
theorem seat (h : Follows size begun ahead seats past s)
    (htime : Timetable (max size 1) (begun ++ ahead)) {i : Nat} {t : Nap α}
    {rest : List (Nat × Nap α)} (hwaiting : s.waiting = (i, t) :: rest)
    (hfree : s.running.length < max size 1) :
  ∃ x ahead', ahead = x :: ahead' ∧ Follows size (begun ++ [x]) ahead'
    (seats ++ [⟨(x, begun.length), false⟩]) past { s with
        waiting := rest
        running := s.running ++ [⟨i, s.now, t⟩]
        peak := max s.peak (s.running ++ [Slot.mk i s.now t]).length }
  := by
  have hahead := h.waiting
  rw [hwaiting] at hahead
  cases ahead with
  | nil => cases hahead
  | cons x ahead =>
      refine ⟨x, ahead, rfl, ?_⟩
      rw [List.zipIdx_cons, List.map_cons] at hahead
      cases hahead
      -- A place is free, and the job starts at the first time at which one is.
      have hstart : x.start = s.now := by
        apply Nat.le_antisymm _ (h.now_le x List.mem_cons_self)
        by_contra hlater
        have hbusy := htime.of_append.2 s.now (Nat.lt_of_not_le hlater)
        have hheld := h.busy_le_running
        omega
      exact {
        waiting := by
          simp only [List.length_append, List.length_singleton]
        running := by
          rw [List.map_append, h.running, ← hstart]
          rfl
        ended := h.ended
        parts := by
          rw [List.zipIdx_append, List.map_append, List.append_assoc, Nat.zero_add]
          refine .trans (List.perm_append_comm.append_left _) ?_
          rw [← List.append_assoc]
          exact h.parts.append_right _
        fits := by
          intro y hy
          rcases List.mem_append.mp hy with hy | hy
          · exact h.fits y hy
          · obtain rfl := List.mem_singleton.mp hy
            exact ⟨Nat.le_of_eq hstart, hstart ▸ Nat.le_add_right _ _, fun _ => hstart⟩
        stop_le := h.stop_le
        now_le := fun y hy => h.now_le y (List.mem_cons_of_mem x hy)
        running_le := by
          rw [List.length_append]
          exact hfree
        peak_le := by
          rw [List.length_append]
          exact Nat.max_le.mpr ⟨h.peak_le, hfree⟩
        now_eq := by
          rcases h.now_eq with hzero | ⟨y, hy, hstop⟩
          · exact .inl hzero
          · exact .inr ⟨y, List.mem_append_left _ hy, hstop⟩ }

/-- Time does not pass beyond the start of a job: as long as all places are held, none starts. -/
theorem nextDue_le_start (h : Follows size begun ahead seats past s)
    (htime : Timetable (max size 1) (begun ++ ahead)) (hrunning : s.running ≠ [])
    (hdue : ∀ x ∈ s.running, s.now < x.due)
    (hfull : s.waiting = [] ∨ max size 1 ≤ s.running.length) :
  ∀ x ∈ ahead, s.nextDue ≤ x.start
  := by
  cases ahead with
  | nil => exact fun x hx => absurd hx List.not_mem_nil
  | cons z ahead =>
      have hall := (Schedule.nextDue_spec hrunning).2
      have hplaces : max size 1 ≤ s.running.length := by
        apply hfull.resolve_left
        rw [h.waiting]
        exact List.cons_ne_nil _ _
      have hfirst : s.nextDue ≤ z.start := by
        by_contra hearly
        have hbusy := h.running_le_busy hdue (h.now_le z List.mem_cons_self) fun y hy =>
          Nat.lt_of_lt_of_le (Nat.lt_of_not_le hearly) (hall y hy)
        have hfree := htime.of_append.1
        omega
      have hordered := (List.pairwise_cons.mp (List.pairwise_append.mp htime.ordered).2.1).1
      refine List.forall_mem_cons.mpr ⟨hfirst, fun y hy => ?_⟩
      exact Nat.le_trans hfirst (hordered y hy)

/-- Time passes. -/
theorem pass (h : Follows size begun ahead seats past s)
    (htime : Timetable (max size 1) (begun ++ ahead)) (hrunning : s.running ≠ [])
    (hdue : ∀ x ∈ s.running, s.now < x.due)
    (hfull : s.waiting = [] ∨ max size 1 ≤ s.running.length) :
  Follows size begun ahead seats past { s with now := s.nextDue }
  := by
  obtain ⟨⟨x, hx, hnext⟩, hall⟩ := Schedule.nextDue_spec hrunning
  have hlater : s.now ≤ s.nextDue := hnext ▸ Nat.le_of_lt (hdue x hx)
  have hslot : ∀ y ∈ seats, y.slot ∈ s.running := fun y hy => h.running ▸ List.mem_map_of_mem hy
  exact {
    waiting := h.waiting
    running := h.running
    ended := h.ended
    parts := h.parts
    fits := by
      intro y hy
      obtain ⟨hasleep, hstop⟩ := (h.fits y hy).asleep (hdue _ (hslot y hy))
      refine ⟨Nat.le_trans (h.fits y hy).start_le hlater, hstop ▸ hall _ (hslot y hy), ?_⟩
      rw [hasleep]
      exact nofun
    stop_le := fun y hy => Nat.le_trans (h.stop_le y hy) hlater
    now_le := h.nextDue_le_start htime hrunning hdue hfull
    running_le := h.running_le
    peak_le := h.peak_le
    now_eq := by
      obtain ⟨y, hy, rfl⟩ := List.mem_map.mp (h.running ▸ hx)
      obtain ⟨-, hstop⟩ := (h.fits y hy).asleep (hdue _ hx)
      have hentry := h.parts.mem_iff.mp (List.mem_append_left _ (List.mem_map_of_mem hy))
      exact .inr ⟨_, List.fst_mem_of_mem_zipIdx hentry, hstop.symm.trans hnext⟩ }

end Follows

/-! ### Runs -/

/-- The pool keeps to a timetable: some of its jobs have begun, and the others are ahead. -/
def Keeps (size : Nat) (chart : List (Shift α)) (s : Schedule (Nap α) (JobEnd α)) : Prop :=
  ∃ begun ahead seats past, begun ++ ahead = chart ∧ Follows size begun ahead seats past s

variable {chart : List (Shift α)} {s s' : Schedule (Nap α) (JobEnd α)}

/-- A step keeps to the timetable. -/
theorem Keeps.next (htime : Timetable (max size 1) chart) (h : Keeps size chart s)
    (hnext : Schedule.Next size s s') :
  Keeps size chart s'
  := by
  obtain ⟨begun, ahead, seats, past, rfl, hs⟩ := h
  cases hnext with
  | move hrunning hdue =>
      obtain ⟨seats', past', hs'⟩ := hs.move hrunning hdue
      exact ⟨begun, ahead, seats', past', rfl, hs'⟩
  | seat hwaiting hfree =>
      obtain ⟨x, ahead', rfl, hs'⟩ := hs.seat htime hwaiting hfree
      exact ⟨begun ++ [x], ahead', _, past, List.append_cons begun x ahead' ▸ rfl, hs'⟩
  | pass hrunning hdue hfull =>
      exact ⟨begun, ahead, seats, past, rfl, hs.pass htime hrunning hdue hfull⟩

/-- A pool that runs the jobs of a timetable keeps to it. -/
theorem Keeps.steps (htime : Timetable (max size 1) chart)
    (hsteps : Schedule.Steps size (.start 0 (chart.map fun x => .fresh x.job)) s) :
  Keeps size chart s
  := by
  induction hsteps with
  | refl => exact ⟨[], chart, [], [], rfl, .start chart⟩
  | tail _ hnext ih => exact ih.next htime hnext

/-! ### Ends -/

/-- Jobs that have ended in any order have their ends handed out in their own. -/
theorem results_eq {past : List (Shift α × Nat)} (hparts : past.Perm chart.zipIdx)
    (hended : s.ended = past.map fun x => (x.2, x.1.job.outcome)) :
  s.results = chart.map (·.job.outcome)
  := by
  have hsorted : (s.ended.mergeSort fun a b => a.1 ≤ b.1)
      = chart.zipIdx.map fun x => (x.2, x.1.job.outcome) := by
    refine List.Perm.eq_of_pairwise
      (fun a b ha hb (hab : a.1 ≤ b.1) (hba : b.1 ≤ a.1) => ?_) ?_ ?_ ?_
    · rw [List.mem_mergeSort, hended] at ha
      obtain ⟨⟨x, i⟩, hx, rfl⟩ := List.mem_map.mp ha
      obtain ⟨⟨y, j⟩, hy, rfl⟩ := List.mem_map.mp hb
      obtain rfl : i = j := Nat.le_antisymm hab hba
      obtain ⟨_, hx⟩ := List.mem_zipIdx' (hparts.mem_iff.mp hx)
      obtain ⟨_, hy⟩ := List.mem_zipIdx' hy
      rw [hx, hy]
    · refine (List.pairwise_mergeSort ?_ ?_ _).imp of_decide_eq_true
      · intro a b c hab hbc
        simp only [decide_eq_true_eq] at hab hbc ⊢
        omega
      · intro a b
        simp only [Bool.or_eq_true, decide_eq_true_eq]
        omega
    · have hnumbers : (chart.zipIdx.map (·.2)).Pairwise (· < ·) := by
        rw [List.zipIdx_map_snd]
        exact List.pairwise_lt_range' 1
      exact List.pairwise_map.mpr ((List.pairwise_map.mp hnumbers).imp Nat.le_of_lt)
    · rw [hended]
      exact (List.mergeSort_perm _ _).trans (hparts.map _)
  rw [Schedule.results, hsorted, List.map_map]
  conv_rhs => rw [← List.zipIdx_map_fst 0 chart, List.map_map]
  rfl

/-- The values of all jobs, unless one was stopped by a fault. -/
theorem gather_outcome (jobs : List (Sleeper α)) :
  gather (jobs.map Sleeper.outcome)
    = if jobs.any (·.fails) then .error .workerFailed else .ok (jobs.map (·.value))
  := by
  have hcollect : JobEnd.collect (jobs.map Sleeper.outcome)
      = if jobs.any (·.fails) then none else some (jobs.map (·.value)) := by
    induction jobs with
    | nil => rfl
    | cons x jobs ih =>
        obtain ⟨ms, value, fails⟩ := x
        cases fails with
        | true => rfl
        | false =>
            rw [List.map_cons, Sleeper.outcome, if_neg Bool.false_ne_true, JobEnd.collect, ih]
            cases hany : jobs.any (·.fails) <;> simp [hany]
  rw [gather, hcollect]
  cases jobs.any (·.fails) <;> rfl

/-- A pool that has run all jobs to their ends. -/
structure Completes (size : Nat) (jobs : List (Sleeper α)) (chart : List (Shift α))
    (s : Schedule (Nap α) (JobEnd α)) : Prop where
  /-- No job ends later. -/
  stop_le : ∀ x ∈ chart, x.stop ≤ s.now
  /-- The last job ends now. -/
  now_eq : s.now = 0 ∨ ∃ x ∈ chart, x.stop = s.now
  /-- Each job has had its own end. -/
  results : s.results = jobs.map Sleeper.outcome
  /-- The values are handed out in list order, unless a job was stopped by a fault. -/
  gather : gather s.results
    = if jobs.any (·.fails) then .error .workerFailed else .ok (jobs.map (·.value))
  /-- All places are free. -/
  free : s.running = []
  /-- Whatever is run next is run as on a pool that has run nothing. -/
  later : ∀ more u, Schedule.Steps size (s.resume more) u
    ↔ ∃ s', Schedule.Steps size (.start 0 more) s' ∧ u = s'.delayed s.now

theorem Keeps.completes (h : Keeps size chart s) (hdone : s.isDone = true) :
  Completes size (chart.map (·.job)) chart s
  := by
  obtain ⟨begun, ahead, seats, past, rfl, hs⟩ := h
  obtain ⟨hwaiting, hrunning⟩ := Schedule.isDone_iff.mp hdone
  obtain rfl : ahead = [] := by
    rw [hs.waiting, List.map_eq_nil_iff, List.zipIdx_eq_nil_iff] at hwaiting
    exact hwaiting
  obtain rfl : seats = [] := by
    rw [hs.running, List.map_eq_nil_iff] at hrunning
    exact hrunning
  rw [List.append_nil]
  have hresults := results_eq hs.parts hs.ended
  exact {
    stop_le := by
      intro x hx
      rw [← List.zipIdx_map_fst 0 begun] at hx
      obtain ⟨e, he, rfl⟩ := List.mem_map.mp hx
      exact hs.stop_le e (hs.parts.mem_iff.mpr he)
    now_eq := hs.now_eq
    results := by
      rw [hresults, List.map_map]
      rfl
    gather := by
      rw [hresults, ← gather_outcome, List.map_map]
      rfl
    free := hrunning
    later := fun more u => Schedule.steps_resume hrunning more }

/-- A pool runs all jobs of a list, whatever time they take, whichever of them are stopped by a
fault, and in whatever order those that are due move, if they ask for their places in the order of
the list. -/
theorem runs_all (size : Nat) (jobs : List (Sleeper α)) :
  ∃ chart : List (Shift α), chart.map (·.job) = jobs
    -- The jobs start in list order, as soon as there is a place for them.
    ∧ chart.Pairwise (fun x y => x.start ≤ y.start)
    ∧ (∀ t, busy chart t ≤ max size 1)
    ∧ (∀ x ∈ chart, ∀ t < x.start, busy chart t = max size 1)
    -- Every run keeps to these times, cannot go on for ever, and stops only when all have ended.
    ∧ (∀ s, Schedule.Steps size (.start 0 (jobs.map .fresh)) s →
        Keeps size chart s ∧ s.running.length ≤ max size 1
          ∧ (s.isDone = false → ∃ s', Schedule.Next size s s')
          ∧ (s.isDone = true → Completes size jobs chart s))
    ∧ (∀ f : Nat → Schedule (Nap α) (JobEnd α), ¬ ∀ n, Schedule.Next size (f n) (f (n + 1)))
    ∧ Schedule.Steps size (.start 0 (jobs.map .fresh)) (runSleepers size jobs)
    ∧ (runSleepers size jobs).isDone = true
  := by
  obtain ⟨chart, rfl, htime⟩ := exists_timetable (show 0 < max size 1 by omega) jobs
  refine ⟨chart, rfl, htime.ordered, htime.busy_le, fun x hx t => htime.full hx, ?_,
    Schedule.not_endless, ?_⟩
  · intro s hsteps
    rw [List.map_map] at hsteps
    have hkeeps := Keeps.steps htime hsteps
    have hplaces : s.running.length ≤ max size 1 := by
      obtain ⟨_, _, _, _, -, hs⟩ := hkeeps
      exact hs.running_le
    exact ⟨hkeeps, hplaces, fun hdone => ⟨_, Schedule.next_step hdone⟩, hkeeps.completes⟩
  · obtain ⟨hsteps, hend⟩ := Schedule.steps_run size (6 * (chart.map (·.job)).length)
      (.start 0 ((chart.map (·.job)).map .fresh))
    refine ⟨hsteps, hend ?_⟩
    simp only [Schedule.left, Schedule.start, List.length_map, List.length_zipIdx, List.map_nil,
      List.sum_nil]
    omega

end Pool

end ChainLedger
