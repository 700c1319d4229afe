import ChainLedger.Backend
import ChainLedger.Proofs.Calls
import ChainLedger.Proofs.System

/-!
# Batches on memory

A store and a log in memory answer every call at once, and the apply loops of a batch run one
after another, each within a number of turns.  Nobody else changes a row meanwhile, so the turns
are enough, and running one loop after another is one of the orders in which their moves may come.
So what is processed on memory runs as a batch does that loses no call.
-/

namespace ChainLedger

open Prog

/-! ### Surroundings that have one answer -/

/-- The surroundings that answer as a function does. -/
def Prog.Answers {S : Signature} {σ : Type}
    (answer : σ → (c : S.Call) → σ × Except Fault (S.Answer c)) : Surroundings S σ :=
  fun s c r s' => answer s c = (s', r)

/-- A run is an execution in the surroundings that answer as the function does. -/
theorem Prog.exec_answers {S : Signature} {σ α : Type}
    {answer : σ → (c : S.Call) → σ × Except Fault (S.Answer c)} (s : σ) (p : Prog S α) :
  Exec (Answers answer) s p (p.run answer s).2 (p.run answer s).1
  := exec_run (fun _ _ => rfl) s p

/-- A store that is switched on serves a call as its rows alone would. -/
theorem MemoryStore.perform_of_available {s : MemoryStore} (h : s.available = true)
    (c : StoreCall) :
  s.perform c = (⟨(c.on s.rows).1, true⟩, (c.on s.rows).2)
  := by
  obtain ⟨rows, available⟩ := s
  obtain rfl : available = true := h
  have havailable : (perform { rows } c).1.available = true := by
    unfold perform
    rw [if_pos rfl]
    cases c with
    | find key => rfl
    | findAll keys => rfl
    | insert row =>
        dsimp only
        split
        · rfl
        · rfl
    | update row expected =>
        dsimp only
        split
        · split
          · rfl
          · rfl
        · rfl
    | remove key => rfl
    | settle key expected =>
        dsimp only
        split
        · split
          · split
            · rfl
            · rfl
          · rfl
        · rfl
  rw [StoreCall.on]
  generalize perform { rows } c = x at havailable ⊢
  obtain ⟨⟨rows', available⟩, r⟩ := x
  obtain rfl : available = true := havailable
  rfl

namespace Backend

variable {policy : Policy} {p : Partition} {b b' : Backend}

/-- The store is switched on, its rows are keyed, and batches are accepted. -/
structure Ready (b : Backend) : Prop where
  available : b.store.available = true
  accepting : b.accepting = true
  keyed : Keyed b.store.rows

/-- The rows and the log. -/
def site (b : Backend) : Site EventLog := ⟨b.store.rows, b.log⟩

/-- The rows that a store call leaves, and its answer. -/
theorem answerStore_of_ready (h : b.Ready) (c : StoreCall) :
  b.answerStore c = ({ b with store := ⟨(c.on b.store.rows).1, true⟩ },
    (c.on b.store.rows).2.map .answered)
  := by
  rw [answerStore, MemoryStore.perform_of_available h.available]

/-- After a store call, the backend is ready as before. -/
theorem Ready.store (h : b.Ready) (c : StoreCall) :
  Ready { b with store := ⟨(c.on b.store.rows).1, true⟩ }
  := ⟨rfl, h.accepting, StoreCall.keyed_on h.keyed c⟩

/-! ### The jobs -/

/-- A backend that is ready answers a loop as a store does that loses no call, and keeps the log. -/
theorem simulates_answerApply (log : EventLog) :
  Simulates (Answers answerApply) (ApplyAnswers False log.latestOffset)
    (fun b rows => b.Ready ∧ b.log = log ∧ b.store.rows = rows)
  := by
  rintro b c r b' _ hanswer ⟨hready, rfl, rfl⟩
  cases c with
  | store c deadline =>
      obtain ⟨rfl, rfl⟩ := Prod.mk.inj ((answerStore_of_ready hready c).symm.trans hanswer)
      exact ⟨_, .store .served, hready.store c, rfl, rfl⟩
  | latestOffset q =>
      cases hanswer
      exact ⟨_, .position _ q, hready, rfl, rfl⟩
  | wait ms =>
      cases hanswer
      exact ⟨_, .waited _ ms, hready, rfl, rfl⟩

/-- What the result of all turns makes of a job. -/
def jobEnd : Option (Except Fault Apply.Result) → JobEnd Apply.Result
  | some (.ok r) => .finished r
  | some (.error _) | none => .crashed

theorem runJob_eq (b : Backend) (j : Job) :
  b.runJob policy j = ((Turn.run answerApply (Apply.turn policy j.delta) (turns policy) b
      (.start j.row?)).1,
    jobEnd (Turn.run answerApply (Apply.turn policy j.delta) (turns policy) b (.start j.row?)).2)
  := by
  rw [runJob]
  generalize Turn.run answerApply (Apply.turn policy j.delta) (turns policy) b (.start j.row?) = x
  obtain ⟨b', _ | (f | r)⟩ := x
  · rfl
  · rfl
  · rfl

/-- A loop that has turns enough comes to its end. -/
theorem path_of_turns {n : Nat} (h : b.Ready) (j : Job) (s : Apply.State)
    (hturns : Apply.turnsLeft policy s (b.store.rows.get? j.delta.key) ≤ n) :
  ∃ b' r, Turn.run answerApply (Apply.turn policy j.delta) n b s = (b', some r) ∧
    b'.Ready ∧ b'.log = b.log ∧
    Task.Path (ApplyAnswers False b.log.latestOffset) policy j
      (b.store.rows, .running (Apply.turn policy j.delta s))
      (b'.store.rows, .ended (jobEnd (some r)))
  := by
  induction n generalizing b s with
  | zero =>
      rw [Apply.turnsLeft] at hturns
      split at hturns
      · omega
      · split at hturns
        · omega
        · omega
  | succ n ih =>
      obtain ⟨rows, hexec, hready, hlog, hrows⟩ :=
        (exec_answers b (Apply.turn policy j.delta s)).simulate (simulates_answerApply b.log)
          ⟨h, rfl, rfl⟩
      subst hrows
      have hcontinues := Apply.turn_continues hexec
      have hpath : Task.Path _ policy j _ _ := Task.path_of_exec hexec
      rw [Turn.run]
      generalize (Apply.turn policy j.delta s).run answerApply b = x at *
      obtain ⟨b', f | (s' | r)⟩ := x
      · exact ⟨b', .error f, rfl, hready, hlog, hpath⟩
      · obtain ⟨hrows, hnext⟩ := hcontinues
        have hless := hnext.turnsLeft_lt (h.keyed j.delta.key)
        obtain ⟨b'', r, hrest, hready', hlog', hpath'⟩ := ih hready s' (by
          rw [hrows]
          omega)
        rw [hlog] at hlog' hpath'
        exact ⟨b'', r, hrest, hready', hlog', hpath.trans hpath'⟩
      · exact ⟨b', .ok r, rfl, hready, hlog, hpath⟩

/-- The turns of a job are enough. -/
theorem path_of_runJob (policy : Policy) (h : b.Ready) (j : Job) :
  (b.runJob policy j).1.Ready ∧ (b.runJob policy j).1.log = b.log ∧
    Task.Path (ApplyAnswers False b.log.latestOffset) policy j
      (b.store.rows, Task.start policy j)
      ((b.runJob policy j).1.store.rows, .ended (b.runJob policy j).2)
  := by
  have hturns : Apply.turnsLeft policy (.start j.row?) (b.store.rows.get? j.delta.key)
      ≤ turns policy := by
    simp only [Apply.turnsLeft, Apply.State.start, turns]
    split
    · omega
    · omega
  obtain ⟨b', r, hrun, hready, hlog, hpath⟩ := path_of_turns h j (.start j.row?) hturns
  rw [runJob_eq, hrun]
  exact ⟨hready, hlog, hpath⟩

theorem runJobs_concat (b : Backend) (js : List Job) (j : Job) :
  b.runJobs policy (js ++ [j]) = (((b.runJobs policy js).1.runJob policy j).1,
    (b.runJobs policy js).2 ++ [((b.runJobs policy js).1.runJob policy j).2])
  := by
  induction js generalizing b with
  | nil => rfl
  | cons i js ih =>
      simp only [List.cons_append, runJobs, ih]

/-- The jobs have run one after another, and left the rows; the backend is ready for more. -/
def Ran (policy : Policy) (b : Backend) (done : List Job) (ends : List (JobEnd Apply.Result))
    (rows : Table Address Row) : Prop :=
  (b.runJobs policy done).1.Ready ∧ (b.runJobs policy done).1.log = b.log ∧
    (b.runJobs policy done).2 = ends ∧ (b.runJobs policy done).1.store.rows = rows

/-- Jobs that run one after another come to their ends. -/
theorem completes_of_runJobs (policy : Policy) (h : b.Ready) (jobs : List Job) :
  (b.runJobs policy jobs).1.Ready ∧ (b.runJobs policy jobs).1.log = b.log ∧
    Completes (ApplyAnswers False b.log.latestOffset) policy jobs b.store.rows
      (b.runJobs policy jobs).2 (b.runJobs policy jobs).1.store.rows
  := by
  have hstep : ∀ done j todo ends rows, jobs = done ++ j :: todo →
      b.Ran policy done ends rows →
      ∃ e rows', Task.Path (ApplyAnswers False b.log.latestOffset) policy j
        (rows, Task.start policy j) (rows', .ended e) ∧
        b.Ran policy (done ++ [j]) (ends ++ [e]) rows' := by
    rintro done j todo ends rows - ⟨hready, hlog, rfl, rfl⟩
    obtain ⟨hready', hlog', hpath⟩ := path_of_runJob policy hready j
    rw [hlog] at hpath
    refine ⟨_, _, hpath, ?_⟩
    rw [Ran, runJobs_concat]
    exact ⟨hready', hlog'.trans hlog, rfl, rfl⟩
  have hstart : b.Ran policy [] [] b.store.rows := ⟨h, rfl, rfl, rfl⟩
  obtain ⟨ends, rows, hcompletes, hready, hlog, rfl, rfl⟩ := exists_completes_of_each hstep hstart
  exact ⟨hready, hlog, hcompletes⟩

/-! ### The batch -/

/-- A backend that is ready answers a batch as a site does that loses no call. -/
theorem simulates_answerBatch (p : Partition) :
  Simulates (Answers (answerBatch p)) (BatchAnswers False (EventLog.parties p))
    (fun b s => b.Ready ∧ b.site = s)
  := by
  rintro b c r b' _ hanswer ⟨hready, rfl⟩
  cases c with
  | accepting =>
      cases hanswer
      rw [hready.accepting]
      exact ⟨_, .accepted _, hready, rfl⟩
  | store c deadline =>
      obtain ⟨rfl, rfl⟩ := Prod.mk.inj ((answerStore_of_ready hready c).symm.trans hanswer)
      exact ⟨_, .store .served, hready.store c, rfl⟩
  | applyAll policy jobs =>
      cases hanswer
      obtain ⟨hready', hlog, hcompletes⟩ := completes_of_runJobs policy hready jobs
      refine ⟨_, .applied hcompletes, hready', ?_⟩
      rw [site, hlog]
      rfl
  | acknowledge bounds =>
      cases hanswer
      exact ⟨_, .acknowledged _ bounds, ⟨hready.available, hready.accepting, hready.keyed⟩, rfl⟩
  | tell e =>
      cases hanswer
      exact ⟨_, .told _ e, ⟨hready.available, hready.accepting, hready.keyed⟩, rfl⟩

/-- Records that are processed on memory are processed as by a batch that loses no call. -/
theorem exec_process (h : b.Ready) (policy : Policy) (p : Partition) (rs : List Record) :
  (b.process policy p rs).1.Ready ∧
    Exec (BatchAnswers False (EventLog.parties p)) b.site (Batch.process policy rs)
      (b.process policy p rs).2 (b.process policy p rs).1.site
  := by
  obtain ⟨_, hexec, hready, rfl⟩ :=
    (exec_answers b (Batch.process policy rs)).simulate (simulates_answerBatch p) ⟨h, rfl⟩
  exact ⟨hready, hexec⟩

end Backend

end ChainLedger
