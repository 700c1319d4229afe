import ChainLedger.Failure

/-!
# The worker pool

A pool runs the tasks of a batch, at most `size` of them at once.  Tasks start
in list order, each as soon as a place is free; one that sleeps keeps its place.
Every task runs to its own end, and the results are handed out in list order.

The schedule is a function of the tasks: whoever is due goes first, in the order
of falling due; then waiting tasks take the free places; and time passes only
when nobody is due and no waiting task can start.

Places are given in the order in which they are asked for, and every task asks
for its own when it first gets a turn.  It is taken for granted here that the
tasks first get their turns in list order; so the queue for a place is the list.
-/

namespace ChainLedger

/-- How a job ends. -/
inductive JobEnd (α : Type)
  /-- With a result. -/
  | finished (a : α)
  /-- Stopped by a fault. -/
  | crashed
deriving DecidableEq

namespace JobEnd

/-- The results of all jobs in order, unless one was stopped. -/
def collect {α : Type} : List (JobEnd α) → Option (List α)
  | [] => some []
  | crashed :: _ => none
  | finished a :: rest => (collect rest).map (a :: ·)

end JobEnd

namespace Pool

/-- What a task does when it gets its turn. -/
inductive Move (τ α : Type)
  /-- It goes on at once. -/
  | go (t : τ)
  /-- It goes on after some milliseconds. -/
  | sleep (ms : Nat) (t : τ)
  /-- It ends with a result. -/
  | stop (a : α)

/-- A running task, with its place in the list of all tasks. -/
structure Slot (τ : Type) where
  index : Nat
  /-- When it goes on. -/
  due : Nat
  task : τ

/-- The state of a pool at work. -/
structure Schedule (τ α : Type) where
  /-- The time. -/
  now : Nat
  /-- The tasks not started, in the order in which they have asked for a place,
  which is taken to be that of the list. -/
  waiting : List (Nat × τ)
  /-- The tasks that hold a place, in the order in which they fell asleep. -/
  running : List (Slot τ)
  /-- The results so far. -/
  ended : List (Nat × α)
  /-- The most tasks that ever held a place at once. -/
  peak : Nat

namespace Schedule

variable {σ τ α : Type}

/-- The pool before it starts. -/
def start (now : Nat) (tasks : List τ) : Schedule τ α where
  now := now
  waiting := tasks.zipIdx.map fun t => (t.2, t.1)
  running := []
  ended := []
  peak := 0

/-- Whether all tasks have ended. -/
def isDone (s : Schedule τ α) : Bool := s.waiting.isEmpty && s.running.isEmpty

/-- The running tasks before, at and after the first one that is due. -/
def splitDue (now : Nat) : List (Slot τ) → Option (List (Slot τ) × Slot τ × List (Slot τ))
  | [] => none
  | x :: rest =>
    if x.due ≤ now then some ([], x, rest)
    else (splitDue now rest).map fun (before, y, after) => (x :: before, y, after)

/-- The earliest time at which a running task goes on. -/
def nextDue (s : Schedule τ α) : Nat :=
  match s.running with
  | [] => s.now
  | x :: rest => rest.foldl (fun t y => min t y.due) x.due

/-- The pool after a task that was due has made a move. -/
def settle (s : Schedule τ α) (before : List (Slot τ)) (x : Slot τ) (after : List (Slot τ)) :
    Move τ α → Schedule τ α
  | .go t => { s with running := before ++ { x with task := t } :: after }
  | .sleep ms t =>
    let x := { x with task := t, due := s.now + ms }
    { s with running := if ms = 0 then before ++ x :: after else before ++ after ++ [x] }
  | .stop a => { s with running := before ++ after, ended := s.ended ++ [(x.index, a)] }

/-- One step of a pool of some size whose tasks share a state: a due task moves,
else a waiting task starts, else time passes. -/
def step (size : Nat) (move : σ → Nat → τ → σ × Move τ α) (shared : σ) (s : Schedule τ α) :
    σ × Schedule τ α :=
  match splitDue s.now s.running with
  | some (before, x, after) =>
    let (shared, m) := move shared s.now x.task
    (shared, s.settle before x after m)
  | none =>
    match s.waiting with
    | (i, t) :: rest =>
      if s.running.length < max size 1 then
        let running := s.running ++ [⟨i, s.now, t⟩]
        (shared, { s with waiting := rest, running, peak := max s.peak running.length })
      else (shared, { s with now := s.nextDue })
    | [] => (shared, { s with now := s.nextDue })

/-- The pool after all tasks have ended, or after a number of steps. -/
def run (size : Nat) (move : σ → Nat → τ → σ × Move τ α) :
    Nat → σ → Schedule τ α → σ × Schedule τ α
  | 0, shared, s => (shared, s)
  | n + 1, shared, s =>
    if s.isDone then (shared, s)
    else
      let (shared, s) := step size move shared s
      run size move n shared s

/-- The results of the ended tasks, in list order. -/
def results (s : Schedule τ α) : List α :=
  (s.ended.mergeSort fun a b => a.1 ≤ b.1).map (·.2)

end Schedule

/-- A task that takes some time and then ends with a value or is stopped by a
fault. -/
structure Sleeper (α : Type) where
  ms : Nat
  value : α
  fails : Bool
deriving DecidableEq

/-- A sleeper before or after its sleep. -/
inductive Nap (α : Type)
  | fresh (s : Sleeper α)
  | rested (s : Sleeper α)

/-- The move of a sleeper: to its sleep, then to its end. -/
def Nap.move {α : Type} : Unit → Nat → Nap α → Unit × Move (Nap α) (JobEnd α)
  | (), _, .fresh s => ((), .sleep s.ms (.rested s))
  | (), _, .rested s => ((), .stop (if s.fails then .crashed else .finished s.value))

/-- The schedule of a pool of sleepers, from its start to the end of all. -/
def runSleepers {α : Type} (size : Nat) (sleepers : List (Sleeper α)) :
    Schedule (Nap α) (JobEnd α) :=
  let steps := 6 * sleepers.length
  (Schedule.run size Nap.move steps () (.start 0 (sleepers.map .fresh))).2

end Pool

/-- A pool of workers. -/
structure Pool where
  /-- The most tasks at once. -/
  size : Nat
  /-- Whether no more work is accepted. -/
  shutDown : Bool := false
deriving DecidableEq

namespace Pool

/-- A pool of at least one worker, whose number fits sixty-one bits. -/
def ofSize (size : Nat) : Except Fault Pool :=
  if FitsUnsigned 61 size then .ok { size := max size 1 } else .error .tooManyWorkers

/-- Fails if no more work is accepted. -/
def accept (p : Pool) : Except Failure Unit := if p.shutDown then .error .shutDown else .ok ()

/-- The results of tasks that were accepted, in list order, unless one of them
was stopped. -/
def gather {α : Type} (ends : List (JobEnd α)) : Except Failure (List α) :=
  match JobEnd.collect ends with
  | some values => .ok values
  | none => .error .workerFailed

end Pool

end ChainLedger
