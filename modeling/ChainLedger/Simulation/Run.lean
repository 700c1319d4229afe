import ChainLedger.Simulation.World

/-!
# Running in the simulated world

The apply loops of a batch share the world and run on the pool; everything else
waits for its calls one after another.  Time is that of the world's clock.
-/

namespace ChainLedger

namespace Simulation

/-- An apply loop on the pool. -/
inductive Task
  /-- It goes on with a program. -/
  | ready (p : Apply.Step)
  /-- It waits for an answer, with which it goes on. -/
  | asleep (wake : World → World × Except Fault Apply.Step)

/-- An apply loop on the pool, with its turn. -/
structure Worker where
  turn : Apply.State → Apply.Step
  task : Task

namespace Worker

/-- The worker of a job, at the start of its loop. -/
def ofJob (policy : Policy) (j : Job) : Worker where
  turn := Apply.turn policy j.delta
  task := .ready (Apply.turn policy j.delta (.start j.row?))

/-- The worker goes on with a program. -/
def go (x : Worker) (p : Apply.Step) : Pool.Move Worker (JobEnd Apply.Result) :=
  .go { x with task := .ready p }

/-- The move of a worker: to its next call, through its call, to its next turn,
or to its end. -/
def move (w : World) (_now : Nat) (x : Worker) :
    World × Pool.Move Worker (JobEnd Apply.Result) :=
  match x.task with
  | .ready (.done (.stop r)) => (w, .stop (.finished r))
  | .ready (.done (.again s)) => (w, x.go (x.turn s))
  | .ready (.crash _) => (w, .stop .crashed)
  | .ready (.call c next) =>
    let (w, onset) := w.beginApply c
    let wake (w : World) : World × Except Fault Apply.Step :=
      let (w, r) := onset.finish w
      (w, r.map next)
    (w, .sleep onset.delay { x with task := .asleep wake })
  | .asleep wake =>
    match wake w with
    | (w, .ok p) => (w, x.go p)
    | (w, .error _) => (w, .stop .crashed)

end Worker

namespace World

/-- More steps than any run is given time for. -/
def patience : Nat := 10000000

/-- Runs the apply loops of all jobs on the pool. -/
def applyAll (w : World) (policy : Policy) (jobs : List Job) :
    World × List (JobEnd Apply.Result) :=
  let s := Pool.Schedule.start w.clock (jobs.map (Worker.ofJob policy))
  let (w, s) := s.run w.pool.size Worker.move patience w
  ({ w with clock := s.now }, s.results)

/-- The answer to a call of an apply loop that runs alone. -/
def answerApply (w : World) (c : ApplyCall) : World × Except Fault (applySignature.Answer c) :=
  await (w.beginApply c)

/-- The answer to a call of a batch. -/
def answerBatch (w : World) : (c : BatchCall) → World × Except Fault (batchSignature.Answer c)
  | .accepting => (w, .ok !w.pool.shutDown)
  | .store c deadline => await (w.beginStore c deadline)
  | .applyAll policy jobs =>
    let (w, es) := w.applyAll policy jobs
    (w, .ok es)
  | .acknowledge b => w.acknowledge b
  | .tell e => (w.tell e, .ok ())

/-- The end of a pause of some milliseconds: a signal not seen yet ends it at
once, and so does the loss of the line. -/
def pause (w : World) (ms : Nat) : World × PauseEnd :=
  if w.line.unseen then ({ w with line := { w.line with unseen := false } }, .over)
  else if w.line.dropped then (w, .abandoned)
  else ({ w with clock := w.clock + ms }, .over)

/-- The answer to a call of a service. -/
def answerService (w : World) : (c : ServiceCall) → World × Except Fault (serviceSignature.Answer c)
  | .batch c => w.answerBatch c
  | .poll => w.poll
  | .wait ms => ({ w with clock := w.clock + ms }, .ok ())
  | .stopSignalled => (w, .ok w.line.raised)
  | .pause ms =>
    let (w, e) := w.pause ms
    (w, .ok e)

/-- Runs one apply loop alone. -/
def apply (w : World) (policy : Policy) (d : Delta) (row? : Option Row) :
    World × Option (Except Fault Apply.Result) :=
  Turn.run answerApply (Apply.turn policy d) patience w (.start row?)

/-- Processes some records. -/
def process (w : World) (policy : Policy) (rs : List Record) :
    World × Except Fault (Except Failure Outcome) :=
  (Batch.process policy rs).run answerBatch w

/-- Processes one poll of the consumer. -/
def processPoll (w : World) (policy : Policy) :
    World × Except Fault (Except Failure Outcome) :=
  (Service.once policy).run answerService w

/-- Drains the consumer. -/
def drain (w : World) (settings : Settings) :
    World × Option (Except Fault (Except Failure Stats)) :=
  Turn.run answerService (Service.drain settings) patience w {}

/-- Serves the consumer until a stop. -/
def serveUntilStop (w : World) (settings : Settings) : World × Option (Except Fault Stats) :=
  Turn.run answerService (Service.serve settings) patience w {}

end World

end Simulation

end ChainLedger
