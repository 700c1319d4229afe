import ChainLedger.EventLog
import ChainLedger.Service
import ChainLedger.Simulation.Script
import ChainLedger.Store.Memory

/-!
# The simulated world

The surroundings of a simulated engine: a store and a log in memory, perhaps an
oracle of its own, a script, a line on which a stop is signalled, and a clock
that stands still while anybody can act.  Every call is written down with the
answer it got.
-/

namespace ChainLedger

namespace Simulation

/-- The line on which a stop is signalled. -/
structure Line where
  /-- A stop is signalled. -/
  raised : Bool := false
  /-- Something was sent since the receiver last looked. -/
  unseen : Bool := false
  /-- Nobody can send any more. -/
  dropped : Bool := false
deriving DecidableEq

namespace Line

/-- The line after a stop is sent. -/
def raise (l : Line) : Line := if l.dropped then l else { l with raised := true, unseen := true }

end Line

/-- A call as it is written down. -/
inductive Asked
  | store (c : StoreCall)
  | latestOffset (p : Partition)
  | poll
  /-- With the rows there were when the call began. -/
  | acknowledge (b : Bounds) (rows : List Row)

namespace Asked

/-- The name of the call. -/
def name : Asked → String
  | store c => c.name
  | latestOffset _ => "latest_offset"
  | poll => "poll_batch"
  | acknowledge _ _ => "commit_sync"

/-- The party called. -/
def party : Asked → String
  | store (.find key) | store (.remove key) | store (.settle key _) => Address.render key
  | store (.insert row) | store (.update row _) => Address.render row.key
  | store (.findAll _) => "*"
  | latestOffset p => p.render
  | poll | acknowledge _ _ => "log"

end Asked

/-- The answer to a call as it is written down. -/
inductive Heard
  /-- None, or one that came too late. -/
  | nothing
  /-- The version of the row read. -/
  | version (v : Option Nat)
  /-- The addresses of the rows read. -/
  | found (keys : List Address)
  | flag (b : Bool)
  | done
  | storeError (e : StoreError)
  | position (p : Option Nat)
  | oracleError
  | offsets (os : List Nat)
  | logError (e : LogError)

/-- What is written down of the answer to a store call. -/
def Heard.ofStore : (c : StoreCall) → Except StoreError c.Answer → Heard
  | _, .error e => storeError e
  | .find _, .ok row? => version (row?.map (·.version))
  | .findAll _, .ok rows => found rows.keys
  | .insert _, .ok b => flag b
  | .update _ _, .ok b => flag b
  | .settle _ _, .ok b => flag b
  | .remove _, .ok () => done

/-- A call with its answer. -/
structure Entry where
  asked : Asked
  heard : Heard := .nothing

/-- The consumer of a partition, or one that polls nothing and acknowledges
everything. -/
structure Consumer where
  /-- The partition, with the most records of a poll. -/
  source : Option (Partition × Nat) := none
  /-- The number of polls after which it only fails. -/
  pollLimit : Nat := 40

/-- The surroundings of a simulated engine. -/
structure World where
  store : MemoryStore := {}
  log : EventLog := {}
  /-- The oracle's positions, unless the log answers for it. -/
  oracle : Option (Table Partition Nat) := none
  /-- The script. -/
  rules : List Rule := []
  /-- The calls made since the script began, by name and party. -/
  counted : List (String × String) := []
  /-- The calls written down. -/
  entries : Array Entry := #[]
  /-- The places for apply loops, and whether batches are refused. -/
  pool : Pool := { size := 1 }
  line : Line := {}
  consumer : Consumer := {}
  /-- The polls of the consumer. -/
  polls : Nat := 0
  /-- The observers listen. -/
  observed : Bool := true
  /-- The events, the last one first. -/
  told : List Event := []
  metrics : Metrics := {}
  clock : Nat := 0

/-- A call under way: the milliseconds until it is answered, and what happens
then. -/
structure Onset (α : Type) where
  delay : Nat
  finish : World → World × Except Fault α

namespace World

/-- The world at the start of a new task: its clock at zero, nothing written down
or told, and a new line on which a stop may be signalled already. -/
def anew (w : World) (consumer : Consumer) (signalled : Bool) : World :=
  { w with
    entries := #[]
    told := []
    clock := 0
    polls := 0
    consumer
    line := { raised := signalled } }

/-- The world with another script, whose counts start from nothing. -/
def withScript (w : World) (rules : List Rule) : World := { w with rules, counted := [] }

/-- Settles a row whatever its version. -/
def settleRow (w : World) (key : Address) : World × Except Fault Unit :=
  match w.store.rows.get? key with
  | none => (w, .ok ())
  | some row =>
    match row.settle with
    | .ok row => ({ w with store := w.store.put row }, .ok ())
    | .error o => (w, .error (.overflow o))

/-- Settles rows one after another. -/
def settleRows (w : World) : List Address → World × Except Fault Unit
  | [] => (w, .ok ())
  | key :: keys =>
    match w.settleRow key with
    | (w, .ok ()) => w.settleRows keys
    | (w, .error f) => (w, .error f)

/-- Removes a row, unless the store is switched off. -/
def removeRow (w : World) (key : Address) : World :=
  if w.store.available then
    { w with store := { w.store with rows := w.store.rows.erase key } }
  else w

/-- The world after a disturbance. -/
def disturb (w : World) (d : Disturbance) : World × Except Fault Unit :=
  let w := { w with store := d.put.foldl .put w.store }
  match w.settleRows d.settle with
  | (w, .error f) => (w, .error f)
  | (w, .ok ()) =>
    let w := d.remove.foldl removeRow w
    let log := w.log.appendAll d.append
    ({ w with
        log := { log with failNext := log.failNext || d.failNextCommit }
        store := { w.store with
          available := match d.unavailable with
            | some off => !off
            | none => w.store.available }
        line :=
          let line := if d.signal then w.line.raise else w.line
          { line with dropped := line.dropped || d.dropSignal }
        pool := { w.pool with shutDown := w.pool.shutDown || d.shutDown } }, .ok ())

/-- The world after a call begins: the call is written down and the first rule
that fits it disturbs the world.  With it go the place of the call in the
writing, the rule, and the fault that the disturbance may have met. -/
def enter (w : World) (asked : Asked) : World × Nat × Option Rule × Except Fault Unit :=
  let call := asked.name
  let key := asked.party
  let counted := (call, key) :: w.counted
  let count := counted.count (call, key)
  let rule? := w.rules.find? fun r => r.Fits call key count
  let place := w.entries.size
  let w := { w with counted, entries := w.entries.push { asked } }
  match rule? with
  | none => (w, place, none, .ok ())
  | some r =>
    let (w, fault) := w.disturb r.disturbance
    (w, place, some r, fault)

/-- Writes down the answer to a call. -/
def hear (w : World) (place : Nat) (heard : Heard) : World :=
  { w with entries := w.entries.modify place fun e => { e with heard } }

/-- The store's own answer to a call, or the scripted one. -/
def serve (w : World) (rule? : Option Rule) (c : StoreCall) :
    World × Except Fault (Except StoreError c.Answer) :=
  match (rule?.bind (·.answer)).bind (yesOrNo? · c) with
  | some a => (w, .ok (.ok a))
  | none =>
    let (store, r) := w.store.perform c
    ({ w with store }, r)

/-- A store call is answered, and the answer written down. -/
def reply (w : World) (place : Nat) (c : StoreCall) :
    Except Fault (Except StoreError c.Answer) → World × Except Fault (Timed c.Answer)
  | .ok r => (w.hear place (.ofStore c r), .ok (.answered r))
  | .error f => (w, .error f)

/-- A store call begins.  It is late if its delay is longer than its deadline;
then, unless it takes effect early, it takes none. -/
def beginStore (w : World) (c : StoreCall) (deadline : Nat) : World × Onset (Timed c.Answer) :=
  let (w, place, rule?, fault) := w.enter (.store c)
  let crash (f : Fault) : Onset (Timed c.Answer) := ⟨0, fun w => (w, .error f)⟩
  let within (delay : Nat) (finish : World → World × Except Fault (Timed c.Answer)) :
      Onset (Timed c.Answer) :=
    if deadline < delay then ⟨deadline, fun w => (w, .ok .late)⟩ else ⟨delay, finish⟩
  match fault, rule? with
  | .error f, _ => (w, crash f)
  | .ok (), none =>
    (w, ⟨0, fun w =>
      let (w, r) := w.serve none c
      w.reply place c r⟩)
  | .ok (), some rule =>
    if rule.crashes then (w, crash .injected)
    else if rule.early then
      match w.serve (some rule) c with
      | (w, .error f) => (w, crash f)
      | (w, .ok r) =>
        let r := match rule.storeError? with
          | some e => .error e
          | none => r
        (w, within rule.delay fun w => w.reply place c (.ok r))
    else
      (w, within rule.delay fun w =>
        match rule.storeError? with
        | some e => w.reply place c (.ok (.error e))
        | none =>
          let (w, r) := w.serve (some rule) c
          w.reply place c r)

/-- The oracle's own answer. -/
def latestOffset (w : World) (p : Partition) : Option Nat :=
  match w.oracle with
  | some positions => positions.get? p
  | none => w.log.latestOffset p

/-- A question to the oracle begins. -/
def beginOracle (w : World) (p : Partition) :
    World × Onset (Except OracleError (Option Nat)) :=
  let (w, place, rule?, fault) := w.enter (.latestOffset p)
  match fault with
  | .error f => (w, ⟨0, fun w => (w, .error f)⟩)
  | .ok () =>
    let delay := (rule?.map (·.delay)).getD 0
    (w, ⟨delay, fun w =>
      match rule?.bind (·.fail) with
      | some _ => (w.hear place .oracleError, .ok (.error ⟨"scripted"⟩))
      | none =>
        let latest := w.latestOffset p
        (w.hear place (.position latest), .ok (.ok latest))⟩)

/-- A call of an apply loop begins. -/
def beginApply (w : World) : (c : ApplyCall) → World × Onset (applySignature.Answer c)
  | .store c deadline => w.beginStore c deadline
  | .latestOffset p => w.beginOracle p
  | .wait ms => (w, ⟨ms, fun w => (w, .ok ())⟩)

/-- A call of which the caller waits for the end. -/
def await {α : Type} : World × Onset α → World × Except Fault α
  | (w, onset) => onset.finish { w with clock := w.clock + onset.delay }

/-- The consumer polls. -/
def poll (w : World) : World × Except Fault (Except LogError (List Record)) :=
  let (w, place, rule?, fault) := w.enter .poll
  match fault with
  | .error f => (w, .error f)
  | .ok () =>
    let w := { w with polls := w.polls + 1 }
    let (w, r) : World × Except LogError (List Record) :=
      if w.consumer.pollLimit < w.polls then
        ({ w with line := w.line.raise }, .error (.pollFailed "poll limit"))
      else match rule?.bind (·.fail), w.consumer.source with
        | some reason, _ => (w, .error (.pollFailed reason))
        | none, some (p, maxBatch) => (w, w.log.poll p maxBatch)
        | none, none => (w, .ok [])
    match r with
    | .ok rs => (w.hear place (.offsets (rs.map (·.offset))), .ok r)
    | .error e => (w.hear place (.logError e), .ok r)

/-- The consumer acknowledges a batch. -/
def acknowledge (w : World) (b : Bounds) : World × Except Fault (Except LogError Unit) :=
  let (w, place, rule?, fault) := w.enter (.acknowledge b w.store.rows.values)
  match fault with
  | .error f => (w, .error f)
  | .ok () =>
    let (w, r) : World × Except LogError Unit :=
      match rule?.bind (·.fail), w.consumer.source with
      | some reason, _ => (w, .error (.commitFailed b.partition reason))
      | none, some (p, _) =>
        let (log, r) := w.log.acknowledgeAs p b
        ({ w with log }, r)
      | none, none => (w, .ok ())
    match r with
    | .ok () => (w.hear place .done, .ok r)
    | .error e => (w.hear place (.logError e), .ok r)

/-- The observers are told of an event. -/
def tell (w : World) (e : Event) : World :=
  if w.observed then { w with told := e :: w.told, metrics := w.metrics.record e } else w

end World

end Simulation

end ChainLedger
