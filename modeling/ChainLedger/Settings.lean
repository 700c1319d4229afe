/-!
# Settings

The tunables of the engine, their default values and the values it cannot run
with; and the policy that one address's apply loop works under.
-/

namespace ChainLedger

/-- When an in-doubt row of another partition may be written over, given that
partition's committed position, which is the next offset to be consumed. -/
inductive TakeoverRule
  /-- The committed position is past the row's offset. -/
  | past
  /-- The committed position has reached the row's offset. -/
  | reached
deriving DecidableEq, Repr

namespace TakeoverRule

/-- Whether a committed position lets a row at an offset be written over. -/
def allows : TakeoverRule → Option Nat → Nat → Bool
  | _, none, _ => false
  | past, some committed, offset => offset < committed
  | reached, some committed, offset => offset ≤ committed

/-- The name of a rule. -/
def name : TakeoverRule → String
  | past => "strictly_greater"
  | reached => "greater_or_equal"

/-- The rule of a name. -/
def ofName? (s : String) : Option TakeoverRule :=
  if s = past.name then some past
  else if s = reached.name then some reached
  else none

end TakeoverRule

/-- The tunables of the engine; times are in milliseconds. -/
structure Settings where
  /-- Addresses of one batch worked on at the same time. -/
  workers : Nat := 8
  /-- Back-offs and missed deadlines allowed to one address. -/
  attempts : Nat := 20
  /-- Lost compare-and-swaps allowed to one address. -/
  conflicts : Nat := 100
  /-- The back-off before a row in doubt is read again. -/
  retryDelay : Nat := 30
  /-- The deadline of one store call. -/
  callTimeout : Nat := 5000
  /-- The pause after a failed batch. -/
  errorBackoff : Nat := 1000
  /-- The pause when nothing is pending. -/
  pollInterval : Nat := 100
  /-- The most records in one batch. -/
  batchSize : Nat := 500
  /-- When another partition's row may be written over. -/
  takeover : TakeoverRule := .past
  /-- The filter of the diagnostic output. -/
  logLevel : String := "info"
deriving DecidableEq, Repr

/-- A setting that has to be positive. -/
inductive Positive
  | workers
  | attempts
  | conflicts
  | callTimeout
  | batchSize
deriving DecidableEq, Repr

namespace Positive

/-- The name of the setting. -/
def name : Positive → String
  | workers => "worker_threads"
  | attempts => "max_store_attempts"
  | conflicts => "max_cas_conflicts"
  | callTimeout => "store_call_timeout_ms"
  | batchSize => "max_batch_size"

/-- The value of the setting. -/
def value (s : Settings) : Positive → Nat
  | workers => s.workers
  | attempts => s.attempts
  | conflicts => s.conflicts
  | callTimeout => s.callTimeout
  | batchSize => s.batchSize

/-- All settings that have to be positive, in the order they are checked. -/
def all : List Positive := [workers, attempts, conflicts, callTimeout, batchSize]

end Positive

/-- Why settings cannot be had. -/
inductive SettingsError
  /-- The file cannot be read. -/
  | unreadable (path : String)
  /-- The file is no TOML text, or a setting in it has the wrong type. -/
  | malformed
  /-- A variable of the environment has no value of its kind. -/
  | badVariable (name value : String)
  /-- The engine cannot run with the value zero. -/
  | zero (setting : Positive)
deriving DecidableEq, Repr

namespace Settings

/-- The first setting that is zero although it must not be. -/
def firstZero? (s : Settings) : Option Positive := Positive.all.find? fun p => p.value s = 0

/-- The engine can run with the settings. -/
def Valid (s : Settings) : Prop := ∀ p ∈ Positive.all, 0 < p.value s

instance (s : Settings) : Decidable s.Valid := inferInstanceAs (Decidable (∀ _ ∈ _, _))

/-- The settings, unless the engine cannot run with them. -/
def check (s : Settings) : Except SettingsError Settings :=
  match s.firstZero? with
  | some p => .error (.zero p)
  | none => .ok s

end Settings

/-- The bounds and times of one address's apply loop.  The bounds come from settings
of 32 bits, but what is counted against them has no width.  A count of 32 bits is
the same number, except under a bound that is the greatest number of 32 bits: the
count after it would not fit. -/
structure Policy where
  attempts : Nat
  conflicts : Nat
  retryDelay : Nat
  deadline : Nat
  takeover : TakeoverRule
deriving DecidableEq, Repr

namespace Settings

/-- The policy of the apply loops. -/
def policy (s : Settings) : Policy where
  attempts := s.attempts
  conflicts := s.conflicts
  retryDelay := s.retryDelay
  deadline := s.callTimeout
  takeover := s.takeover

end Settings

end ChainLedger
