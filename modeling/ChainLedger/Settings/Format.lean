import ChainLedger.Settings
import ChainLedger.Text.Quoted
import ChainLedger.Toml.Reader
import ChainLedger.Toml.Writer

/-!
# The format of settings

Settings as a TOML text: one key a setting.  When a text is read, a setting that
is missing has its default value, and keys that name no setting are ignored.
-/

namespace ChainLedger

namespace SettingsError

/-- The text of a settings error. -/
def message : SettingsError → String
  | unreadable path => "Failed to read config file " ++ path
  | malformed => "Failed to parse config"
  | badVariable name value => "Invalid value for " ++ name ++ ": " ++ Text.quoted value
  | zero setting => "Invalid config: " ++ setting.name ++ " must be > 0"

end SettingsError

namespace Toml

/-- The unsigned number of at most `bits` bits. -/
def natural? (bits : Nat) : Toml → Option Nat
  | integer (.ofNat n) => if FitsUnsigned bits n then some n else none
  | integer (.negSucc _) | string _ | real | boolean _ | moment | array _ | table _ _
  | tables _ => none

/-- The text of a string. -/
def text? : Toml → Option String
  | string s => some s
  | integer _ | real | boolean _ | moment | array _ | table _ _ | tables _ => none

/-- The value holds nothing. -/
def isEmpty : Toml → Bool
  | array items => items.isEmpty
  | table _ entries => entries.isEmpty
  | tables items => items.isEmpty
  | string _ | integer _ | real | boolean _ | moment => false

/-- The name that a string, or a table with an empty value of that name, gives. -/
def name? : Toml → Option String
  | string s => some s
  | table _ [(name, v)] => if v.isEmpty then some name else none
  | integer _ | real | boolean _ | moment | array _ | table _ _ | tables _ => none

/-- The value of a key as `read?` reads it; a key that is missing has the value
`default`. -/
def Entries.column? {α : Type} (es : Entries) (key : String) (read? : Toml → Option α)
    (default : α) : Option α :=
  match es.get? key with
  | some v => read? v
  | none => some default

end Toml

namespace Settings

/-- The settings of some entries. -/
def ofEntries? (es : Toml.Entries) : Option Settings := do
  let d : Settings := {}
  return {
    workers := ← es.column? "worker_threads" (Toml.natural? 64) d.workers
    attempts := ← es.column? "max_store_attempts" (Toml.natural? 32) d.attempts
    conflicts := ← es.column? "max_cas_conflicts" (Toml.natural? 32) d.conflicts
    retryDelay := ← es.column? "store_retry_delay_ms" (Toml.natural? 64) d.retryDelay
    callTimeout := ← es.column? "store_call_timeout_ms" (Toml.natural? 64) d.callTimeout
    errorBackoff := ← es.column? "error_backoff_ms" (Toml.natural? 64) d.errorBackoff
    pollInterval := ← es.column? "poll_interval_ms" (Toml.natural? 64) d.pollInterval
    batchSize := ← es.column? "max_batch_size" (Toml.natural? 64) d.batchSize
    takeover := ← es.column? "force_apply_rule"
      (fun v => do TakeoverRule.ofName? (← v.name?)) d.takeover
    logLevel := ← es.column? "log_level" Toml.text? d.logLevel }

/-- The settings of a TOML text, which the engine can run with. -/
def parse (text : String) : Except SettingsError Settings :=
  match (Toml.parse? text).bind ofEntries? with
  | some s => s.check
  | none => .error .malformed

/-- A number as TOML can hold it: the half of 64 bits that is not negative. -/
def numberText? (n : Nat) : Option String :=
  if FitsUnsigned 63 n then some (toString n) else none

/-- The settings as a TOML text, if TOML can hold their numbers. -/
def render? (s : Settings) : Option String := do
  return String.join [
    Toml.line "worker_threads" (← numberText? s.workers),
    Toml.line "max_store_attempts" (← numberText? s.attempts),
    Toml.line "max_cas_conflicts" (← numberText? s.conflicts),
    Toml.line "store_retry_delay_ms" (← numberText? s.retryDelay),
    Toml.line "store_call_timeout_ms" (← numberText? s.callTimeout),
    Toml.line "error_backoff_ms" (← numberText? s.errorBackoff),
    Toml.line "poll_interval_ms" (← numberText? s.pollInterval),
    Toml.line "max_batch_size" (← numberText? s.batchSize),
    Toml.line "force_apply_rule" (Toml.write s.takeover.name),
    Toml.line "log_level" (Toml.write s.logLevel)]

end Settings

end ChainLedger
