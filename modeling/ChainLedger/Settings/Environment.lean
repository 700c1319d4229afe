import ChainLedger.Settings.Format
import ChainLedger.Text.Blank

/-!
# Settings and the environment

A variable of the environment replaces the setting that it names.  Settings come
from a TOML text or from their defaults, then from the variables; they are
checked before and after the variables are looked at.
-/

namespace ChainLedger

/-- The variables that are set, by name. -/
abbrev Environment := String → Option String

/-- A variable that replaces a setting. -/
structure Variable where
  name : String
  /-- The settings with the value of a text, if the text is one. -/
  assign? : String → Settings → Option Settings

namespace Variable

/-- A variable that holds an unsigned number of at most `bits` bits, with blanks
around it perhaps. -/
def number (name : String) (bits : Nat) (set : Nat → Settings → Settings) : Variable where
  name := name
  assign? text s := (Decimal.unsigned? bits (Text.trim text)).map fun n => set n s

/-- The rule of a name or short name, in letters of either case. -/
def rule? (text : String) : Option TakeoverRule :=
  let s := text.map Char.toLower
  if s = "gt" then some .past
  else if s = "ge" then some .reached
  else TakeoverRule.ofName? s

/-- The variables, in the order they are looked at. -/
def all : List Variable := [
  number "QC_RECON_WORKER_THREADS" 64 fun n s => { s with workers := n },
  number "QC_RECON_MAX_STORE_ATTEMPTS" 32 fun n s => { s with attempts := n },
  number "QC_RECON_MAX_CAS_CONFLICTS" 32 fun n s => { s with conflicts := n },
  number "QC_RECON_STORE_RETRY_DELAY_MS" 64 fun n s => { s with retryDelay := n },
  number "QC_RECON_STORE_CALL_TIMEOUT_MS" 64 fun n s => { s with callTimeout := n },
  number "QC_RECON_ERROR_BACKOFF_MS" 64 fun n s => { s with errorBackoff := n },
  number "QC_RECON_POLL_INTERVAL_MS" 64 fun n s => { s with pollInterval := n },
  number "QC_RECON_MAX_BATCH_SIZE" 64 fun n s => { s with batchSize := n },
  { name := "QC_RECON_FORCE_APPLY_RULE"
    assign? := fun text s => (rule? text).map fun takeover => { s with takeover } }]

/-- The variables of the log filter, the first one that is set counting. -/
def logLevels : List String := ["QC_LOG_LEVEL", "RUST_LOG"]

/-- The names of all variables that are looked at. -/
def names : List String := all.map (·.name) ++ logLevels

/-- The settings with the value of a variable, if it is set. -/
def override (env : Environment) (s : Settings) (v : Variable) : Except SettingsError Settings :=
  match env v.name with
  | none => .ok s
  | some text =>
    match v.assign? text s with
    | some s => .ok s
    | none => .error (.badVariable v.name text)

end Variable

namespace Settings

/-- The settings with the values of all variables that are set. -/
def withEnvironment (s : Settings) (env : Environment) : Except SettingsError Settings := do
  let s ← Variable.all.foldlM (Variable.override env) s
  let s :=
    match Variable.logLevels.findSome? env with
    | some logLevel => { s with logLevel }
    | none => s
  s.check

/-- The settings of a TOML text and the variables. -/
def load (text : String) (env : Environment) : Except SettingsError Settings := do
  (← parse text).withEnvironment env

end Settings

end ChainLedger
