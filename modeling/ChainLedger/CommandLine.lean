import ChainLedger.CommandLine.Request
import ChainLedger.Json.Writer
import ChainLedger.Replay
import ChainLedger.Settings.Environment

/-!
# The command line

What the program prints for the words of a command line, the variables of the
environment and the files: the rows of a replay as JSON, or the settings as
TOML.  Whatever goes wrong is found in this order: the words, the settings, the
addresses asked for, the batch size, the input file, its lines, the replay.
-/

namespace ChainLedger

namespace CommandLine

/-- What a path leads to. -/
inductive File
  | text (s : String)
  | directory
  | missing
deriving DecidableEq, Repr

/-- What goes wrong with a request. -/
inductive Problem
  /-- The settings cannot be had from their file and the environment. -/
  | settingsFile (path : String)
  /-- The settings cannot be had from the environment. -/
  | environment
  /-- A text that should be an address is none. -/
  | badAddress (text : String)
  /-- The engine cannot run with the batch size. -/
  | settings (e : SettingsError)
  /-- The input cannot be opened. -/
  | input (path : String)
  /-- The input is a directory. -/
  | directory
  /-- A line of the input is no record. -/
  | badRecord (path : String) (line : Nat)
  /-- A partition could not be drained. -/
  | drain (p : Partition)
  /-- A setting is larger than TOML can hold. -/
  | outOfRange
deriving DecidableEq, Repr

namespace Problem

/-- The text of a problem. -/
def message : Problem → String
  | settingsFile path => "loading " ++ path
  | environment => "reading environment"
  | badAddress text => "invalid address " ++ text
  | settings e => e.message
  | input path => "opening " ++ path
  | directory => "Is a directory (os error 21)"
  | badRecord path line => path ++ ":" ++ toString line ++ ": invalid record"
  | drain p => "draining " ++ p.render
  | outOfRange => "out-of-range value for u64 type"

end Problem

/-- How the program ends. -/
inductive Ending
  /-- It prints a text. -/
  | printed (s : String)
  | failed (p : Problem)
  | refused (r : Refusal)
  /-- It is stopped by a fault. -/
  | crashed (f : Fault)
deriving DecidableEq

namespace Ending

/-- The exit code. -/
def code : Ending → Nat
  | printed _ | refused .help => 0
  | failed _ => 1
  | refused .misuse => 2
  | crashed _ => 101

/-- The text printed. -/
def output : Ending → String
  | printed s => s
  | failed _ | refused _ | crashed _ => ""

/-- The text of the problem. -/
def failure? : Ending → Option String
  | failed p => some p.message
  | printed _ | refused _ | crashed _ => none

end Ending

/-- The settings of a request. -/
def settings (path? : Option String) (env : Environment) (files : String → File) :
    Except Problem Settings :=
  match path? with
  | none => (Settings.withEnvironment {} env).mapError fun _ => .environment
  | some path =>
    match files path with
    | .text s => (Settings.load s env).mapError fun _ => .settingsFile path
    | .directory | .missing => .error (.settingsFile path)

/-- The addresses of some texts. -/
def addresses (texts : List String) : Except Problem (List Address) :=
  texts.mapM fun text =>
    match Address.parse? text with
    | some a => .ok a
    | none => .error (.badAddress text)

/-- The text of a file of records. -/
def input (path : String) (files : String → File) : Except Problem String :=
  match files path with
  | .text s => .ok s
  | .directory => .error .directory
  | .missing => .error (.input path)

/-- How a replay is reported. -/
def report (path : String) (only : List Address) : Except Replay.Stop (List Row) → Ending
  | .ok rows =>
    let rows := rows.filter fun r => only.isEmpty || only.contains r.key
    .printed (Json.pretty (.arr (rows.map Replay.toJson)) ++ "\n")
  | .error (.badRecord line) => .failed (.badRecord path line)
  | .error (.failed p _) => .failed (.drain p)
  | .error (.fault f) => .crashed f

/-- Carries out a request. -/
def perform (r : Request) (env : Environment) (files : String → File) :
    Except Problem Ending := do
  let s ← settings r.settingsPath env files
  match r.command with
  | .settings =>
    match s.render? with
    | some text => return .printed text
    | none => throw .outOfRange
  | .replay path batchSize texts =>
    let only ← addresses texts
    let s ← { s with batchSize := batchSize.getD s.batchSize }.check.mapError .settings
    let text ← input path files
    return report path only (Replay.rows s text)

/-- How the program ends for a command line. -/
def run (words : List String) (env : Environment) (files : String → File) : Ending :=
  match Request.ofWords words with
  | .error r => .refused r
  | .ok r =>
    match perform r env files with
    | .ok e => e
    | .error p => .failed p

/-- The files that a command line names. -/
def paths (words : List String) : List String :=
  match Request.ofWords words with
  | .error _ => []
  | .ok r =>
    r.settingsPath.toList ++
      match r.command with
      | .replay path _ _ => [path]
      | .settings => []

end CommandLine

end ChainLedger
