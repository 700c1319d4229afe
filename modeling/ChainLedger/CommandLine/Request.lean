import ChainLedger.Text.Decimal

/-!
# Requests on the command line

The words of a command line are options, the name of a command, and the options
of that command.  An option's value is attached to it or is the next word, which
then is no option itself.  The settings file may be named before the command and
after it; the place after it counts.
-/

namespace ChainLedger

namespace CommandLine

/-- What is asked for. -/
inductive Command
  /-- To replay a file of records and to print the rows, all or some. -/
  | replay (input : String) (batchSize : Option Nat) (addresses : List String)
  /-- To print the settings. -/
  | settings
deriving DecidableEq, Repr

/-- A command, with the settings file if one is named. -/
structure Request where
  settingsPath : Option String
  command : Command
deriving DecidableEq, Repr

/-- Why the words are no request. -/
inductive Refusal
  /-- Help is asked for. -/
  | help
  /-- They cannot be understood. -/
  | misuse
deriving DecidableEq, Repr

/-- An option that takes a value. -/
inductive Flag
  | settingsPath
  | input
  | batchSize
  | address
deriving DecidableEq, Repr

/-- Whose options are read. -/
inductive Level
  | top
  | replay
  | settings
deriving DecidableEq, Repr

namespace Flag

/-- The long name of an option. -/
def name : Flag → String
  | settingsPath => "config"
  | input => "input"
  | batchSize => "batch-size"
  | address => "address"

/-- The letter of an option. -/
def letter : Flag → Char
  | settingsPath => 'c'
  | input => 'i'
  | batchSize => 'b'
  | address => 'a'

end Flag

/-- The options at a level, apart from the one that asks for help. -/
def Level.flags : Level → List Flag
  | top | settings => [.settingsPath]
  | replay => [.settingsPath, .input, .batchSize, .address]

/-- A word of the command line. -/
inductive Arg
  /-- `--name`, or `--name=value`. -/
  | long (name : String) (value : Option String)
  /-- `-x`, with what is attached to it. -/
  | short (letter : Char) (attached : List Char)
  /-- `--`, after which no word is an option. -/
  | terminator
  | plain (s : String)
deriving DecidableEq, Repr

/-- What a word is. -/
def Arg.ofString (s : String) : Arg :=
  match s.toList with
  | ['-', '-'] => .terminator
  | '-' :: '-' :: cs =>
    let name := String.ofList (cs.takeWhile (· ≠ '='))
    match cs.dropWhile (· ≠ '=') with
    | [] => .long name none
    | _ :: value => .long name (some (String.ofList value))
  | '-' :: c :: cs => .short c cs
  | _ => .plain s

/-- The value attached to a letter, after an equals sign perhaps. -/
def attachedValue? : List Char → Option String
  | [] => none
  | '=' :: cs => some (String.ofList cs)
  | cs => some (String.ofList cs)

/-- The values of the options so far. -/
structure Options where
  settingsPath : Option String := none
  input : Option String := none
  batchSize : Option Nat := none
  addresses : List String := []
deriving DecidableEq, Repr

namespace Options

/-- Sets an option to a value.  Only addresses may be given again, and a path is
not empty. -/
def set (o : Options) (flag : Flag) (value : String) : Except Refusal Options :=
  match flag with
  | .settingsPath =>
    if o.settingsPath.isSome ∨ value = "" then .error .misuse
    else .ok { o with settingsPath := some value }
  | .input =>
    if o.input.isSome ∨ value = "" then .error .misuse
    else .ok { o with input := some value }
  | .batchSize =>
    match o.batchSize, Decimal.unsigned? 64 value with
    | none, some n => .ok { o with batchSize := some n }
    | _, _ => .error .misuse
  | .address => .ok { o with addresses := o.addresses ++ [value] }

/-- The options at the front of some words, and the words from the first one on
that is neither option nor value. -/
def read (level : Level) : List String → Options → Except Refusal (Options × List String)
  | [], o => .ok (o, [])
  | w :: ws, o => do
    let (flag?, value?) ←
      match Arg.ofString w with
      | .plain _ => return (o, w :: ws)
      | .terminator => if ws.isEmpty then return (o, []) else throw .misuse
      | .long name value =>
        if name = "help" then throw (if value.isNone then .help else .misuse)
        else pure (level.flags.find? fun f => f.name = name, value)
      | .short letter attached =>
        if letter = 'h' then throw .help
        else pure (level.flags.find? fun f => f.letter = letter, attachedValue? attached)
    match flag?, value? with
    | none, _ => throw .misuse
    | some flag, some value => read level ws (← o.set flag value)
    | some flag, none =>
      match ws with
      | [] => throw .misuse
      | v :: ws =>
        match Arg.ofString v with
        | .plain _ => read level ws (← o.set flag v)
        | .long .. | .short .. | .terminator => throw .misuse

/-- All options of some words. -/
def readAll (level : Level) (ws : List String) : Except Refusal Options := do
  match ← read level ws {} with
  | (o, []) => return o
  | (_, _ :: _) => throw .misuse

end Options

/-- The request of some words. -/
def Request.ofWords (ws : List String) : Except Refusal Request := do
  let (top, rest) ← Options.read .top ws {}
  match rest with
  | [] => throw .misuse
  | name :: rest =>
    if name = "replay" then
      let o ← Options.readAll .replay rest
      match o.input with
      | none => throw .misuse
      | some input =>
        return {
          settingsPath := o.settingsPath <|> top.settingsPath
          command := .replay input o.batchSize o.addresses }
    else if name = "config" then
      let o ← Options.readAll .settings rest
      return { settingsPath := o.settingsPath <|> top.settingsPath, command := .settings }
    else if name = "help" then
      if rest = [] ∨ rest ∈ [["replay"], ["config"], ["help"]] then throw .help
      else throw .misuse
    else throw .misuse

end CommandLine

end ChainLedger
