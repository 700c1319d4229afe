import ChainLedger.Address
import ChainLedger.Apply
import ChainLedger.Backend
import ChainLedger.Batch
import ChainLedger.CommandLine
import ChainLedger.CommandLine.Request
import ChainLedger.Delta
import ChainLedger.EventLog
import ChainLedger.Failure
import ChainLedger.Json
import ChainLedger.Json.Reader
import ChainLedger.Json.Writer
import ChainLedger.Main
import ChainLedger.Merge
import ChainLedger.Metrics
import ChainLedger.Overflow
import ChainLedger.Pool
import ChainLedger.Position
import ChainLedger.Program
import ChainLedger.Proofs.Accounts
import ChainLedger.Proofs.Acknowledging
import ChainLedger.Proofs.AddressText
import ChainLedger.Proofs.Advancing
import ChainLedger.Proofs.Alone
import ChainLedger.Proofs.Appending
import ChainLedger.Proofs.ApplyLoop
import ChainLedger.Proofs.Attempts
import ChainLedger.Proofs.Budgets
import ChainLedger.Proofs.Calls
import ChainLedger.Proofs.Cells
import ChainLedger.Proofs.Changes
import ChainLedger.Proofs.Chronicle
import ChainLedger.Proofs.Concluding
import ChainLedger.Proofs.Contention
import ChainLedger.Proofs.Counters
import ChainLedger.Proofs.Course
import ChainLedger.Proofs.Cutting
import ChainLedger.Proofs.Delivery
import ChainLedger.Proofs.Deriving
import ChainLedger.Proofs.Dialogue
import ChainLedger.Proofs.Draining
import ChainLedger.Proofs.Emptying
import ChainLedger.Proofs.Execution
import ChainLedger.Proofs.Feeding
import ChainLedger.Proofs.Finalizing
import ChainLedger.Proofs.Gauge
import ChainLedger.Proofs.Grouping
import ChainLedger.Proofs.Healing
import ChainLedger.Proofs.Interleaving
import ChainLedger.Proofs.JsonText
import ChainLedger.Proofs.Lookup
import ChainLedger.Proofs.Marks
import ChainLedger.Proofs.Matching
import ChainLedger.Proofs.Memory
import ChainLedger.Proofs.Merging
import ChainLedger.Proofs.Offsets
import ChainLedger.Proofs.Once
import ChainLedger.Proofs.Orders
import ChainLedger.Proofs.Overflowing
import ChainLedger.Proofs.Overriding
import ChainLedger.Proofs.Passes
import ChainLedger.Proofs.Phases
import ChainLedger.Proofs.Places
import ChainLedger.Proofs.Plan
import ChainLedger.Proofs.Polling
import ChainLedger.Proofs.Ports
import ChainLedger.Proofs.Processing
import ChainLedger.Proofs.Progress
import ChainLedger.Proofs.RecordText
import ChainLedger.Proofs.Redelivery
import ChainLedger.Proofs.Reference
import ChainLedger.Proofs.Refusals
import ChainLedger.Proofs.Rely
import ChainLedger.Proofs.Repeating
import ChainLedger.Proofs.Replacing
import ChainLedger.Proofs.Replaying
import ChainLedger.Proofs.Rereading
import ChainLedger.Proofs.Results
import ChainLedger.Proofs.Retracting
import ChainLedger.Proofs.Rewinding
import ChainLedger.Proofs.Rivals
import ChainLedger.Proofs.Scene
import ChainLedger.Proofs.Schedules
import ChainLedger.Proofs.Seating
import ChainLedger.Proofs.Seclusion
import ChainLedger.Proofs.Serving
import ChainLedger.Proofs.Sessions
import ChainLedger.Proofs.Settling
import ChainLedger.Proofs.Shutdown
import ChainLedger.Proofs.Site
import ChainLedger.Proofs.Sparing
import ChainLedger.Proofs.Spreading
import ChainLedger.Proofs.Stages
import ChainLedger.Proofs.Sum
import ChainLedger.Proofs.Surroundings
import ChainLedger.Proofs.System
import ChainLedger.Proofs.Telling
import ChainLedger.Proofs.Timekeeping
import ChainLedger.Proofs.Times
import ChainLedger.Proofs.Timetable
import ChainLedger.Proofs.Transcript
import ChainLedger.Proofs.Turns
import ChainLedger.Proofs.Undoing
import ChainLedger.Proofs.Vanishing
import ChainLedger.Proofs.Verdict
import ChainLedger.Proofs.Watching
import ChainLedger.Record
import ChainLedger.Record.Effect
import ChainLedger.Record.Format
import ChainLedger.Replay
import ChainLedger.Row
import ChainLedger.Service
import ChainLedger.Settings
import ChainLedger.Settings.Environment
import ChainLedger.Settings.Format
import ChainLedger.Simulation.Run
import ChainLedger.Simulation.Script
import ChainLedger.Simulation.World
import ChainLedger.Store
import ChainLedger.Store.Memory
import ChainLedger.Table
import ChainLedger.Text.Blank
import ChainLedger.Text.Decimal
import ChainLedger.Text.Quoted
import ChainLedger.Text.Scientific
import ChainLedger.Text.Unprintable
import ChainLedger.Text.Uppercase
import ChainLedger.Toml
import ChainLedger.Toml.Lexeme
import ChainLedger.Toml.Reader
import ChainLedger.Toml.Writer
import ChainLedger.Topic
import ChainLedger.Totals
import ChainLedger.Width
import ChainLedger.Word
