import DurableFlow.Data.Table
import DurableFlow.Data.Order
import DurableFlow.Data.FileTree
import DurableFlow.Failure
import DurableFlow.Number.Binary
import DurableFlow.Number.Shortest
import DurableFlow.Json.Basic
import DurableFlow.Json.Document
import DurableFlow.Json.Printer
import DurableFlow.Json.Reader
import DurableFlow.Text.Span
import DurableFlow.Text.Peg
import DurableFlow.Text.Alphanumeric
import DurableFlow.Text.Blank
import DurableFlow.Text.CharSet
import DurableFlow.Text.Printable
import DurableFlow.Text.Quoted
import DurableFlow.Text.Sha256
import DurableFlow.Text.Timestamp
import DurableFlow.Script.Syntax
import DurableFlow.Script.Grammar
import DurableFlow.Script.Parser
import DurableFlow.Script.Code
import DurableFlow.Script.Value
import DurableFlow.Script.Compile
import DurableFlow.Script.Machine
import DurableFlow.Script.Sandbox
import DurableFlow.Script.Codec
import DurableFlow.Script.SyntaxCodec
import DurableFlow.Config.Settings
import DurableFlow.Config.Toml
import DurableFlow.Config.EnvFile
import DurableFlow.Config.Load
import DurableFlow.Error
import DurableFlow.Attempt
import DurableFlow.History.Result
import DurableFlow.History.Node
import DurableFlow.History.Storage
import DurableFlow.History.Graph
import DurableFlow.Handle.Resolution
import DurableFlow.Program.Delivery
import DurableFlow.Program.Thread
import DurableFlow.Program.Live
import DurableFlow.Program.Saved
import DurableFlow.Program.Dump
import DurableFlow.Step.Basic
import DurableFlow.Step.Arguments
import DurableFlow.Step.Immediate
import DurableFlow.Step.Sleep
import DurableFlow.Step.Signal
import DurableFlow.Step.Block
import DurableFlow.Step.Parallel
import DurableFlow.Step.Standard
import DurableFlow.Execution.Record
import DurableFlow.Execution.Archive
import DurableFlow.Execution.State
import DurableFlow.Execution.History
import DurableFlow.Execution.Checkpoint
import DurableFlow.Execution.Request
import DurableFlow.Execution.Steps
import DurableFlow.Execution.Bodies
import DurableFlow.Execution.Threads
import DurableFlow.Execution.Stopping
import DurableFlow.Execution.Ending
import DurableFlow.Execution.Turn
import DurableFlow.Execution.Loading
import DurableFlow.Execution.Control
import DurableFlow.Execution.Inspect
import DurableFlow.Proofs.Delivery
import DurableFlow.Proofs.Data.Members
import DurableFlow.Proofs.Data.Table
import DurableFlow.Proofs.Text.Timestamp
import DurableFlow.Proofs.Json.Document
import DurableFlow.Proofs.Script.Evaluation
import DurableFlow.Proofs.Script.Placement
import DurableFlow.Proofs.Script.Conversation
import DurableFlow.Proofs.Script.Screening
import DurableFlow.Proofs.Script.Safepoints
import DurableFlow.Proofs.Script.Rejections
import DurableFlow.Proofs.Script.Simulation
import DurableFlow.Proofs.Script.Levels
import DurableFlow.Proofs.Script.Verification
import DurableFlow.Proofs.Script.Safety
import DurableFlow.Proofs.Script.Snapshots
import DurableFlow.Proofs.Script.Codec
import DurableFlow.Proofs.Program.Saved
import DurableFlow.Proofs.Step.Memory
import DurableFlow.Proofs.Step.Standard
import DurableFlow.Proofs.Scheduler.Frame
import DurableFlow.Proofs.Scheduler.Links
import DurableFlow.Proofs.Scheduler.Invariant
import DurableFlow.Proofs.Scheduler.Running
import DurableFlow.Proofs.Scheduler.Threads
import DurableFlow.Proofs.Scheduler.Lane
import DurableFlow.Proofs.Scheduler.Events
import DurableFlow.Proofs.Scheduler.Reachability
import DurableFlow.Proofs.Scheduler.Restoring
import DurableFlow.Proofs.Scheduler.Evolution
import DurableFlow.Proofs.History.Lines
import DurableFlow.Proofs.History.Growth
import DurableFlow.Proofs.History.Moves
import DurableFlow.Proofs.History.Order
import DurableFlow.Proofs.History.Closing
import DurableFlow.Proofs.History.Events
import DurableFlow.Proofs.History.Files
import DurableFlow.Proofs.History.Archive
import DurableFlow.Proofs.History.Scene
import DurableFlow.Proofs.History.Writing
import DurableFlow.Proofs.History.Ledger
import DurableFlow.Proofs.History.Reporting
import DurableFlow.Proofs.History.Calls
import DurableFlow.Proofs.History.Bodies
import DurableFlow.Proofs.History.Turns
import DurableFlow.Proofs.History.Finishing
import DurableFlow.Proofs.History.Ending
import DurableFlow.Proofs.History.Starting
import DurableFlow.Proofs.History.Resuming
import DurableFlow.Proofs.History.Runs
import DurableFlow.Proofs.Program.Upkeep
import DurableFlow.Proofs.Program.Reloading
import DurableFlow.Proofs.Program.Handles
import DurableFlow.Proofs.Cancellation.Alive
import DurableFlow.Proofs.Cancellation.Nesting
import DurableFlow.Proofs.Cancellation.Scopes
import DurableFlow.Proofs.Record.Changes
import DurableFlow.Proofs.Record.Courses
import DurableFlow.Proofs.Record.Files
import DurableFlow.Proofs.Record.Saving
import DurableFlow.Proofs.Record.Checkpoints
import DurableFlow.Proofs.Record.Suspension
import DurableFlow.Proofs.Record.Operations
import DurableFlow.Proofs.Record.Permissions
import DurableFlow.Proofs.Storage.Shelf
import DurableFlow.Proofs.Storage.Refinement
import DurableFlow.Proofs.Storage.Failures
import DurableFlow.Proofs.Step.Signals
import DurableFlow.Proofs.Record.Aftermath
import DurableFlow.Proofs.Record.Completion
import DurableFlow.Proofs.Text.Fuel
import DurableFlow.Proofs.Text.Reading
import DurableFlow.Proofs.Script.Rendering
import DurableFlow.Proofs.Script.Lexemes
import DurableFlow.Proofs.Script.Expressions
import DurableFlow.Proofs.Script.RoundTrip
import DurableFlow.Proofs.Json.Members
import DurableFlow.Proofs.History.Codec
import DurableFlow.Proofs.Record.Codec
import DurableFlow.Proofs.Record.Loading
import DurableFlow.Proofs.Record.Restarts
import DurableFlow.Proofs.Record.Usable
import DurableFlow.Proofs.Script.InPlace
import DurableFlow.Proofs.Scheduler.Rounds
import DurableFlow.Proofs.Scheduler.Limits
import DurableFlow.Proofs.Step.Branches
import DurableFlow.Proofs.Variables.Contained
import DurableFlow.Proofs.Variables.Descent
import DurableFlow.Proofs.Variables.Context
import DurableFlow.Proofs.Script.Jumps
import DurableFlow.Proofs.Script.Literals
import DurableFlow.Proofs.Text.Descriptions
import DurableFlow.Proofs.Script.Building
import DurableFlow.Proofs.Cancellation.Enclosing
import DurableFlow.Proofs.Storage.Migration
import DurableFlow.Proofs.Text.Spans
import DurableFlow.Proofs.History.Walks
import DurableFlow.Proofs.Script.Spans
