import Spool.Bindings
import Spool.CommandLine
import Spool.Decimal.Layout
import Spool.Decimal.Reading
import Spool.Decimal.Shortest
import Spool.Disk
import Spool.Fault
import Spool.Fifo
import Spool.Heap.Audit
import Spool.Heap.Basic
import Spool.Heap.Collect
import Spool.Heap.Copy
import Spool.Heap.Inspect
import Spool.Heap.Object
import Spool.Heap.Picture
import Spool.Heap.Reflection
import Spool.Heap.Write
import Spool.HostError
import Spool.Id
import Spool.Library
import Spool.Machine.Basic
import Spool.Machine.Call
import Spool.Machine.Future
import Spool.Machine.Host
import Spool.Machine.Names
import Spool.Machine.Natives
import Spool.Machine.Run
import Spool.Machine.Spawn
import Spool.Machine.Step
import Spool.Machine.Tick
import Spool.Machine.Trace
import Spool.Main
import Spool.Native
import Spool.Op
import Spool.Path
import Spool.Pool.Basic
import Spool.Process.Basic
import Spool.Process.Context
import Spool.Process.Finish
import Spool.Process.Task
import Spool.Proofs.Act
import Spool.Proofs.Bindings
import Spool.Proofs.Heap.Atomic
import Spool.Proofs.Heap.Audit
import Spool.Proofs.Heap.Books
import Spool.Proofs.Heap.Calls
import Spool.Proofs.Heap.Collect
import Spool.Proofs.Heap.Copy
import Spool.Proofs.Heap.Edges
import Spool.Proofs.Heap.Faults
import Spool.Proofs.Heap.Futures
import Spool.Proofs.Heap.Gains
import Spool.Proofs.Heap.Laws
import Spool.Proofs.Heap.Lifetimes
import Spool.Proofs.Heap.Meeting
import Spool.Proofs.Heap.Moves
import Spool.Proofs.Heap.Pairings
import Spool.Proofs.Heap.Parents
import Spool.Proofs.Heap.Payloads
import Spool.Proofs.Heap.Roots
import Spool.Proofs.Heap.Slots
import Spool.Proofs.Heap.Trace
import Spool.Proofs.Heap.Twins
import Spool.Proofs.Heap.View
import Spool.Proofs.Heap.Writes
import Spool.Proofs.Machine.Basics
import Spool.Proofs.Machine.Burdens
import Spool.Proofs.Machine.Call
import Spool.Proofs.Machine.Conduct
import Spool.Proofs.Machine.Deeds
import Spool.Proofs.Machine.Errors
import Spool.Proofs.Machine.Glances
import Spool.Proofs.Machine.Going
import Spool.Proofs.Machine.Guarded
import Spool.Proofs.Machine.Instructions
import Spool.Proofs.Machine.Lawful
import Spool.Proofs.Machine.Manners
import Spool.Proofs.Machine.Motions
import Spool.Proofs.Machine.Moves
import Spool.Proofs.Machine.Names
import Spool.Proofs.Machine.Natives
import Spool.Proofs.Machine.Observance
import Spool.Proofs.Machine.Paces
import Spool.Proofs.Machine.Parts
import Spool.Proofs.Machine.Pledges
import Spool.Proofs.Machine.ReadBack
import Spool.Proofs.Machine.Receivers
import Spool.Proofs.Machine.Rooted
import Spool.Proofs.Machine.Rounds
import Spool.Proofs.Machine.Run
import Spool.Proofs.Machine.Solo
import Spool.Proofs.Machine.Spawn
import Spool.Proofs.Machine.Steady
import Spool.Proofs.Machine.Step
import Spool.Proofs.Machine.Strides
import Spool.Proofs.Machine.Sturdy
import Spool.Proofs.Machine.Suspensions
import Spool.Proofs.Machine.Tick
import Spool.Proofs.Machine.Tickets
import Spool.Proofs.Machine.Turns
import Spool.Proofs.Machine.TwinCalls
import Spool.Proofs.Machine.TwinNames
import Spool.Proofs.Machine.TwinSteps
import Spool.Proofs.Machine.TwinTurns
import Spool.Proofs.Machine.Twins
import Spool.Proofs.Machine.Unwinding
import Spool.Proofs.Machine.View
import Spool.Proofs.Pool
import Spool.Proofs.Pool.Interleavings
import Spool.Proofs.Process.Abides
import Spool.Proofs.Process.Anchored
import Spool.Proofs.Process.Arena
import Spool.Proofs.Process.Collect
import Spool.Proofs.Process.Finish
import Spool.Proofs.Process.Fit
import Spool.Proofs.Process.Framed
import Spool.Proofs.Process.Imports
import Spool.Proofs.Process.Intact
import Spool.Proofs.Process.Laws
import Spool.Proofs.Process.Ordered
import Spool.Proofs.Process.Outcomes
import Spool.Proofs.Process.Plain
import Spool.Proofs.Process.Positions
import Spool.Proofs.Process.Roster
import Spool.Proofs.Process.Schedule
import Spool.Proofs.Process.Stack
import Spool.Proofs.Process.Start
import Spool.Proofs.Process.Twins
import Spool.Proofs.Registry.Calm
import Spool.Proofs.Registry.Checked
import Spool.Proofs.Registry.Hierarchy
import Spool.Proofs.Registry.Published
import Spool.Proofs.Registry.Registration
import Spool.Proofs.Registry.Requests
import Spool.Proofs.Registry.Seeds
import Spool.Proofs.Registry.Underway
import Spool.Proofs.Symbol
import Spool.Proofs.Tape.Assembler
import Spool.Proofs.Tape.Crashes
import Spool.Proofs.Tape.Guarded
import Spool.Proofs.Tape.Layout
import Spool.Proofs.Tape.Lines
import Spool.Proofs.Tape.Literals
import Spool.Proofs.Tape.Placement
import Spool.Proofs.Tape.Spelling
import Spool.Proofs.World.Background
import Spool.Proofs.World.Balance
import Spool.Proofs.World.CallSites
import Spool.Proofs.World.CallStack
import Spool.Proofs.World.Children
import Spool.Proofs.World.Contexts
import Spool.Proofs.World.Dangling
import Spool.Proofs.World.Deadlock
import Spool.Proofs.World.Event
import Spool.Proofs.World.Failures
import Spool.Proofs.World.Futures
import Spool.Proofs.World.Headroom
import Spool.Proofs.World.History
import Spool.Proofs.World.Intact
import Spool.Proofs.World.Laws
import Spool.Proofs.World.Main
import Spool.Proofs.World.Modules
import Spool.Proofs.World.Moments
import Spool.Proofs.World.Names
import Spool.Proofs.World.Orderly
import Spool.Proofs.World.Payloads
import Spool.Proofs.World.Progress
import Spool.Proofs.World.Propagation
import Spool.Proofs.World.Returns
import Spool.Proofs.World.Singletons
import Spool.Proofs.World.Solo
import Spool.Proofs.World.Stranded
import Spool.Proofs.World.Suspended
import Spool.Proofs.World.Twins
import Spool.Proofs.World.Unwinding
import Spool.Proofs.World.Watched
import Spool.Registry.Basic
import Spool.Registry.Builtins
import Spool.Registry.Register
import Spool.Scalar.Arithmetic
import Spool.Scalar.Basic
import Spool.Symbol
import Spool.Tape.Assembler
import Spool.Tape.AssemblyError
import Spool.Tape.Basic
import Spool.Tape.Builder
import Spool.Tape.Check
import Spool.Tape.Guarded
import Spool.Tape.Listing
import Spool.Tape.Literal
import Spool.Tape.Statement
import Spool.Text.Basic
import Spool.Text.Hidden
import Spool.Text.Quoted
import Spool.Value
import Spool.World.Background
import Spool.World.Basic
import Spool.World.Event
import Spool.World.Main
