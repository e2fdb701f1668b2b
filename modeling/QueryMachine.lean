import QueryMachine.Value.Preview
import QueryMachine.Value.Navigation
import QueryMachine.Native.Core
import QueryMachine.Native.Stock
import QueryMachine.Program.Builder
import QueryMachine.Program.Listing
import QueryMachine.Machine.Event
import QueryMachine.Session
import QueryMachine.Toml.Settings
import QueryMachine.Proofs.NativeTables
import QueryMachine.Proofs.Coherence
import QueryMachine.Proofs.Instructions
import QueryMachine.Proofs.Frames
import QueryMachine.Proofs.Dispatch
import QueryMachine.Proofs.Backtracking
import QueryMachine.Proofs.Handlers
import QueryMachine.Proofs.Calls
import QueryMachine.Proofs.Cancellation
import QueryMachine.Proofs.Closures
import QueryMachine.Proofs.PlainMachine
import QueryMachine.Proofs.PlainSimulation
import QueryMachine.Proofs.Navigation
import QueryMachine.Proofs.PathInvariant
import QueryMachine.Proofs.PathSoundness
import QueryMachine.Proofs.ControlFlow
import QueryMachine.Proofs.Items
import QueryMachine.Proofs.PathStarts
import QueryMachine.Proofs.PathBrackets
import QueryMachine.Proofs.Savepoints
import QueryMachine.Proofs.Arenas
import QueryMachine.Proofs.Resumption
import QueryMachine.Proofs.Backdrop
import QueryMachine.Proofs.Registers
import QueryMachine.Proofs.Isolation
import QueryMachine.Proofs.Configuration
import QueryMachine.Proofs.Sessions
import QueryMachine.Proofs.Termination
import QueryMachine.Proofs.CallOrder
import QueryMachine.Proofs.Alike
import QueryMachine.Proofs.AlikeInstructions
import QueryMachine.Proofs.HandlersFree
import QueryMachine.Proofs.SelfEquality
import QueryMachine.Proofs.Yields
import QueryMachine.Proofs.SoleScope
import QueryMachine.Proofs.PathCompleteness
import QueryMachine.Proofs.Iteration
import QueryMachine.Proofs.Accumulation
import QueryMachine.Proofs.EntryHandlers
import QueryMachine.Proofs.Generation
import QueryMachine.Proofs.ObjectConstruction
import QueryMachine.Proofs.Slicing
import QueryMachine.Proofs.Rendering
import QueryMachine.Proofs.Previews
import QueryMachine.Proofs.JsonReader
import QueryMachine.Proofs.RoundTrip
import QueryMachine.Proofs.EqualValues
import QueryMachine.Proofs.HiddenEntries
import QueryMachine.Proofs.BuilderHistory
import QueryMachine.Proofs.NativeIdentity
