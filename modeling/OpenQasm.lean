import OpenQasm.Amplitude
import OpenQasm.Cli.Command
import OpenQasm.Cli.Respond
import OpenQasm.Config.JsonToken
import OpenQasm.Config.RunConfig
import OpenQasm.Expansion
import OpenQasm.Include.Expand
import OpenQasm.Include.FileSystem
import OpenQasm.Include.FileTree
import OpenQasm.Include.Path
import OpenQasm.Include.Reachable
import OpenQasm.Include.StandardGates
import OpenQasm.Linear.BitIndex
import OpenQasm.Linear.Error
import OpenQasm.Linear.Kernel
import OpenQasm.Linear.SquareMatrix
import OpenQasm.Linear.StateVector
import OpenQasm.Linear.Words
import OpenQasm.Main
import OpenQasm.Numeral.Binary64
import OpenQasm.Numeral.Decimal
import OpenQasm.Numeral.Places
import OpenQasm.Numeral.Rounding
import OpenQasm.Numeral.Shortest
import OpenQasm.Proofs.Acceptance
import OpenQasm.Proofs.Accepted
import OpenQasm.Proofs.Agreement
import OpenQasm.Proofs.Algebra
import OpenQasm.Proofs.Apart
import OpenQasm.Proofs.Applying
import OpenQasm.Proofs.Arithmetic
import OpenQasm.Proofs.Atomic
import OpenQasm.Proofs.Bits
import OpenQasm.Proofs.Blame
import OpenQasm.Proofs.Breaches
import OpenQasm.Proofs.Broadcast
import OpenQasm.Proofs.Calling
import OpenQasm.Proofs.Circuits
import OpenQasm.Proofs.Comparison
import OpenQasm.Proofs.Composition
import OpenQasm.Proofs.Conservation
import OpenQasm.Proofs.Controlled
import OpenQasm.Proofs.Disjoint
import OpenQasm.Proofs.Embedding
import OpenQasm.Proofs.Exact
import OpenQasm.Proofs.Expressions
import OpenQasm.Proofs.Failure
import OpenQasm.Proofs.Fallible
import OpenQasm.Proofs.Faults
import OpenQasm.Proofs.Grammar
import OpenQasm.Proofs.History
import OpenQasm.Proofs.Hoisting
import OpenQasm.Proofs.InBounds
import OpenQasm.Proofs.Inlining
import OpenQasm.Proofs.Instantiation
import OpenQasm.Proofs.Kernel
import OpenQasm.Proofs.Layout
import OpenQasm.Proofs.Legal
import OpenQasm.Proofs.Lift
import OpenQasm.Proofs.Lines
import OpenQasm.Proofs.Location
import OpenQasm.Proofs.Mass
import OpenQasm.Proofs.Munch
import OpenQasm.Proofs.Names
import OpenQasm.Proofs.Nearest
import OpenQasm.Proofs.Nesting
import OpenQasm.Proofs.NoSignalling
import OpenQasm.Proofs.Numerals
import OpenQasm.Proofs.Pinpoint.Programs
import OpenQasm.Proofs.Placement
import OpenQasm.Proofs.Printing
import OpenQasm.Proofs.Programs
import OpenQasm.Proofs.Projection
import OpenQasm.Proofs.Reading
import OpenQasm.Proofs.Rearrangement
import OpenQasm.Proofs.Recursion
import OpenQasm.Proofs.Relocation
import OpenQasm.Proofs.Remaining
import OpenQasm.Proofs.Rereading
import OpenQasm.Proofs.Resetting
import OpenQasm.Proofs.Resolution
import OpenQasm.Proofs.Room
import OpenQasm.Proofs.Rotations
import OpenQasm.Proofs.Saving
import OpenQasm.Proofs.Scatter
import OpenQasm.Proofs.Scopes
import OpenQasm.Proofs.Selection
import OpenQasm.Proofs.Spelling
import OpenQasm.Proofs.Splicing
import OpenQasm.Proofs.Spread
import OpenQasm.Proofs.Stability
import OpenQasm.Proofs.StandardLibrary
import OpenQasm.Proofs.Statements
import OpenQasm.Proofs.Stepwise
import OpenQasm.Proofs.Success
import OpenQasm.Proofs.Support
import OpenQasm.Proofs.Tracing
import OpenQasm.Proofs.Tracking
import OpenQasm.Proofs.Undoing
import OpenQasm.Proofs.Unitary
import OpenQasm.Proofs.Untouched
import OpenQasm.Proofs.Widths
import OpenQasm.Proofs.Words
import OpenQasm.Quantum.Building
import OpenQasm.Quantum.Error
import OpenQasm.Quantum.Gate
import OpenQasm.Quantum.Guarded
import OpenQasm.Quantum.Machine
import OpenQasm.Quantum.Procedure
import OpenQasm.Quantum.Register
import OpenQasm.Random.ChaCha
import OpenQasm.Report.Listing
import OpenQasm.Report.Snapshot
import OpenQasm.Run.Evaluate
import OpenQasm.Run.Executor
import OpenQasm.Run.Instantiate
import OpenQasm.Run.Procedure
import OpenQasm.Run.Simulate
import OpenQasm.Scalar
import OpenQasm.Scope.Check
import OpenQasm.Scope.Error
import OpenQasm.Scope.Symbol
import OpenQasm.Scope.SymbolTable
import OpenQasm.Syntax.Error
import OpenQasm.Syntax.Expr
import OpenQasm.Syntax.Parse.Basic
import OpenQasm.Syntax.Parse.Expr
import OpenQasm.Syntax.Parse.Program
import OpenQasm.Syntax.Parse.Statement
import OpenQasm.Syntax.Position
import OpenQasm.Syntax.Program
import OpenQasm.Syntax.Scan
import OpenQasm.Syntax.Token
