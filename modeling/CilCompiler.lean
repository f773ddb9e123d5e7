import CilCompiler.Build
import CilCompiler.Build.Execution
import CilCompiler.Build.Input
import CilCompiler.Build.Stage
import CilCompiler.BuildView
import CilCompiler.Cil.Member
import CilCompiler.Cil.Instr
import CilCompiler.Cil.Opcode
import CilCompiler.Cil.ShortForm
import CilCompiler.Cil.Type
import CilCompiler.Cli
import CilCompiler.Cli.Command
import CilCompiler.Cli.Flag
import CilCompiler.Cli.FlagValue
import CilCompiler.Cli.Places
import CilCompiler.Cli.Settings
import CilCompiler.Compilation
import CilCompiler.Compiler
import CilCompiler.Diagnostic.Cause
import CilCompiler.Diagnostic.Code
import CilCompiler.Fault
import CilCompiler.Files
import CilCompiler.Journal
import CilCompiler.Json
import CilCompiler.Json.Reader
import CilCompiler.Json.Writer
import CilCompiler.Lowering.Expr
import CilCompiler.Lowering.Reference
import CilCompiler.Lowering.Resolution
import CilCompiler.Lowering.Scope
import CilCompiler.Lowering.Stmt
import CilCompiler.Machine.Step
import CilCompiler.Machine.Effect
import CilCompiler.Machine.Frame
import CilCompiler.Machine.Heap
import CilCompiler.Machine.Inspection
import CilCompiler.Machine.Native
import CilCompiler.Main
import CilCompiler.Manifest
import CilCompiler.Module
import CilCompiler.Module.Balance
import CilCompiler.Module.Description
import CilCompiler.Module.Disassembly
import CilCompiler.Module.Draft
import CilCompiler.Module.Finish
import CilCompiler.Module.Host
import CilCompiler.Module.Listing
import CilCompiler.Module.ListingCheck
import CilCompiler.Msgpack
import CilCompiler.Path
import CilCompiler.Symbols
import CilCompiler.Text
import CilCompiler.Text.CanonicalTable
import CilCompiler.Text.Case
import CilCompiler.Text.Cluster
import CilCompiler.Text.CodeTable
import CilCompiler.Text.Composed
import CilCompiler.Text.Hex
import CilCompiler.Text.Printable
import CilCompiler.Text.Width
import CilCompiler.Timer
import CilCompiler.Toml.Document
import CilCompiler.Toml.Grammar
import CilCompiler.Toml.Number
import CilCompiler.Trace.Event
import CilCompiler.Trace.Format
import CilCompiler.Trace.Tracer
import CilCompiler.Tree
import CilCompiler.Tree.JsonForm
import CilCompiler.Tree.MsgpackForm
import CilCompiler.Tree.Wire
import CilCompiler.Version
import CilCompiler.Workbench
import CilCompiler.Workbench.Building
import CilCompiler.Proofs.Depths
import CilCompiler.Proofs.Typed.Draft
import CilCompiler.Proofs.Emission
import CilCompiler.Proofs.Symbols
import CilCompiler.Proofs.Typed.Work
import CilCompiler.Proofs.Typed.Reference
import CilCompiler.Proofs.Typed.Expr
import CilCompiler.Proofs.Typed.Stmt
import CilCompiler.Proofs.Typed.Balance
import CilCompiler.Proofs.Compilation.Coherent
import CilCompiler.Proofs.Compilation.Declared
import CilCompiler.Proofs.Compilation.Host
import CilCompiler.Proofs.Compilation.Program
import CilCompiler.Proofs.Compilation.Recorded
import CilCompiler.Proofs.Compilation.Member
import CilCompiler.Proofs.Compilation.Finished
import CilCompiler.Proofs.Compilation.Passes
import CilCompiler.Proofs.Typed.Parts
import CilCompiler.Proofs.StackBalance
import CilCompiler.Proofs.Numeric.Semantics
import CilCompiler.Proofs.Machine.Height
import CilCompiler.Proofs.Module.Built
import CilCompiler.Proofs.Machine.VerifiedStack
import CilCompiler.Proofs.Msgpack
import CilCompiler.Proofs.Tree.MsgpackForm
import CilCompiler.Proofs.Tree.RoundTrip
import CilCompiler.Proofs.Numeric.Layout
import CilCompiler.Proofs.Numeric.Expr
import CilCompiler.Proofs.Numeric.Scoping
import CilCompiler.Proofs.Numeric.Stmt
import CilCompiler.Proofs.Numeric.Correctness
import CilCompiler.Proofs.Text.Composed
import CilCompiler.Proofs.Outcome
import CilCompiler.Proofs.Renaming.Names
import CilCompiler.Proofs.Renaming.Draft
import CilCompiler.Proofs.Renaming.Reference
import CilCompiler.Proofs.Identifiers
import CilCompiler.Proofs.Renaming.Lowering
import CilCompiler.Proofs.Renaming.Module
import CilCompiler.Proofs.Renaming.Declared
import CilCompiler.Proofs.Tree.JsonRoundTrip
import CilCompiler.Proofs.Compilation.Listed
import CilCompiler.Proofs.Compilation.Loopless
import CilCompiler.Proofs.Transparency
import CilCompiler.Proofs.Tree.Canonical
import CilCompiler.Proofs.Trace.Nesting
import CilCompiler.Proofs.Build.Requests
import CilCompiler.Proofs.Module.Bodied
import CilCompiler.Proofs.Compilation.Steps
import CilCompiler.Proofs.Compilation.Members
import CilCompiler.Proofs.Compilation.Ready
import CilCompiler.Proofs.Compilation.Initializers
import CilCompiler.Proofs.Lowering.Overloads
import CilCompiler.Proofs.Machine.Unfinished
import CilCompiler.Proofs.Module.Unfinished
import CilCompiler.Proofs.Compilation.ArrayNames
import CilCompiler.Proofs.Compilation.Overloading
import CilCompiler.Proofs.Renaming.Catalog
import CilCompiler.Proofs.Renaming.Prepared
import CilCompiler.Proofs.Renaming.Supplied
import CilCompiler.Proofs.Compilation.Storage
import CilCompiler.Proofs.Compilation.Sealed
import CilCompiler.Proofs.Reordering.Layout
import CilCompiler.Proofs.Reordering.Members
import CilCompiler.Proofs.Reordering.Prepared
import CilCompiler.Proofs.Reordering.Compiled
import CilCompiler.Proofs.Lowering.Places
import CilCompiler.Proofs.Compilation.Places
import CilCompiler.Proofs.Machine.Cells
import CilCompiler.Proofs.Machine.Stretches
import CilCompiler.Proofs.Lowering.Spilling
import CilCompiler.Proofs.Compilation.Variables
import CilCompiler.Proofs.Compilation.SpilledCalls
import CilCompiler.Proofs.Symbols.Unambiguous
import CilCompiler.Proofs.Module.Slots
import CilCompiler.Proofs.Machine.StackEffect
import CilCompiler.Proofs.Listing.Literals
import CilCompiler.Proofs.Module.Replayed
import CilCompiler.Proofs.Listing.References
import CilCompiler.Proofs.Compilation.References
import CilCompiler.Proofs.Compilation.Backends
import CilCompiler.Proofs.Listing.Methods
import CilCompiler.Proofs.Machine.Canceled
import CilCompiler.Proofs.Module.Lasting
import CilCompiler.Proofs.Listing.Written
import CilCompiler.Proofs.Trace.Ring
import CilCompiler.Proofs.Build.View
import CilCompiler.Proofs.ShortForm
import CilCompiler.Proofs.Lowering.Doubled
import CilCompiler.Proofs.Typed.Values
import CilCompiler.Proofs.Typed.Calls
import CilCompiler.Proofs.Typed.Instructions
import CilCompiler.Proofs.Typed.Objects
import CilCompiler.Proofs.Typed.Running
import CilCompiler.Proofs.Typed.Compiled
import CilCompiler.Proofs.TypeSoundness
import CilCompiler.Proofs.Halting
