import ObjectTables.Command.Execution
import ObjectTables.Command.Options
import ObjectTables.Digest
import ObjectTables.Failure
import ObjectTables.FileTree.Access
import ObjectTables.FileTree.Basic
import ObjectTables.FileTree.Route
import ObjectTables.Generator
import ObjectTables.Header.Alias
import ObjectTables.Header.Definition
import ObjectTables.Header.Placeholder
import ObjectTables.Main
import ObjectTables.Numbering
import ObjectTables.Path
import ObjectTables.Proofs.Abreast
import ObjectTables.Proofs.Command.Outcome
import ObjectTables.Proofs.Comparison
import ObjectTables.Proofs.Computation
import ObjectTables.Proofs.FileTree.Abreast
import ObjectTables.Proofs.FileTree.Access
import ObjectTables.Proofs.FileTree.Agreement
import ObjectTables.Proofs.FileTree.Creation
import ObjectTables.Proofs.FileTree.Removal
import ObjectTables.Proofs.FileTree.Route
import ObjectTables.Proofs.FileTree.Uniform
import ObjectTables.Proofs.Header.Alias
import ObjectTables.Proofs.Header.Completeness
import ObjectTables.Proofs.Header.Definition
import ObjectTables.Proofs.Header.Difference
import ObjectTables.Proofs.Header.Grammar
import ObjectTables.Proofs.Header.LineEnd
import ObjectTables.Proofs.Header.Loss
import ObjectTables.Proofs.Header.Placeholder
import ObjectTables.Proofs.Header.PlaceholderLine
import ObjectTables.Proofs.Header.Position
import ObjectTables.Proofs.Header.Reading
import ObjectTables.Proofs.Header.Recompletion
import ObjectTables.Proofs.Header.Redefinition
import ObjectTables.Proofs.Numbering.Composition
import ObjectTables.Proofs.Numbering.RoundTrip
import ObjectTables.Proofs.Numbering.Trim
import ObjectTables.Proofs.Path
import ObjectTables.Proofs.Publication
import ObjectTables.Proofs.Publication.Wholeness
import ObjectTables.Proofs.Regeneration.Attempt
import ObjectTables.Proofs.Regeneration.Conduct
import ObjectTables.Proofs.Regeneration.Containment
import ObjectTables.Proofs.Regeneration.Dependence
import ObjectTables.Proofs.Regeneration.Missing
import ObjectTables.Proofs.Regeneration.Part
import ObjectTables.Proofs.Regeneration.Preparation
import ObjectTables.Proofs.Regeneration.Protocol
import ObjectTables.Proofs.Regeneration.Refinement
import ObjectTables.Proofs.Regeneration.Repetition
import ObjectTables.Proofs.Regeneration.Twins
import ObjectTables.Proofs.Regeneration.Working
import ObjectTables.Proofs.Scratch
import ObjectTables.Proofs.Scratch.Claim
import ObjectTables.Proofs.Scratch.Lifetime
import ObjectTables.Proofs.Scratch.Session
import ObjectTables.Proofs.Sites
import ObjectTables.Proofs.Sites.Relocation
import ObjectTables.Proofs.Text.Line
import ObjectTables.Proofs.Text.LineEnd
import ObjectTables.Proofs.Text.Normal
import ObjectTables.Proofs.Text.Published
import ObjectTables.Proofs.Text.Shape
import ObjectTables.Proofs.Text.TabStop
import ObjectTables.Proofs.Text.Utf8
import ObjectTables.Proofs.Text.Word
import ObjectTables.Proofs.Tool.Function
import ObjectTables.Proofs.Tool.Launch
import ObjectTables.Proofs.Tool.Rehearsal
import ObjectTables.Publication
import ObjectTables.Regeneration
import ObjectTables.Scratch
import ObjectTables.Shell.Arithmetic
import ObjectTables.Shell.Builtin
import ObjectTables.Shell.Builtin.Directory
import ObjectTables.Shell.Builtin.Flow
import ObjectTables.Shell.Builtin.Names
import ObjectTables.Shell.Builtin.Options
import ObjectTables.Shell.Builtin.Output
import ObjectTables.Shell.Builtin.Parameters
import ObjectTables.Shell.Builtin.Processes
import ObjectTables.Shell.Builtin.Variables
import ObjectTables.Shell.Call
import ObjectTables.Shell.Condition
import ObjectTables.Shell.Double
import ObjectTables.Shell.Evaluation
import ObjectTables.Shell.Expansion
import ObjectTables.Shell.Job
import ObjectTables.Shell.Lines
import ObjectTables.Shell.Lookup
import ObjectTables.Shell.Machine
import ObjectTables.Shell.Number
import ObjectTables.Shell.Pattern
import ObjectTables.Shell.Printing
import ObjectTables.Shell.Process
import ObjectTables.Shell.Program
import ObjectTables.Shell.Program.Catenation
import ObjectTables.Shell.Program.Quoted
import ObjectTables.Shell.Reader.Basic
import ObjectTables.Shell.Reader.Grammar
import ObjectTables.Shell.Reader.Word
import ObjectTables.Shell.Redirection
import ObjectTables.Shell.Script
import ObjectTables.Shell.Signal
import ObjectTables.Shell.Source
import ObjectTables.Shell.Subshell
import ObjectTables.Shell.Switch
import ObjectTables.Shell.System
import ObjectTables.Shell.Trap
import ObjectTables.Shell.Variable
import ObjectTables.Sites
import ObjectTables.Text.Blank
import ObjectTables.Text.Harmless
import ObjectTables.Text.Line
import ObjectTables.Text.Published
import ObjectTables.Text.Utf8
import ObjectTables.Tool
import ObjectTables.Tool.Rehearsal
