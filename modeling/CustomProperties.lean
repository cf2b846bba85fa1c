import CustomProperties.Main
import CustomProperties.Proofs.Resolution.Delimited
import CustomProperties.Proofs.Resolution.Derivation
import CustomProperties.Proofs.Split.Parts
import CustomProperties.Proofs.Resolution.Nodes
import CustomProperties.Proofs.Resolution.NormalForm
import CustomProperties.Proofs.Sheet.Walk
import CustomProperties.Proofs.Variables.Collection
import CustomProperties.Proofs.Transform.Run
import CustomProperties.Proofs.Transform.Modes
import CustomProperties.Proofs.Transform.Pruning
import CustomProperties.Proofs.Sheet.Concatenation
import CustomProperties.Proofs.Transform.Overrides
import CustomProperties.Proofs.Transform.Rendering
import CustomProperties.Proofs.Transform.Order
import CustomProperties.Proofs.Transform.Statics
import CustomProperties.Proofs.CommandLine.Precedence
import CustomProperties.Proofs.CommandLine.Refusal
import CustomProperties.Proofs.Variables.Names
import CustomProperties.Proofs.Chunks.Composition
import CustomProperties.Proofs.Chunks.Survival
import CustomProperties.Proofs.Chunks.Inert
import CustomProperties.Proofs.Parens.Located
import CustomProperties.Proofs.Resolution.Located
import CustomProperties.Proofs.Calc.Located
import CustomProperties.Proofs.Sheet.Writable
import CustomProperties.Proofs.Transform.Failure
import CustomProperties.Proofs.Chunks.Isolation
import CustomProperties.Proofs.Chunks.Joined
import CustomProperties.Proofs.Chunks.Undefined
import CustomProperties.Proofs.Sheet.FixedPoint
import CustomProperties.Proofs.Transform.Readable
import CustomProperties.Proofs.Transform.Importance
import CustomProperties.Proofs.Resolution.InPlace
import CustomProperties.Proofs.Resolution.Termination
import CustomProperties.Proofs.Resolution.Mentions
import CustomProperties.Proofs.Report.References
import CustomProperties.Proofs.Resolution.Acyclic
import CustomProperties.Proofs.Sheet.Survivors
import CustomProperties.Proofs.Variables.Effect
import CustomProperties.Proofs.Options.Coercion
import CustomProperties.Proofs.Chunks.Restoration
import CustomProperties.Proofs.Sheet.ErrorContext
import CustomProperties.Proofs.Calc.Nested
import CustomProperties.Proofs.Parens.Matching
import CustomProperties.Proofs.Split.Cuts
