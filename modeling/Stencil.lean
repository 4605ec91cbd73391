import Stencil.Main
import Stencil.Disk
import Stencil.Proofs.Grammar
import Stencil.Proofs.Grammar.Operators
import Stencil.Proofs.Grammar.Reading
import Stencil.Proofs.Grammar.Progress
import Stencil.Proofs.Grammar.Operand
import Stencil.Proofs.Grammar.Body
import Stencil.Proofs.Grammar.Parse
import Stencil.Proofs.Source.Spelling
import Stencil.Proofs.Source.Words
import Stencil.Proofs.Source.Positions
import Stencil.Proofs.Source.Lossless
import Stencil.Proofs.Source.Prefix
import Stencil.Proofs.Source.Concat
import Stencil.Proofs.Source.Lines
import Stencil.Proofs.Source.Blanks
import Stencil.Proofs.Source.Printed
import Stencil.Proofs.Grammar.Steps
import Stencil.Proofs.Grammar.Closing
import Stencil.Proofs.Grammar.Moved
import Stencil.Proofs.Grammar.Resumed
import Stencil.Proofs.RoundTrip
import Stencil.Proofs.FirstError
import Stencil.Proofs.Analysis.Moved
import Stencil.Proofs.Render.Moved
import Stencil.Proofs.Render.Pieces
import Stencil.Proofs.Render.Bounded
import Stencil.Proofs.Formatting
import Stencil.Proofs.Analysis.Agreement
import Stencil.Proofs.Analysis.Tally
import Stencil.Proofs.Analysis.Order
import Stencil.Proofs.Composition
import Stencil.Proofs.Builtin
import Stencil.Proofs.Utf8
import Stencil.Proofs.Source.Text
import Stencil.Proofs.Render.Text
import Stencil.Proofs.Context
import Stencil.Proofs.Soundness
import Stencil.Proofs.Alarms
import Stencil.Proofs.StaticTypes
import Stencil.Proofs.Source.Rules
import Stencil.Proofs.Source.LineEnds
import Stencil.Proofs.Host
import Stencil.Proofs.Path
import Stencil.Proofs.Disk.Places
import Stencil.Proofs.Disk.Changes
import Stencil.Proofs.Disk.Failures
import Stencil.Proofs.Command.Arguments
import Stencil.Proofs.Command.Format
import Stencil.Proofs.Command.Excerpt
import Stencil.Proofs.Tree.Source
import Stencil.Proofs.Tree.Plan
import Stencil.Proofs.Tree.Effect
import Stencil.Proofs.Tree.AllOrNothing
import Stencil.Proofs.Tree.Names
import Stencil.Proofs.Shape
import Stencil.Proofs.Analysis.Results
import Stencil.Proofs.Analysis.Occurrences
import Stencil.Proofs.Tree.Layout
import Stencil.Proofs.Render.Names
import Stencil.Proofs.Height
import Stencil.Proofs.Sugar
import Stencil.Proofs.Source.Comments
import Stencil.Proofs.Grammar.Comments
import Stencil.Proofs.Comments
import Stencil.Proofs.Anchors
import Stencil.Proofs.Grammar.Opened
import Stencil.Proofs.Calls
import Stencil.Proofs.Plain
import Stencil.Proofs.Bindings
