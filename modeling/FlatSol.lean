import FlatSol.Digest.Sha256
import FlatSol.FileTree.Basic
import FlatSol.FileTree.Fault
import FlatSol.FileTree.Read
import FlatSol.FileTree.Walk
import FlatSol.FileTree.Write
import FlatSol.Flatten.Render
import FlatSol.Flatten.Write
import FlatSol.Glob.Pattern
import FlatSol.Glob.Search
import FlatSol.Graph.Basic
import FlatSol.Graph.Build
import FlatSol.Graph.Order
import FlatSol.Path.Basic
import FlatSol.Path.Relative
import FlatSol.Project.Basic
import FlatSol.Project.Contract
import FlatSol.Project.Root
import FlatSol.Proofs.FileTree.Changes
import FlatSol.Proofs.FileTree.Delivery
import FlatSol.Proofs.FileTree.Footprint
import FlatSol.Proofs.FileTree.Growth
import FlatSol.Proofs.FileTree.Hidden
import FlatSol.Proofs.FileTree.Leads
import FlatSol.Proofs.FileTree.Rewrite
import FlatSol.Proofs.FileTree.Straight
import FlatSol.Proofs.FileTree.Temporary
import FlatSol.Proofs.FileTree.Way
import FlatSol.Proofs.FileTree.WellFormed
import FlatSol.Proofs.FileTree.Writing
import FlatSol.Proofs.Flatten.Assemble
import FlatSol.Proofs.Flatten.Code
import FlatSol.Proofs.Flatten.Commute
import FlatSol.Proofs.Flatten.Confined
import FlatSol.Proofs.Flatten.Entry
import FlatSol.Proofs.Flatten.Frame
import FlatSol.Proofs.Flatten.Headers
import FlatSol.Proofs.Flatten.Headings
import FlatSol.Proofs.Flatten.Imports
import FlatSol.Proofs.Flatten.Kept
import FlatSol.Proofs.Flatten.Layout
import FlatSol.Proofs.Flatten.Listing
import FlatSol.Proofs.Flatten.Outputs
import FlatSol.Proofs.Flatten.Portion
import FlatSol.Proofs.Flatten.Repeats
import FlatSol.Proofs.Flatten.Reported
import FlatSol.Proofs.Flatten.Rerun
import FlatSol.Proofs.Flatten.Settled
import FlatSol.Proofs.Flatten.Slicing
import FlatSol.Proofs.Glob.Escape
import FlatSol.Proofs.Glob.Listing
import FlatSol.Proofs.Graph.Closure
import FlatSol.Proofs.Graph.Cycles
import FlatSol.Proofs.Graph.DepthFirst
import FlatSol.Proofs.Graph.Footprint
import FlatSol.Proofs.Graph.Loop
import FlatSol.Proofs.Graph.Resolution
import FlatSol.Proofs.Graph.Steps
import FlatSol.Proofs.Graph.Tour
import FlatSol.Proofs.Graph.Warnings
import FlatSol.Proofs.Path.Components
import FlatSol.Proofs.Project.Contracts
import FlatSol.Proofs.Project.Opening
import FlatSol.Proofs.Project.Root
import FlatSol.Proofs.Source.Apart
import FlatSol.Proofs.Source.Body
import FlatSol.Proofs.Source.CutEnds
import FlatSol.Proofs.Source.HeaderCut
import FlatSol.Proofs.Source.HeaderLine
import FlatSol.Proofs.Source.HeaderStart
import FlatSol.Proofs.Source.ImportCut
import FlatSol.Proofs.Source.ImportEdit
import FlatSol.Proofs.Source.ImportForm
import FlatSol.Proofs.Source.ImportLayout
import FlatSol.Proofs.Source.ImportPath
import FlatSol.Proofs.Source.ImportScan
import FlatSol.Proofs.Source.Lexeme
import FlatSol.Proofs.Source.LineEnds
import FlatSol.Proofs.Source.Literal
import FlatSol.Proofs.Source.LiteralCut
import FlatSol.Proofs.Source.LiteralStart
import FlatSol.Proofs.Source.MaskBytes
import FlatSol.Proofs.Source.MaskLocal
import FlatSol.Proofs.Source.PragmaLine
import FlatSol.Proofs.Source.ReadsLines
import FlatSol.Proofs.Source.Scan
import FlatSol.Proofs.Source.Seam
import FlatSol.Proofs.Source.Slicing
import FlatSol.Proofs.Source.Spans
import FlatSol.Proofs.Source.Statement
import FlatSol.Proofs.Source.Trim
import FlatSol.Proofs.Text.Block
import FlatSol.Proofs.Text.Keep
import FlatSol.Proofs.Text.LineEnds
import FlatSol.Proofs.Text.Lines
import FlatSol.Proofs.Text.Pieces
import FlatSol.Proofs.Text.Place
import FlatSol.Proofs.Text.Search
import FlatSol.Report.Diagnostic
import FlatSol.Report.Event
import FlatSol.Report.Warning
import FlatSol.Resolution
import FlatSol.Settings.Basic
import FlatSol.Settings.Load
import FlatSol.Source.Header
import FlatSol.Source.Import
import FlatSol.Source.Mask
import FlatSol.Source.Split
import FlatSol.Text.Basic
import FlatSol.Text.Blank
import FlatSol.Text.Cut
import FlatSol.Text.Line
import FlatSol.Text.Search
import FlatSol.Text.Utf8
import FlatSol.Text.Word
import FlatSol.Toml.Document
import FlatSol.Toml.Node
import FlatSol.Toml.Number
import FlatSol.Toml.Quoted
import FlatSol.Toml.Reader
