import Stencil.Binding
import Stencil.Command.Arguments
import Stencil.Command.Directory
import Stencil.Command.Run
import Stencil.Config.Basic
import Stencil.Config.Reader
import Stencil.Diagnostic.Basic
import Stencil.Diagnostic.Filtered
import Stencil.Diagnostic.Position
import Stencil.Emit.Compile
import Stencil.Emit.Emitter
import Stencil.Emit.Error
import Stencil.File
import Stencil.Host
import Stencil.Listing.Basic
import Stencil.Listing.Palette
import Stencil.Main
import Stencil.Markup.Event
import Stencil.Markup.Lexeme
import Stencil.Markup.Names
import Stencil.Markup.Node
import Stencil.Markup.Reference
import Stencil.Markup.Selector
import Stencil.Markup.Token
import Stencil.Markup.Tree
import Stencil.Op
import Stencil.Placeholder
import Stencil.Report.Drawing
import Stencil.Report.Headline
import Stencil.Report.Render
import Stencil.Report.Style
import Stencil.Report.Window
import Stencil.Segment
import Stencil.Span
import Stencil.Text.Blank
import Stencil.Text.Hidden
import Stencil.Text.Quoted
import Stencil.Text.Split
import Stencil.Text.Utf8
import Stencil.Wire.Error
import Stencil.Wire.Header
import Stencil.Wire.Image
import Stencil.Wire.Instruction
import Stencil.Wire.Interner
import Stencil.Wire.Parts
import Stencil.Wire.StringRef
import Stencil.Wire.Word
import Stencil.Proofs.Wire.Layout
import Stencil.Proofs.Wire.Loading
import Stencil.Proofs.Wire.Parts
import Stencil.Proofs.Emit.Step
import Stencil.Proofs.Wire.Reading
import Stencil.Proofs.Emit.Run
import Stencil.Proofs.Emit.Denotation
import Stencil.Proofs.Markup.Rendering
import Stencil.Proofs.Text.Search
import Stencil.Proofs.Markup.Scanning
import Stencil.Proofs.Markup.Grouping
import Stencil.Proofs.Markup.RoundTrip
import Stencil.Proofs.Wire.Outcome
import Stencil.Proofs.Wire.PartsLayout
import Stencil.Proofs.Wire.Acceptance
import Stencil.Proofs.Emit.Performing
import Stencil.Proofs.Emit.Reachable
import Stencil.Proofs.Emit.Capacity
import Stencil.Proofs.Emit.Consistency
import Stencil.Proofs.Host.Transport
import Stencil.Proofs.Emit.Canonical
import Stencil.Proofs.Emit.Replay
import Stencil.Proofs.Markup.Placement
import Stencil.Proofs.Markup.Nesting
import Stencil.Proofs.Markup.Correspondence
import Stencil.Proofs.Markup.TokenOrder
import Stencil.Proofs.Markup.Tiling
import Stencil.Proofs.Markup.Matching
import Stencil.Proofs.Diagnostic.Filtering
import Stencil.Proofs.Emit.Settings
import Stencil.Proofs.Command.Agreement
import Stencil.Proofs.Markup.Constructs
import Stencil.Proofs.Markup.Elements
import Stencil.Proofs.Markup.RawText
import Stencil.Proofs.Markup.Reports
import Stencil.Proofs.Markup.Truncation
import Stencil.Proofs.Markup.SourceNames
import Stencil.Proofs.Emit.VoidChildren
import Stencil.Proofs.Placeholder.Fields
import Stencil.Proofs.Placeholder.Recovery
import Stencil.Proofs.Wire.Sections
import Stencil.Proofs.Markup.Numerals
import Stencil.Proofs.Markup.Replacement
import Stencil.Proofs.Wire.InternerRun
import Stencil.Proofs.Wire.PartsCodec
import Stencil.Proofs.Diagnostic.Priority
import Stencil.Proofs.Markup.Selecting
import Stencil.Proofs.Markup.Locality
import Stencil.Proofs.Markup.NormalForm
import Stencil.Proofs.Markup.TokenGroups
import Stencil.Proofs.Diagnostic.Locating
import Stencil.Proofs.Text.Lines
import Stencil.Proofs.Listing.Depth
import Stencil.Proofs.Listing.Lines
