import SourceChunks.Arena
import SourceChunks.Arena.Build
import SourceChunks.Arena.Sizing
import SourceChunks.Arena.Walk
import SourceChunks.Chunk
import SourceChunks.Chunk.Identity
import SourceChunks.Chunk.Merge
import SourceChunks.Chunk.Metadata
import SourceChunks.Chunk.Packing
import SourceChunks.Chunk.Sizing
import SourceChunks.Chunk.Split
import SourceChunks.Chunk.Units
import SourceChunks.Chunker
import SourceChunks.Config
import SourceChunks.Config.Reader
import SourceChunks.Config.Text
import SourceChunks.Cst
import SourceChunks.Decorator
import SourceChunks.Diagnostic
import SourceChunks.Digest
import SourceChunks.Docstring
import SourceChunks.Error
import SourceChunks.Grammar
import SourceChunks.Grammar.Go
import SourceChunks.Grammar.JavaScript
import SourceChunks.Grammar.OfLanguage
import SourceChunks.Grammar.Python
import SourceChunks.Grammar.Rust
import SourceChunks.Json
import SourceChunks.Json.Printer
import SourceChunks.Json.Reader
import SourceChunks.Language
import SourceChunks.Measure
import SourceChunks.Modifier
import SourceChunks.Outline
import SourceChunks.PathName
import SourceChunks.Pattern
import SourceChunks.Pattern.ByteRun
import SourceChunks.Pattern.CharSet
import SourceChunks.Pattern.Expression
import SourceChunks.Pattern.Footprint
import SourceChunks.Pattern.Footprint.Class
import SourceChunks.Pattern.Footprint.OfPlan
import SourceChunks.Pattern.Footprint.TextTree
import SourceChunks.Pattern.Parser
import SourceChunks.Pattern.Plan
import SourceChunks.Proofs.Fragments
import SourceChunks.Proofs.Stacking
import SourceChunks.Proofs.Tiling
import SourceChunks.Record
import SourceChunks.Record.Format
import SourceChunks.Record.Statistics
import SourceChunks.RoseTree
import SourceChunks.Signature
import SourceChunks.Sorting
import SourceChunks.Source
import SourceChunks.Span
import SourceChunks.SyntaxTree
import SourceChunks.SyntaxTree.Consistency
import SourceChunks.SyntaxTree.OfCst
import SourceChunks.SyntaxTree.Yields
import SourceChunks.Text.Blank
import SourceChunks.Text.Bytes
import SourceChunks.Text.CodePoints
import SourceChunks.Text.Folding
import SourceChunks.Text.Grapheme
import SourceChunks.Text.Grapheme.Property
import SourceChunks.Text.Letter
import SourceChunks.Text.Occurrence
import SourceChunks.Text.Word
import SourceChunks.Toml
import SourceChunks.Toml.Reader
import SourceChunks.Toml.Scalar
import SourceChunks.Proofs.Consistency
import SourceChunks.Proofs.Numbering
import SourceChunks.Proofs.Stages
import SourceChunks.Proofs.Nesting
import SourceChunks.Proofs.Contraction
import SourceChunks.Proofs.Table
import SourceChunks.Proofs.Writing
import SourceChunks.Proofs.Placement
import SourceChunks.Proofs.Reading
import SourceChunks.Proofs.EveryChunk
import SourceChunks.Proofs.Blanks
import SourceChunks.Proofs.Boundary
import SourceChunks.Proofs.Gate
import SourceChunks.Proofs.Coverage
import SourceChunks.Proofs.Ancestry
import SourceChunks.Proofs.Links
import SourceChunks.Proofs.Correspondence
import SourceChunks.Proofs.Splitting
import SourceChunks.Proofs.Reconstruction
import SourceChunks.Proofs.UpperBound
import SourceChunks.Proofs.JsonRoundtrip
import SourceChunks.Proofs.RecordRoundtrip
import SourceChunks.Proofs.Listing
import SourceChunks.Proofs.Ids
import SourceChunks.Proofs.Characters
import SourceChunks.Proofs.CoverOnce
import SourceChunks.Proofs.Classification
import SourceChunks.Proofs.GreedyPacking
import SourceChunks.Proofs.Merging
import SourceChunks.Proofs.Relabelling
import SourceChunks.Proofs.Renaming
import SourceChunks.Proofs.Siblings
import SourceChunks.Proofs.Slots
import SourceChunks.Proofs.SlotOrder
import SourceChunks.Proofs.SlotWalk
import SourceChunks.Proofs.SlotDescribing
import SourceChunks.Proofs.SlotMerging
import SourceChunks.Proofs.SlotFragments
import SourceChunks.Proofs.SlotSplitting
import SourceChunks.Proofs.SlotChunking
import SourceChunks.Proofs.Fallback
import SourceChunks.Proofs.Decision
import SourceChunks.Proofs.Loops
import SourceChunks.Proofs.Visiting
import SourceChunks.Proofs.Filling
import SourceChunks.Proofs.References
import SourceChunks.Proofs.Insertion
import SourceChunks.Proofs.Describing
import SourceChunks.Proofs.OwnBody
import SourceChunks.Proofs.MemberKinds
import SourceChunks.Proofs.Attachment
import SourceChunks.Proofs.DocComments
import SourceChunks.Proofs.DecoratorOrder
import SourceChunks.Proofs.Tidying
import SourceChunks.Proofs.Literals
import SourceChunks.Proofs.Signatures
import SourceChunks.Proofs.Lines
import SourceChunks.Proofs.OwnLines
import SourceChunks.Proofs.Positions
import SourceChunks.Proofs.FirstFault
import SourceChunks.Proofs.LineTotals
import SourceChunks.Proofs.SurfaceNames
import SourceChunks.Proofs.Spacing
import SourceChunks.Proofs.Dedenting
import SourceChunks.Proofs.Searching
import SourceChunks.Proofs.PatternBounds
import SourceChunks.Proofs.RulePrecedence
