import Transclusion.Advice
import Transclusion.CodeSpan
import Transclusion.CommandLine.Arguments
import Transclusion.CommandLine.Run
import Transclusion.CommandLine.Terminal
import Transclusion.Compilation
import Transclusion.Config
import Transclusion.ConfigFile
import Transclusion.Decimal.Binary
import Transclusion.Decimal.Numeral
import Transclusion.Decimal.Shortest
import Transclusion.Discovery
import Transclusion.Disk
import Transclusion.DocumentGraph
import Transclusion.Expansion
import Transclusion.Failure
import Transclusion.FileView
import Transclusion.FolderRun
import Transclusion.FrontMatter
import Transclusion.Glob
import Transclusion.Graph.Basic
import Transclusion.Graph.Cycle
import Transclusion.Graph.Order
import Transclusion.Graph.Tree
import Transclusion.Heading
import Transclusion.HeadingShift
import Transclusion.JsonValue
import Transclusion.Main
import Transclusion.MemoryStore
import Transclusion.Metadata
import Transclusion.Paint
import Transclusion.Path
import Transclusion.Reference
import Transclusion.ReferenceListing
import Transclusion.Report
import Transclusion.Resolution
import Transclusion.Session
import Transclusion.Similarity
import Transclusion.Sorting
import Transclusion.Span
import Transclusion.Spelling
import Transclusion.Suggestion
import Transclusion.Text.Basic
import Transclusion.Text.Blank
import Transclusion.Text.Word
import Transclusion.Toml.Value
import Transclusion.Validation
import Transclusion.Wrapper
import Transclusion.Yaml.Node
import Transclusion.Yaml.Token
import Transclusion.Proofs.Unfolding
import Transclusion.Proofs.Branch
import Transclusion.Proofs.Ledger
import Transclusion.Proofs.Deduplication
import Transclusion.Proofs.Mention
import Transclusion.Proofs.Splicing
import Transclusion.Proofs.Coverage
import Transclusion.Proofs.GraphWalk
import Transclusion.Proofs.PathOrder
import Transclusion.Proofs.FolderCycles
import Transclusion.Proofs.CycleDetection
import Transclusion.Proofs.Retention
import Transclusion.Proofs.Ending
import Transclusion.Proofs.Composition
import Transclusion.Proofs.Placement
import Transclusion.Proofs.MemoryForm
import Transclusion.Proofs.FolderOrder
import Transclusion.Proofs.FolderFailures
import Transclusion.Proofs.Subpath
import Transclusion.Proofs.FolderWriting
import Transclusion.Proofs.SpanCover
import Transclusion.Proofs.CodeLayout
import Transclusion.Proofs.ListedReferences
import Transclusion.Proofs.FolderDependencies
import Transclusion.Proofs.Nesting
import Transclusion.Proofs.Position
import Transclusion.Proofs.InertText
import Transclusion.Proofs.Recompilation
import Transclusion.Proofs.ImportCounts
import Transclusion.Proofs.SessionIndependence
import Transclusion.Proofs.UnsavedText
import Transclusion.Proofs.TagDepth
import Transclusion.Proofs.FenceCount
import Transclusion.Proofs.Outline
import Transclusion.Proofs.Renumbering
import Transclusion.Proofs.Inlay
import Transclusion.Proofs.HeadingDistance
import Transclusion.Proofs.Leftover
import Transclusion.Proofs.DocumentSet
import Transclusion.Proofs.MarkRuns
import Transclusion.Proofs.OpenTags
import Transclusion.Proofs.MarkShift
import Transclusion.Proofs.MentionPattern
import Transclusion.Proofs.MentionGrammar
import Transclusion.Proofs.RepeatedShift
import Transclusion.Proofs.HeadingContext
import Transclusion.Proofs.QuotedTags
import Transclusion.Proofs.WrapperForest
import Transclusion.Proofs.Circles
import Transclusion.Proofs.LeastOrder
import Transclusion.Proofs.Reentry
import Transclusion.Proofs.TreeLines
import Transclusion.Proofs.TreeCover
import Transclusion.Proofs.StoredTarget
import Transclusion.Proofs.CodeExtent
import Transclusion.Proofs.FirstHit
import Transclusion.Proofs.FrontMatterBlock
import Transclusion.Proofs.CoveredOffsets
import Transclusion.Proofs.PathAlgebra
import Transclusion.Proofs.StoreHistory
import Transclusion.Proofs.DocumentListing
