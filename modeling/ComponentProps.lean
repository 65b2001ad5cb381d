import ComponentProps.Binding
import ComponentProps.Cache
import ComponentProps.Code.Nesting
import ComponentProps.Code.Region
import ComponentProps.Code.Split
import ComponentProps.Code.Walk
import ComponentProps.Decimal.Double
import ComponentProps.Decimal.Shortest
import ComponentProps.Display
import ComponentProps.Extraction
import ComponentProps.Files.Path
import ComponentProps.Files.Tree
import ComponentProps.Intake
import ComponentProps.Interchange
import ComponentProps.Json.Fault
import ComponentProps.Json.Input
import ComponentProps.Json.Number
import ComponentProps.Json.Reader
import ComponentProps.Json.Skip
import ComponentProps.Json.Value
import ComponentProps.Member.Basic
import ComponentProps.Member.Lookahead
import ComponentProps.Member.Scan
import ComponentProps.OrderedMap
import ComponentProps.Project
import ComponentProps.Props
import ComponentProps.Resolution
import ComponentProps.Script
import ComponentProps.Settings
import ComponentProps.Text.Basic
import ComponentProps.Text.CharRange
import ComponentProps.Text.Cursor
import ComponentProps.Text.Identifier
import ComponentProps.Text.IdentifierTable
import ComponentProps.Text.Lines
import ComponentProps.Text.Quote
import ComponentProps.Text.Quoted
import ComponentProps.Text.ShapelessTable
import ComponentProps.Text.Spacing
import ComponentProps.TypeTable
import ComponentProps.Workspace
import ComponentProps.Proofs.AliasReading
import ComponentProps.Proofs.BracketMatching
import ComponentProps.Proofs.ByteSlices
import ComponentProps.Proofs.CallDefaults
import ComponentProps.Proofs.CodePlaces
import ComponentProps.Proofs.CodeSpacing
import ComponentProps.Proofs.Coherence
import ComponentProps.Proofs.CommentedAliases
import ComponentProps.Proofs.CommentedClauses
import ComponentProps.Proofs.CommentedParts
import ComponentProps.Proofs.CommentedScripts
import ComponentProps.Proofs.Comments
import ComponentProps.Proofs.ComponentExtraction
import ComponentProps.Proofs.ComponentSyntax
import ComponentProps.Proofs.DeclarationReading
import ComponentProps.Proofs.DeclaredNames
import ComponentProps.Proofs.DefaultSpacing
import ComponentProps.Proofs.Discovery
import ComponentProps.Proofs.Encoding
import ComponentProps.Proofs.Gathering
import ComponentProps.Proofs.GroupExtents
import ComponentProps.Proofs.GroupReading
import ComponentProps.Proofs.Identifiers
import ComponentProps.Proofs.IntakeRange
import ComponentProps.Proofs.KeywordSearch
import ComponentProps.Proofs.Layout
import ComponentProps.Proofs.LikeParts
import ComponentProps.Proofs.LineFeeds
import ComponentProps.Proofs.Links
import ComponentProps.Proofs.Lookahead
import ComponentProps.Proofs.Maps
import ComponentProps.Proofs.MarkerCalls
import ComponentProps.Proofs.MemberComposition
import ComponentProps.Proofs.MemberLines
import ComponentProps.Proofs.MemberScan
import ComponentProps.Proofs.MethodSignatures
import ComponentProps.Proofs.NextMember
import ComponentProps.Proofs.NormalForms
import ComponentProps.Proofs.OffsetScan
import ComponentProps.Proofs.Operands
import ComponentProps.Proofs.Overriding
import ComponentProps.Proofs.PartHandling
import ComponentProps.Proofs.PatternComposition
import ComponentProps.Proofs.PatternScan
import ComponentProps.Proofs.PatternSyntax
import ComponentProps.Proofs.QuoteTracking
import ComponentProps.Proofs.QuotedKeys
import ComponentProps.Proofs.Reachability
import ComponentProps.Proofs.Reading
import ComponentProps.Proofs.ReceiverReading
import ComponentProps.Proofs.Relevance
import ComponentProps.Proofs.Respacing
import ComponentProps.Proofs.ScanProgress
import ComponentProps.Proofs.ScriptGeometry
import ComponentProps.Proofs.ScriptReading
import ComponentProps.Proofs.ScriptSegments
import ComponentProps.Proofs.SearchTurns
import ComponentProps.Proofs.Searches
import ComponentProps.Proofs.Serialization
import ComponentProps.Proofs.SignatureLines
import ComponentProps.Proofs.SignatureScan
import ComponentProps.Proofs.Signatures
import ComponentProps.Proofs.Spots
import ComponentProps.Proofs.Squeezing
import ComponentProps.Proofs.Styling
import ComponentProps.Proofs.Surroundings
import ComponentProps.Proofs.TopLevelSplit
import ComponentProps.Proofs.TypeBodies
import ComponentProps.Proofs.TypeNesting
import ComponentProps.Proofs.TypeScan
import ComponentProps.Proofs.TypeSyntax
import ComponentProps.Proofs.Uniting
import ComponentProps.Proofs.Walks
import ComponentProps.Proofs.Warming
import ComponentProps.Proofs.Words
