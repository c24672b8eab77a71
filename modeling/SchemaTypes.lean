import SchemaTypes.Command.Arguments
import SchemaTypes.Command.Basic
import SchemaTypes.Command.Files
import SchemaTypes.Command.Saving
import SchemaTypes.Command.Words
import SchemaTypes.Comment
import SchemaTypes.Decimal.Layout
import SchemaTypes.Decimal.Numeral
import SchemaTypes.Decimal.Shortest
import SchemaTypes.Declaration.Basic
import SchemaTypes.Declaration.Expansion
import SchemaTypes.Declaration.Memo
import SchemaTypes.Documentation
import SchemaTypes.Expression.Basic
import SchemaTypes.Expression.Formatted
import SchemaTypes.Expression.Key
import SchemaTypes.Expression.Library
import SchemaTypes.Expression.Links
import SchemaTypes.Expression.Rendering
import SchemaTypes.Expression.Settings
import SchemaTypes.Failure
import SchemaTypes.Formatter.Basic
import SchemaTypes.Formatter.Options
import SchemaTypes.Formatter.Prettier
import SchemaTypes.Json.Basic
import SchemaTypes.Json.Display
import SchemaTypes.Json.Equality
import SchemaTypes.Json.Printer
import SchemaTypes.Json.Reader
import SchemaTypes.Main
import SchemaTypes.Pointer
import SchemaTypes.Reference
import SchemaTypes.Reference.Snapshots
import SchemaTypes.Schema.Node
import SchemaTypes.Schema.Reading
import SchemaTypes.Step
import SchemaTypes.Table
import SchemaTypes.Text.Blank
import SchemaTypes.Text.Halves
import SchemaTypes.Text.Lines
import SchemaTypes.Text.Percent
import SchemaTypes.Text.Printable
import SchemaTypes.Text.Quoted
import SchemaTypes.Text.Search
import SchemaTypes.Text.Utf8
import SchemaTypes.TsModule.Basic
import SchemaTypes.TsModule.Settings
import SchemaTypes.Proofs.Renderings
import SchemaTypes.Proofs.SchemaTrees
import SchemaTypes.Proofs.Chains
import SchemaTypes.Proofs.Expressions
import SchemaTypes.Proofs.Inlining
import SchemaTypes.Proofs.Expansions
import SchemaTypes.Proofs.Shadows
import SchemaTypes.Proofs.Termination
import SchemaTypes.Proofs.Hosts
import SchemaTypes.Proofs.Collecting
import SchemaTypes.Proofs.Grafting
import SchemaTypes.Proofs.Substitution
import SchemaTypes.Proofs.Grammar
import SchemaTypes.Proofs.Precedence
import SchemaTypes.Proofs.Courses
import SchemaTypes.Proofs.Attempts
import SchemaTypes.Proofs.MemoDiscipline
import SchemaTypes.Proofs.Tables
import SchemaTypes.Proofs.Reporting
import SchemaTypes.Proofs.Spellings
import SchemaTypes.Proofs.Modules
import SchemaTypes.Proofs.DependencyOrder
import SchemaTypes.Proofs.PercentEncoding
import SchemaTypes.Proofs.Paths
import SchemaTypes.Proofs.NamedSchemas
import SchemaTypes.Proofs.FirstTargets
import SchemaTypes.Proofs.Exploring
import SchemaTypes.Proofs.Selections
import SchemaTypes.Proofs.Configurations
import SchemaTypes.Proofs.WrittenPaths
import SchemaTypes.Proofs.GivenArguments
import SchemaTypes.Proofs.CommandLines
import SchemaTypes.Proofs.Commands
import SchemaTypes.Proofs.UnformattedRuns
import SchemaTypes.Proofs.ProgramCalls
import SchemaTypes.Proofs.FormatterCalls
import SchemaTypes.Proofs.MissingFormatter
import SchemaTypes.Proofs.OneLine
import SchemaTypes.Proofs.Paragraphs
import SchemaTypes.Proofs.ModuleTexts
import SchemaTypes.Proofs.Couples
import SchemaTypes.Proofs.Undocumented
import SchemaTypes.Proofs.Likenesses
import SchemaTypes.Proofs.CodeLines
import SchemaTypes.Proofs.DocumentedTypes
import SchemaTypes.Proofs.Occurrences
import SchemaTypes.Proofs.MissingTargets
import SchemaTypes.Proofs.Margins
import SchemaTypes.Proofs.Layouts
import SchemaTypes.Proofs.RecordMembers
import SchemaTypes.Proofs.RecordBodies
import SchemaTypes.Proofs.Escaping
import SchemaTypes.Proofs.BlockComments
import SchemaTypes.Proofs.LineComments
import SchemaTypes.Proofs.PropertyComments
import SchemaTypes.Proofs.Searching
import SchemaTypes.Proofs.AliasBodies
import SchemaTypes.Proofs.FirstSnapshots
import SchemaTypes.Proofs.Sessions
import SchemaTypes.Proofs.Availability
import SchemaTypes.Proofs.WrittenSettings
import SchemaTypes.Proofs.Keywords
import SchemaTypes.Proofs.Origins
import SchemaTypes.Proofs.ChainEnds
import SchemaTypes.Proofs.Numbers
import SchemaTypes.Proofs.Names
import SchemaTypes.Proofs.Histories
