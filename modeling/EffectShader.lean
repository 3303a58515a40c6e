import EffectShader.Check.Grammar.Basic
import EffectShader.Check.Grammar.Expression
import EffectShader.Check.Grammar.Statement
import EffectShader.Check.Source
import EffectShader.Chunk.Registry
import EffectShader.Chunk.Resolve
import EffectShader.CommandLine.Batch
import EffectShader.CommandLine.FileTree
import EffectShader.CommandLine.Flag
import EffectShader.CommandLine.Run
import EffectShader.CommandLine.Settings
import EffectShader.Condition.Basic
import EffectShader.Condition.Eval
import EffectShader.Condition.Parser
import EffectShader.Configuration
import EffectShader.Configuration.Field
import EffectShader.Data.Basic
import EffectShader.Data.Scalar
import EffectShader.Decimal.Read
import EffectShader.Decimal.Shortest
import EffectShader.Declaration.Basic
import EffectShader.Declaration.Parser
import EffectShader.Define.Basic
import EffectShader.Define.Extraction
import EffectShader.Define.Gating
import EffectShader.Define.Metadata
import EffectShader.Diagnostic.Basic
import EffectShader.Diagnostic.Collector
import EffectShader.Diagnostic.LineMap
import EffectShader.Diagnostic.Log
import EffectShader.Document.Basic
import EffectShader.Document.Json
import EffectShader.Document.Yaml
import EffectShader.Edit
import EffectShader.Effect.Build
import EffectShader.Effect.Cleanup
import EffectShader.Effect.Entry
import EffectShader.Effect.Kind
import EffectShader.Effect.Output
import EffectShader.Effect.Program
import EffectShader.Effect.Report
import EffectShader.Effect.Session
import EffectShader.GlslType
import EffectShader.Macro.Function
import EffectShader.Macro.Literal
import EffectShader.Main
import EffectShader.Moment
import EffectShader.Numeral
import EffectShader.Proofs.Check.FlatOperators
import EffectShader.Proofs.Check.LocalDeclarations
import EffectShader.Proofs.Chunk.DepthFirst
import EffectShader.Proofs.Chunk.Expansion
import EffectShader.Proofs.Chunk.Idempotence
import EffectShader.Proofs.Chunk.Names
import EffectShader.Proofs.Chunk.Registration
import EffectShader.Proofs.Condition.Grammar
import EffectShader.Proofs.Condition.Known
import EffectShader.Proofs.Condition.Printing
import EffectShader.Proofs.Condition.Source
import EffectShader.Proofs.Condition.Spacing
import EffectShader.Proofs.Declaration.Block
import EffectShader.Proofs.Declaration.Head
import EffectShader.Proofs.Declaration.Members
import EffectShader.Proofs.Declaration.Offsets
import EffectShader.Proofs.Declaration.Replacements
import EffectShader.Proofs.Declaration.Spans
import EffectShader.Proofs.Declaration.Units
import EffectShader.Proofs.Define.Gates
import EffectShader.Proofs.Define.Lines
import EffectShader.Proofs.Define.QuotedDefaults
import EffectShader.Proofs.Define.Sets
import EffectShader.Proofs.Define.Soundness
import EffectShader.Proofs.Diagnostic.LineMap
import EffectShader.Proofs.Reachability.Blanking
import EffectShader.Proofs.Downgrade.Collapse
import EffectShader.Proofs.Downgrade.Prelude
import EffectShader.Proofs.Edit
import EffectShader.Proofs.Effect.CleanTexts
import EffectShader.Proofs.Effect.Cleanup
import EffectShader.Proofs.Effect.Listing
import EffectShader.Proofs.Effect.TrailingBlanks
import EffectShader.Proofs.Effect.Warnings
import EffectShader.Proofs.Fold.Accepted
import EffectShader.Proofs.Fold.Follows
import EffectShader.Proofs.Fold.Idempotence
import EffectShader.Proofs.Fold.Meaning
import EffectShader.Proofs.Fold.Runs
import EffectShader.Proofs.Legacy.Declarations
import EffectShader.Proofs.Legacy.Dropped
import EffectShader.Proofs.Legacy.Edits
import EffectShader.Proofs.Legacy.Groups
import EffectShader.Proofs.Legacy.Interface
import EffectShader.Proofs.Legacy.Leaves
import EffectShader.Proofs.Legacy.LineCount
import EffectShader.Proofs.Legacy.Mentions
import EffectShader.Proofs.Legacy.Relexing
import EffectShader.Proofs.Legacy.Remains
import EffectShader.Proofs.Legacy.Statements
import EffectShader.Proofs.Macro.CallSites
import EffectShader.Proofs.Macro.CarriedCalls
import EffectShader.Proofs.Macro.CarriedDefinitions
import EffectShader.Proofs.Macro.Chained
import EffectShader.Proofs.Macro.Completion
import EffectShader.Proofs.Macro.Definitions
import EffectShader.Proofs.Macro.KeptLines
import EffectShader.Proofs.Macro.LineEnds
import EffectShader.Proofs.Macro.PragmaLines
import EffectShader.Proofs.Macro.Spelling
import EffectShader.Proofs.Macro.Substitution
import EffectShader.Proofs.Preprocess
import EffectShader.Proofs.Reachability.Elimination
import EffectShader.Proofs.Reachability.Kept
import EffectShader.Proofs.Reachability.Unmentioned
import EffectShader.Proofs.Resource.Agreement
import EffectShader.Proofs.Resource.Allocation
import EffectShader.Proofs.Resource.BlockLayout
import EffectShader.Proofs.Resource.Decorated
import EffectShader.Proofs.Resource.ExactLayout
import EffectShader.Proofs.Resource.Merging
import EffectShader.Proofs.Resource.Outlines
import EffectShader.Proofs.Resource.Preserved
import EffectShader.Proofs.Resource.Qualify
import EffectShader.Proofs.Resource.Records
import EffectShader.Proofs.Resource.SharedSlots
import EffectShader.Proofs.Resource.Split
import EffectShader.Proofs.Strict.Switches
import EffectShader.Proofs.Subpass
import EffectShader.Proofs.Subpass.Attachments
import EffectShader.Proofs.Subpass.Block
import EffectShader.Proofs.Subpass.Dialects
import EffectShader.Proofs.Subpass.Emission
import EffectShader.Proofs.Subpass.Lines
import EffectShader.Proofs.Subpass.Numbers
import EffectShader.Proofs.Text.Carriages
import EffectShader.Proofs.Text.Lines
import EffectShader.Proofs.Text.Runes
import EffectShader.Proofs.Text.Search
import EffectShader.Proofs.Text.Trim
import EffectShader.Proofs.Token.Barrier
import EffectShader.Proofs.Token.Cuts
import EffectShader.Proofs.Token.DirectiveBounds
import EffectShader.Proofs.Token.DirectiveText
import EffectShader.Proofs.Token.FirstLine
import EffectShader.Proofs.Token.LineByLine
import EffectShader.Proofs.Token.LineStarts
import EffectShader.Proofs.Token.Pieces
import EffectShader.Proofs.Token.Positions
import EffectShader.Reachability
import EffectShader.Resource.Basic
import EffectShader.Resource.Decorate
import EffectShader.Resource.Reflect
import EffectShader.Resource.Slots
import EffectShader.Resource.Std140
import EffectShader.Stage
import EffectShader.Strict.Command
import EffectShader.Strict.Source
import EffectShader.Subpass
import EffectShader.Table
import EffectShader.Target.Downgrade
import EffectShader.Target.Fold
import EffectShader.Target.Legacy
import EffectShader.Target.Legacy.Interface
import EffectShader.Target.Legacy.Statement
import EffectShader.Text.Base64
import EffectShader.Text.Basic
import EffectShader.Text.Blank
import EffectShader.Text.Letter
import EffectShader.Text.Quoted
import EffectShader.Text.Rune
import EffectShader.Token.Basic
import EffectShader.Token.Directive
import EffectShader.Token.Lexer
import EffectShader.Token.Stream
import EffectShader.Token.Word
import EffectShader.Toml.Basic
import EffectShader.Toml.Definitions
import EffectShader.Toml.Parser
import EffectShader.Toml.Quoted
import EffectShader.Version
import EffectShader.Yaml.Cursor
import EffectShader.Yaml.Node
import EffectShader.Yaml.Scalar
import EffectShader.Yaml.Token
import EffectShader.Yaml.Tokens
import EffectShader.Yaml.Value
