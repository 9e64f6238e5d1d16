import Kryndel.Lexical.Skeleton
import Kryndel.Syntax.Source
import Kryndel.Lexical.Lexer
import Kryndel.Syntax.Types
import Kryndel.Values.Value
import Kryndel.Syntax.Ast
import Kryndel.Checker.TypeEnv
import Kryndel.Values.Typing
import Kryndel.Match.Exhaustive
import Kryndel.Checker.Check
import Kryndel.Checker.Outline
import Kryndel.Checker.Places
import Kryndel.Checker.Coverage
import Kryndel.Checker.Records
import Kryndel.Checker.ExprRecords
import Kryndel.Checker.BlockRecords
import Kryndel.Checker.Onward
import Kryndel.Checker.Nodes
import Kryndel.Checker.Program
import Kryndel.Checker.ProgramRecords
import Kryndel.Checker.Captures
import Kryndel.Kir.Arena
import Kryndel.Kir.Builder
import Kryndel.Kir.BuilderRows
import Kryndel.Kir.Bindings
import Kryndel.Checker.Substitution
import Kryndel.Memory.TermGraph
import Kryndel.Evaluation.Operands
import Kryndel.Evaluation.Settled
import Kryndel.Kir.TypeExpression
import Kryndel.Kir.TypeCache
import Kryndel.Kir.TypeSubstitution
import Kryndel.Evaluation.Renaming
import Kryndel.Kir.Tree
import Kryndel.CBackend.Expression
import Kryndel.CBackend.Order
import Kryndel.Worklist.Exploration
import Kryndel.Package.Version
import Kryndel.Package.Install
import Kryndel.Package.Resolution
import Kryndel.Wire.LittleEndian
import Kryndel.Files.Containment
import Kryndel.Artifact.RoundTrip
import Kryndel.Tables.Store
import Kryndel.Tables.Program
import Kryndel.Kir.Lossless
import Kryndel.Kir.TreeForm
import Kryndel.Kir.Lowering
import Kryndel.Kir.SourceTree
import Kryndel.Kir.SourceDocument
import Kryndel.Persistent.Chunks
import Kryndel.Persistent.Tree
import Kryndel.Persistent.Versions
import Kryndel.Persistent.Runs
import Kryndel.Systems.Run
import Kryndel.Systems.BoundedWalk
import Kryndel.Systems.Assoc
import Kryndel.Values.Copyable
import Kryndel.Concurrency.Channel
import Kryndel.Concurrency.Delivery
import Kryndel.Checker.Visibility
import Kryndel.Lsp.Server
import Kryndel.Lsp.Diagnostics
import Kryndel.Lsp.Offsets
import Kryndel.Discord.Gateway
import Kryndel.Discord.Ledger
import Kryndel.Discord.Eviction
import Kryndel.Discord.RateLimits
import Kryndel.Discord.Guilds
import Kryndel.WebSocket.Reassembly
import Kryndel.PE.ImageLayout
import Kryndel.Values.Holding
import Kryndel.Checker.Copyability
import Kryndel.Kir.TypeText
import Kryndel.Kir.TypeSplit
import Kryndel.Checker.Flow
import Kryndel.Kir.Execution
import Kryndel.Kir.ExecState
import Kryndel.Kir.Executor
import Kryndel.Kir.Histories
import Kryndel.Kir.ExprHistories
import Kryndel.Kir.Deferred
import Kryndel.Kir.Returns
import Kryndel.Systems.Slices
import Kryndel.Values.Template
import Kryndel.Values.Arithmetic
import Kryndel.Values.Slicing
import Kryndel.Concurrency.Dispatch
import Kryndel.Lexical.Literal
import Kryndel.Systems.Keyed
import Kryndel.Values.Equality
import Kryndel.Values.Representation
import Kryndel.Values.Collections
import Kryndel.Values.Interchange
import Kryndel.Systems.Words
import Kryndel.Kir.TypeNames
import Kryndel.Kir.TypeTokens
import Kryndel.Kir.TypeChildren
import Kryndel.CText.StringLiteral
import Kryndel.CBackend.Strings
import Kryndel.Artifact.Sealed
import Kryndel.Package.Choice
import Kryndel.Package.ManifestText
import Kryndel.Package.Packing
import Kryndel.Values.RandomInt
import Kryndel.Artifact.KeyDerivation
import Kryndel.Modules.Merging
import Kryndel.Dotenv.Comments
import Kryndel.CBackend.Reduction
import Kryndel.CBackend.JsonParse
import Kryndel.PE.FrameExact
import Kryndel.PE.Labels
import Kryndel.CBackend.PolyTable
import Kryndel.CBackend.Hashes
import Kryndel.Kir.Scopes
import Kryndel.CBackend.Gcm
import Kryndel.CBackend.Keys
import Kryndel.CBackend.Base64
import Kryndel.Evaluation.Folding
