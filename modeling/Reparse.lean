import Reparse.Coordinates
import Reparse.Diagnostic
import Reparse.Diagnostic.Code
import Reparse.Diagnostic.Reporter
import Reparse.Document
import Reparse.Grammar.Definitions
import Reparse.Grammar.Expressions
import Reparse.Grammar.Statements
import Reparse.Grammar.Types
import Reparse.Lexeme
import Reparse.Memo
import Reparse.Operator
import Reparse.Parser
import Reparse.Parser.Flags
import Reparse.Parser.Recall
import Reparse.Parser.Series
import Reparse.Parser.State
import Reparse.Proofs.Assembly
import Reparse.Proofs.Backtracking
import Reparse.Proofs.Bindings
import Reparse.Proofs.ByteScanning
import Reparse.Proofs.CommentConservation
import Reparse.Proofs.Completeness
import Reparse.Proofs.Coordinates
import Reparse.Proofs.DefinitionEntries
import Reparse.Proofs.DocumentRuns
import Reparse.Proofs.EditRange
import Reparse.Proofs.ExactShifts
import Reparse.Proofs.Grammar.Agree.Expressions
import Reparse.Proofs.Grammar.Agree.Statements
import Reparse.Proofs.Grammar.Agree.Types
import Reparse.Proofs.Grammar.Alike.Definitions
import Reparse.Proofs.Grammar.Alike.Expressions
import Reparse.Proofs.Grammar.Alike.Rules
import Reparse.Proofs.Grammar.Alike.Statements
import Reparse.Proofs.Grammar.Alike.Types
import Reparse.Proofs.Grammar.Build.Definitions
import Reparse.Proofs.Grammar.Build.Expressions
import Reparse.Proofs.Grammar.Build.Statements
import Reparse.Proofs.Grammar.Build.Types
import Reparse.Proofs.Grammar.Complete.Definitions
import Reparse.Proofs.Grammar.Complete.Expressions
import Reparse.Proofs.Grammar.Complete.Statements
import Reparse.Proofs.Grammar.Complete.Types
import Reparse.Proofs.Grammar.Courses.Definitions
import Reparse.Proofs.Grammar.Courses.Expressions
import Reparse.Proofs.Grammar.Grammatical
import Reparse.Proofs.Grammar.Headway
import Reparse.Proofs.Grammar.Naming
import Reparse.Proofs.Grammar.Remarks.Definitions
import Reparse.Proofs.Grammar.Remarks.Expressions
import Reparse.Proofs.Grammar.Remarks.Statements
import Reparse.Proofs.Grammar.Remarks.Types
import Reparse.Proofs.Grammar.Realizations
import Reparse.Proofs.Grammar.Shape
import Reparse.Proofs.Grammar.Sound.Definitions
import Reparse.Proofs.Grammar.Sound.Expressions
import Reparse.Proofs.Grammar.Sound.Statements
import Reparse.Proofs.Grammar.Sound.Types
import Reparse.Proofs.Grammar.Spelling
import Reparse.Proofs.Grammar.Wholeness
import Reparse.Proofs.Innermost
import Reparse.Proofs.Laminarity
import Reparse.Proofs.LazyShifts
import Reparse.Proofs.Lexeme.ByteLoops
import Reparse.Proofs.Lexeme.ByteScanner
import Reparse.Proofs.Lexeme.ByteTokens
import Reparse.Proofs.Lexeme.Cut
import Reparse.Proofs.Lexeme.Layout
import Reparse.Proofs.Lexeme.LexicalGrammar
import Reparse.Proofs.Lexeme.LongestMatch
import Reparse.Proofs.Lexeme.OwnText
import Reparse.Proofs.Locality
import Reparse.Proofs.Memo
import Reparse.Proofs.MemoExactness
import Reparse.Proofs.MemoTransparency
import Reparse.Proofs.MisplacedJumps
import Reparse.Proofs.MixedLogic
import Reparse.Proofs.NoMatch
import Reparse.Proofs.Octets
import Reparse.Proofs.Parser.AgreeLoops
import Reparse.Proofs.Parser.Agreement
import Reparse.Proofs.Parser.Bare
import Reparse.Proofs.Parser.BuildSeries
import Reparse.Proofs.Parser.Builds
import Reparse.Proofs.Parser.Courses
import Reparse.Proofs.Parser.Eval
import Reparse.Proofs.Parser.FindSeries
import Reparse.Proofs.Parser.Finds
import Reparse.Proofs.Parser.Footprints
import Reparse.Proofs.Parser.Headway
import Reparse.Proofs.Parser.Layout
import Reparse.Proofs.Parser.ReadSeries
import Reparse.Proofs.Parser.Reads
import Reparse.Proofs.Parser.Realizations
import Reparse.Proofs.Parser.Remarks
import Reparse.Proofs.Parser.Results
import Reparse.Proofs.Parser.Routines
import Reparse.Proofs.Parser.SeriesSteps
import Reparse.Proofs.Parser.Skipping
import Reparse.Proofs.Parser.Strides
import Reparse.Proofs.Parser.Trails
import Reparse.Proofs.Parser.TwinRules
import Reparse.Proofs.Parser.TwinSeries
import Reparse.Proofs.Parser.TwinSteps
import Reparse.Proofs.Parser.Twins
import Reparse.Proofs.Parser.Validity
import Reparse.Proofs.Parser.Walks
import Reparse.Proofs.Precedence
import Reparse.Proofs.Progress
import Reparse.Proofs.Regions
import Reparse.Proofs.Relexing
import Reparse.Proofs.Renumbering
import Reparse.Proofs.Reparsing
import Reparse.Proofs.ReportPlaces
import Reparse.Proofs.ReuseCompleteness
import Reparse.Proofs.SameTokens
import Reparse.Proofs.Scanning
import Reparse.Proofs.SeriesRun
import Reparse.Proofs.ShownDiagnostics
import Reparse.Proofs.SkippedRuns
import Reparse.Proofs.Soundness
import Reparse.Proofs.StringLiterals
import Reparse.Proofs.Termination
import Reparse.Proofs.Text
import Reparse.Proofs.Timeline
import Reparse.Proofs.TokenStream.Contents
import Reparse.Proofs.TokenStream.Exchange
import Reparse.Proofs.TokenStream.LineFeeds
import Reparse.Proofs.TokenStream.Numbering
import Reparse.Proofs.TokenStream.Offsets
import Reparse.Proofs.TokenStream.Retirement
import Reparse.Proofs.TokenStream.Sink
import Reparse.Proofs.TokenStream.Splicing
import Reparse.Proofs.TokenStream.Tiling
import Reparse.Proofs.TokenStream.Widening
import Reparse.Proofs.Tree.Chains
import Reparse.Proofs.Tree.Identifiers
import Reparse.Proofs.Tree.Innermost
import Reparse.Proofs.Tree.Map
import Reparse.Proofs.Tree.Nodes
import Reparse.Proofs.Tree.Parts
import Reparse.Proofs.Tree.Shape
import Reparse.Proofs.VisitedIdentifiers
import Reparse.Proofs.WarmReparse
import Reparse.Proofs.WellFormedEntries
import Reparse.Text
import Reparse.Text.Alphabetic
import Reparse.Text.Quoted
import Reparse.Timeline
import Reparse.Token
import Reparse.Token.Anchor
import Reparse.Token.Kind
import Reparse.Token.KindSet
import Reparse.TokenStream
import Reparse.TokenStream.Edit
import Reparse.TokenStream.Mutation
import Reparse.Tree
import Reparse.Tree.Info
import Reparse.Tree.Outline
