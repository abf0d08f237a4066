import Peg.Grammar.Dump
import Peg.Grammar.Table
import Peg.Json.Codec
import Peg.Match.Run
import Peg.Matcher.Checked
import Peg.Matcher.Dump
import Peg.Matcher.Interner
import Peg.Optimize.Session
import Peg.Proofs.Denotation
import Peg.Proofs.Refinement
import Peg.Proofs.Backtracking
import Peg.Proofs.CharRuns
import Peg.Proofs.Form
import Peg.Proofs.OptimizedForm
import Peg.Proofs.MergedRuns
import Peg.Proofs.NormalForm
import Peg.Proofs.BuiltTables
import Peg.Proofs.RebuiltTables
import Peg.Proofs.OptimizedMeaning
import Peg.Proofs.Adequacy
import Peg.Proofs.ParsedRuns
import Peg.Proofs.NullableMatches
import Peg.Proofs.RuleDepth
import Peg.Proofs.UnboundedLoops
import Peg.Proofs.DepthLimit
import Peg.Proofs.ShiftedRuns
import Peg.Proofs.Attempts
import Peg.Proofs.BeforeConsuming
import Peg.Proofs.NameCycles
import Peg.Proofs.ValidGrammars
import Peg.Proofs.ReorderedRules
import Peg.Proofs.InternedTrees
import Peg.Proofs.SharedOptimization
import Peg.Proofs.ReaderSessions
import Peg.Proofs.SavelessMatchers
import Peg.Proofs.StillRepetitions
import Peg.Proofs.TracedRuns
import Peg.Proofs.FailureChains
import Peg.Proofs.ReportedText
import Peg.Proofs.Phrases
import Peg.Proofs.PrintedExpressions
import Peg.Proofs.UnambiguousPrint
import Peg.Proofs.LeastNullable
import Peg.Proofs.NormalChoices
import Peg.Proofs.ExhaustedChoices
import Peg.Proofs.DiagnosticLabels
import Peg.Proofs.CycleSearch
import Peg.Proofs.LocationOrder
import Peg.Proofs.CheckedConstruction
import Peg.Proofs.Termination
import Peg.Proofs.RearrangedRuns
import Peg.Proofs.CursorMoves
