import LineCalc.Main
import LineCalc.Proofs.ReadingRun
import LineCalc.Proofs.GrammarAcceptance
import LineCalc.Proofs.ReadingLocality
import LineCalc.Proofs.SyntaxErrorPlace
import LineCalc.Proofs.ExpectedTokens
import LineCalc.Proofs.ParserReuse
import LineCalc.Proofs.HeightBound
import LineCalc.Proofs.NestingLimit
import LineCalc.Proofs.LexicalGrammar
import LineCalc.Proofs.LongestMatch
import LineCalc.Proofs.SourceTiling
import LineCalc.Proofs.TouchedLines
import LineCalc.Proofs.Bindings
import LineCalc.Proofs.IntegerArithmetic
import LineCalc.Proofs.IntegerEvaluation
import LineCalc.Proofs.ExactComparison
import LineCalc.Proofs.EvaluationWalk
import LineCalc.Proofs.SessionHistory
import LineCalc.Proofs.MovedPlaces
import LineCalc.Proofs.PrintedExpression
import LineCalc.Proofs.PrintedTokens
import LineCalc.Proofs.ValueFrames
import LineCalc.Proofs.EvaluationAgreement
import LineCalc.Proofs.ReportPlace
import LineCalc.Proofs.LineOffset
import LineCalc.Proofs.FirstLine
import LineCalc.Proofs.ScriptAndSession
import LineCalc.Proofs.EnvironmentLinks
import LineCalc.Proofs.Shadowing
import LineCalc.Proofs.TracebackFrames
import LineCalc.Proofs.NodeSpans
import LineCalc.Proofs.FailurePlace
import LineCalc.Proofs.BlankSeparation
import LineCalc.Proofs.ExcerptAndDrawing
