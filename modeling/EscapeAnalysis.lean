import EscapeAnalysis.Proofs.Analysis.Agreement
import EscapeAnalysis.Proofs.Analysis.CallPaths
import EscapeAnalysis.Proofs.Analysis.Captures
import EscapeAnalysis.Proofs.Analysis.Climbing
import EscapeAnalysis.Proofs.Analysis.Fitting
import EscapeAnalysis.Proofs.Analysis.Graphs
import EscapeAnalysis.Proofs.Analysis.LoopDepths
import EscapeAnalysis.Proofs.Analysis.NotedArguments
import EscapeAnalysis.Proofs.Analysis.StatementLocals
import EscapeAnalysis.Proofs.Analysis.WorkStacks
import EscapeAnalysis.Proofs.Dumps
import EscapeAnalysis.Proofs.Flood.Ends
import EscapeAnalysis.Proofs.Flood.LevelTerms
import EscapeAnalysis.Proofs.Groups.CalleeOrder
import EscapeAnalysis.Proofs.Groups.Closures
import EscapeAnalysis.Proofs.Reporting.Reports
import EscapeAnalysis.Proofs.Rerun.Stability
import EscapeAnalysis.Proofs.Types.Rendering
import EscapeAnalysis.Proofs.Words.NoteGrammar
import EscapeAnalysis.Proofs.Words.OutputFlows
