import FortressLang.Main
import FortressLang.Proofs.AcceptedPrograms
import FortressLang.Proofs.CleanSessions
import FortressLang.Proofs.CompiledArithmetic
import FortressLang.Proofs.CustomGrammars
import FortressLang.Proofs.DrawnStatements
import FortressLang.Proofs.ExprReadBack
import FortressLang.Proofs.FilledChains
import FortressLang.Proofs.FirstError
import FortressLang.Proofs.FirstStores
import FortressLang.Proofs.FlowGraph
import FortressLang.Proofs.HeldStorage
import FortressLang.Proofs.LoweringRuns
import FortressLang.Proofs.ModuleReading
import FortressLang.Proofs.NegatedExpr
import FortressLang.Proofs.NestingCounter
import FortressLang.Proofs.NumberedTemporaries
import FortressLang.Proofs.ParserHalts
import FortressLang.Proofs.PredictiveTable
import FortressLang.Proofs.ReadBack
import FortressLang.Proofs.ReadDescriptions
import FortressLang.Proofs.RecursionDepth
import FortressLang.Proofs.RuleLog
import FortressLang.Proofs.SuccessiveRuns
import FortressLang.Proofs.TiledText
import FortressLang.Proofs.WrittenTokens
