import SExpression.Main
import SExpression.Proofs.BareRuns
import SExpression.Proofs.ChainSessions
import SExpression.Proofs.ColumnEquality
import SExpression.Proofs.Comments
import SExpression.Proofs.Continuation
import SExpression.Proofs.LineCounts
import SExpression.Proofs.LoopInvariant
import SExpression.Proofs.NumericPolicies
import SExpression.Proofs.QuotedSections
import SExpression.Proofs.Reports
import SExpression.Proofs.Rereading
import SExpression.Proofs.Separators
import SExpression.Proofs.SplitPieces
import SExpression.Proofs.StartingBalance
