import ModalBounds.Json.Read
import ModalBounds.Main
import ModalBounds.Proofs.Evaluation.Cursor
import ModalBounds.Proofs.Evaluation.Completion
import ModalBounds.Proofs.Evaluation.Slack
import ModalBounds.Proofs.Evaluation.Undefined
import ModalBounds.Proofs.Tightening.Narrowing
import ModalBounds.Proofs.Tightening.Nodes
import ModalBounds.Proofs.Tightening.Existence
import ModalBounds.Proofs.Evaluation.Dual
import ModalBounds.Proofs.Tightening.Containment
import ModalBounds.Proofs.Expr.Faithful
import ModalBounds.Proofs.Tightening.Steps
import ModalBounds.Proofs.Tightening.Limits
import ModalBounds.Proofs.Expr.Slope
import ModalBounds.Proofs.Syntax.Totality
import ModalBounds.Proofs.Syntax.Lexical
import ModalBounds.Proofs.Syntax.NumberText
import ModalBounds.Proofs.Syntax.Written
import ModalBounds.Proofs.Syntax.Reading
import ModalBounds.Proofs.Syntax.RoundTrip
import ModalBounds.Proofs.Syntax.WellFormed
import ModalBounds.Proofs.Syntax.Folding
import ModalBounds.Proofs.Constraint.Written
import ModalBounds.Proofs.Constraint.Reading
import ModalBounds.Proofs.Constraint.RoundTrip
import ModalBounds.Proofs.Constraint.Block
import ModalBounds.Proofs.Interval.Inverse
import ModalBounds.Proofs.Constraint.Place
import ModalBounds.Proofs.Json.RoundTrip
import ModalBounds.Proofs.Interval.Built
import ModalBounds.Proofs.Interval.Power
import ModalBounds.Proofs.Interval.Wave
import ModalBounds.Proofs.Syntax.Layout
import ModalBounds.Proofs.Constraint.Violation
import ModalBounds.Proofs.Tightening.Built
import ModalBounds.Proofs.Reachable
