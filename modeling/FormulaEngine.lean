import FormulaEngine.Engine
import FormulaEngine.Expr.Description
import FormulaEngine.Proofs.Grammar.Printing
import FormulaEngine.Proofs.Expr.Machine
import FormulaEngine.Proofs.Engine.Lifecycle
import FormulaEngine.Proofs.Grammar.Substitution
import FormulaEngine.Proofs.Grammar.Anchoring
import FormulaEngine.Proofs.Grammar.ImplicitZero
import FormulaEngine.Proofs.Token.Munch
import FormulaEngine.Proofs.Expr.PostOrder
import FormulaEngine.Proofs.Engine.Verdict
import FormulaEngine.Proofs.Grammar.Depth
import FormulaEngine.Proofs.Bindings.Assigned
import FormulaEngine.Proofs.Engine.Assignment
import FormulaEngine.Proofs.Engine.Invocation
import FormulaEngine.Proofs.Engine.Independence
import FormulaEngine.Proofs.Engine.Naming
import FormulaEngine.Proofs.Engine.OneShot
import FormulaEngine.Proofs.Engine.Variables
import FormulaEngine.Proofs.Grammar.Cover
import FormulaEngine.Proofs.Grammar.Descent
import FormulaEngine.Proofs.Grammar.Lockstep
import FormulaEngine.Proofs.Grammar.Driving
import FormulaEngine.Proofs.Grammar.DeadEnds
import FormulaEngine.Proofs.Expr.Traversal
import FormulaEngine.Proofs.Expr.Validity
import FormulaEngine.Proofs.Expr.Equality
import FormulaEngine.Proofs.Expr.Copy
import FormulaEngine.Proofs.Expr.ListingText
import FormulaEngine.Proofs.Text.ByteOrder
import FormulaEngine.Proofs.Library.Registration
import FormulaEngine.Proofs.Expr.Description
import FormulaEngine.Proofs.Bindings.Indexed
import FormulaEngine.Proofs.Window
import FormulaEngine.Proofs.Library.Shared
import FormulaEngine.Proofs.Grammar.Machine
import FormulaEngine.Proofs.Grammar.Progress
import FormulaEngine.Proofs.Grammar.Shift
