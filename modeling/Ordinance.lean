import Ordinance.Dict
import Ordinance.Span
import Ordinance.Ty.Basic
import Ordinance.Ty.Render
import Ordinance.Word
import Ordinance.Literal
import Ordinance.Op.Basic
import Ordinance.Op.Signature
import Ordinance.Var
import Ordinance.Expr.Basic
import Ordinance.Expr.Traversal
import Ordinance.Decls
import Ordinance.Program
import Ordinance.Diagnostic
import Ordinance.Store.Shape
import Ordinance.Store.Basic
import Ordinance.Store.Unify
import Ordinance.Typing.Error
import Ordinance.Typing.Env
import Ordinance.Typing.Elaborate
import Ordinance.Typing.Check
import Ordinance.Lift.Type
import Ordinance.Lift.Error
import Ordinance.Lift.Build
import Ordinance.Lift.Forms
import Ordinance.Lift.Expr
import Ordinance.Lift.Program
import Ordinance.Compile
import Ordinance.Samples
import Ordinance.Eval.Value
import Ordinance.Eval.Basic
import Ordinance.Proofs.Dict
import Ordinance.Proofs.Ty.Instance
import Ordinance.Proofs.Store.Wf
import Ordinance.Proofs.Store.Growth
import Ordinance.Proofs.Store.Merge
import Ordinance.Proofs.Store.Unify
import Ordinance.Proofs.Store.Model
import Ordinance.Proofs.Expr.Basic
import Ordinance.Proofs.Typing.Rules
import Ordinance.Proofs.Typing.Run
import Ordinance.Proofs.Typing.Steps
import Ordinance.Proofs.Typing.Soundness.Check
import Ordinance.Proofs.Typing.Completeness.Lists
import Ordinance.Proofs.Typing.Completeness.Control
import Ordinance.Proofs.Typing.Completeness.Data
import Ordinance.Proofs.Typing.Completeness.Check
import Ordinance.Proofs.Lift.Run
import Ordinance.Proofs.Lift.Type
import Ordinance.Proofs.Lift.Typing.Build
import Ordinance.Proofs.Op.Signature
import Ordinance.Proofs.Lift.Typing.Forms
import Ordinance.Proofs.Lift.Typing.Context
import Ordinance.Proofs.Lift.Typing.Rules
import Ordinance.Proofs.Lift.Typing.Expr
import Ordinance.Proofs.Lift.Typing.Check
import Ordinance.Proofs.Program.Basic
import Ordinance.Proofs.Typing.Program
import Ordinance.Proofs.Lift.Typing.Recheck
import Ordinance.Proofs.Lift.Typing.Program
import Ordinance.Proofs.Eval.Run
import Ordinance.Proofs.Lift.Eval.Value
import Ordinance.Proofs.Lift.Eval.Build
import Ordinance.Proofs.Lift.Eval.Forms
import Ordinance.Proofs.Lift.Eval.Expr
import Ordinance.Proofs.Lift.Eval.Meaning
import Ordinance.Proofs.Store.Reachable
import Ordinance.Proofs.Store.MostGeneral
import Ordinance.Proofs.Store.Consistency
import Ordinance.Proofs.Typing.Principal
import Ordinance.Proofs.Expr.Instance
import Ordinance.Proofs.Typing.Exact
import Ordinance.Proofs.Typing.Locations
import Ordinance.Proofs.Typing.Rechecked
import Ordinance.Proofs.Typing.Uses
import Ordinance.Proofs.Expr.Scope
import Ordinance.Proofs.Lift.Hygiene.Forms
import Ordinance.Proofs.Lift.Hygiene.Expr
import Ordinance.Proofs.Lift.Hygiene.Program
import Ordinance.Proofs.Lift.Success
import Ordinance.Proofs.Lift.Typing.ThunkCall
import Ordinance.Proofs.Lift.Eval.Fold
import Ordinance.Proofs.Store.Symmetry
import Ordinance.Proofs.Typing.Independence
import Ordinance.Proofs.Lift.Output.Forms
import Ordinance.Proofs.Lift.Output.Program
import Ordinance.Proofs.Store.Unplaced
import Ordinance.Proofs.Program.Unplaced
import Ordinance.Proofs.Typing.Unplaced
import Ordinance.Proofs.Lift.Unplaced
import Ordinance.Proofs.Compile
import Ordinance.Proofs.Store.Termination
import Ordinance.Proofs.Store.Leader
import Ordinance.Proofs.Store.Trace
import Ordinance.Proofs.Typing.Trace
import Ordinance.Proofs.Lift.Eval.Bind
import Ordinance.Proofs.Literal
import Ordinance.Proofs.Typing.Untyped
import Ordinance.Proofs.Lift.Size
import Ordinance.Proofs.Eval.Fuel
import Ordinance.Proofs.Lift.Eval.Lists
import Ordinance.Proofs.Store.Load
import Ordinance.Proofs.Ty.Render
import Ordinance.Proofs.Expr.Traversal
