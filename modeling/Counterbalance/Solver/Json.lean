import Counterbalance.Json.Shape
import Counterbalance.Logic.Literal
import Counterbalance.Solver.Verdict

/-! Literals and verdicts in JSON: a literal is its signed number, a verdict a variant that carries
the entries of the model. -/

namespace Counterbalance

def Literal.toJson (l : Literal) : Json := Json.ofInt l.code

/-- Zero is no literal. -/
def Literal.ofJson? (j : Json) : Option Literal := do
  (Literal.ofCode (← Json.int? j)).toOption

def Verdict.toJson : Verdict → Json
  | .satisfiable entries => Json.variant "Satisfiable" (.array (entries.map Json.ofInt))
  | .unsatisfiable => Json.ofString "Unsatisfiable"

def Verdict.ofJson? (j : Json) : Option Verdict := do
  match ← Json.variant? j with
  | ("Satisfiable", some payload) => do
    some (.satisfiable (← (← Json.array? payload).mapM Json.int32?))
  | ("Unsatisfiable", payload) => if Json.isNothing payload then some .unsatisfiable else none
  | _ => none

end Counterbalance
