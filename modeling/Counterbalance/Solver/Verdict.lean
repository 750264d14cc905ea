import Counterbalance.Text.Decimal

/-! What a solver reports: a model, as one signed entry per variable, or that there is none. -/

namespace Counterbalance

inductive Verdict where
  | satisfiable (entries : List Int)
  | unsatisfiable
deriving DecidableEq, Repr

namespace Verdict

def isSatisfiable : Verdict → Bool
  | .satisfiable _ => true
  | .unsatisfiable => false

/-- A status line and, with a model, one line of its entries. -/
def text : Verdict → String
  | .satisfiable entries =>
    "s SATISFIABLE\nv " ++ String.join (entries.map fun x => Text.decimal x ++ " ") ++ "0\n"
  | .unsatisfiable => "s UNSATISFIABLE\n"

end Verdict

end Counterbalance
