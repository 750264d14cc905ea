/-! Constraints on the order of trials. -/

namespace Counterbalance

/-- What a limit on repetition counts. -/
inductive Target where
  | level (factor level : String)
  /-- Every level of the factor, each on its own. -/
  | factor (name : String)
deriving DecidableEq, Repr

inductive Constraint where
  /-- The target holds in at most `k` consecutive trials of those in which its factor applies. -/
  | atMostInARow (k : Nat) (target : Target)
  /-- The level never holds. -/
  | exclude (factor level : String)
deriving DecidableEq, Repr

/-- A constraint names something that the design lacks. -/
inductive LookupError where
  | unknownFactor (factor : String)
  | unknownLevel (factor level : String)
deriving DecidableEq, Repr

def LookupError.message : LookupError → String
  | .unknownFactor factor => "unknown factor '" ++ factor ++ "'"
  | .unknownLevel factor level => "factor '" ++ factor ++ "' has no level '" ++ level ++ "'"

end Counterbalance
