import Counterbalance.Json.Shape

/-! What a compilation is asked to do, and its form in JSON, where fields left out have their
defaults. -/

namespace Counterbalance

structure Options where
  /-- In every trial in which a factor applies it has exactly one level. -/
  exactlyOne : Bool := true
  /-- Every combination of crossed levels occurs. -/
  fullCrossing : Bool := true
  /-- Equal subformulas share an auxiliary variable. -/
  memoize : Bool := false
deriving DecidableEq, Repr

namespace Options

def toJson (o : Options) : Json :=
  Json.record [("exactly_one", .bool o.exactlyOne), ("full_crossing", .bool o.fullCrossing),
    ("memoize_subformulas", .bool o.memoize)]

/-- A field's truth value, or its default. -/
def flag? (default : Bool) : Option Json → Option Bool
  | none => some default
  | some j => Json.bool? j

def ofJson? (j : Json) : Option Options := do
  match ← Json.fields? ["exactly_one", "full_crossing", "memoize_subformulas"] j with
  | [exactlyOne, fullCrossing, memoize] =>
    let standard : Options := {}
    some {
      exactlyOne := ← flag? standard.exactlyOne exactlyOne
      fullCrossing := ← flag? standard.fullCrossing fullCrossing
      memoize := ← flag? standard.memoize memoize }
  | _ => none

end Options

end Counterbalance
