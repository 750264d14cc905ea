import Counterbalance.Design.Constraint
import Counterbalance.Design.Window
import Counterbalance.Json.Shape

/-! Windows, targets and constraints in JSON. -/

namespace Counterbalance

def Window.toJson : Window → Json
  | .withinTrial => Json.ofString "WithinTrial"
  | .transition => Json.ofString "Transition"
  | .sliding width stride =>
    Json.variant "Window" (Json.record [("width", Json.ofNat width), ("stride", Json.ofNat stride)])

def Window.ofJson? (j : Json) : Option Window := do
  match ← Json.variant? j with
  | ("WithinTrial", payload) => if Json.isNothing payload then some .withinTrial else none
  | ("Transition", payload) => if Json.isNothing payload then some .transition else none
  | ("Window", some payload) => do
    match ← Json.allFields? ["width", "stride"] payload with
    | [width, stride] => some (.sliding (← Json.nat? width) (← Json.nat? stride))
    | _ => none
  | _ => none

/-- Factor and level name of a record that holds both. -/
def levelRecord? (j : Json) : Option (String × String) := do
  match ← Json.allFields? ["factor", "level"] j with
  | [factor, level] => some (← Json.string? factor, ← Json.string? level)
  | _ => none

def levelRecord (factor level : String) : Json :=
  Json.record [("factor", Json.ofString factor), ("level", Json.ofString level)]

def Target.toJson : Target → Json
  | .level f l => Json.variant "Level" (levelRecord f l)
  | .factor f => Json.variant "Factor" (Json.ofString f)

def Target.ofJson? (j : Json) : Option Target := do
  match ← Json.variant? j with
  | ("Level", some payload) => (levelRecord? payload).map fun (f, l) => .level f l
  | ("Factor", some payload) => (Json.string? payload).map .factor
  | _ => none

def Constraint.toJson : Constraint → Json
  | .atMostInARow k target =>
    Json.variant "NoMoreThanKInARow" (Json.record [("k", Json.ofNat k), ("target", target.toJson)])
  | .exclude f l => Json.variant "Exclude" (levelRecord f l)

def Constraint.ofJson? (j : Json) : Option Constraint := do
  match ← Json.variant? j with
  | ("NoMoreThanKInARow", some payload) => do
    match ← Json.allFields? ["k", "target"] payload with
    | [k, target] => some (.atMostInARow (← Json.nat? k) (← Target.ofJson? target))
    | _ => none
  | ("Exclude", some payload) =>
    (levelRecord? payload).map fun (f, l) => .exclude f l
  | _ => none

end Counterbalance
