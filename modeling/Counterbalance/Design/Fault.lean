import Counterbalance.Design.Factor

/-! What can be wrong with a design, and the first fault of one. Each factor is checked in
declaration order: it has levels, a name of its own, level names without repetition, levels of one
kind, one window, and a window that fits its arguments. After all factors, every argument must name
a factor. -/

namespace Counterbalance

inductive WindowFault where
  | zeroWidth
  | zeroStride
  | noArguments
  /-- A window of several trials reads one argument per trial. -/
  | argumentCount (width found : Nat)
deriving DecidableEq, Repr

def WindowFault.message : WindowFault → String
  | .zeroWidth => "width must be at least 1"
  | .zeroStride => "stride must be at least 1"
  | .noArguments => "no argument factors"
  | .argumentCount width found =>
    "a window of width " ++ Nat.repr width ++ " reads " ++ Nat.repr width ++ " arguments, found " ++
      Nat.repr found

inductive DesignError where
  | emptyFactor (factor : String)
  | duplicateFactor (factor : String)
  | duplicateLevel (factor level : String)
  | mixedLevels (factor : String)
  | mismatchedWindows (factor : String)
  | invalidWindow (factor level : String) (fault : WindowFault)
  | unknownArgument (factor level argument : String)
  | arityMismatch (factor level : String) (expected found : Nat)
  /-- Factors along a cycle of arguments, the first one repeated at the end. -/
  | cyclicDependency (factors : List String)
  | unknownCrossing (factor : String)
  | emptyCrossing
  | noTrials
  | crossingNeverApplies
  | tooFewTrials (combinations available : Nat)
deriving DecidableEq, Repr

def DesignError.message : DesignError → String
  | .emptyFactor factor => "factor '" ++ factor ++ "' has no levels"
  | .duplicateFactor factor => "factor '" ++ factor ++ "' is declared more than once"
  | .duplicateLevel factor level =>
    "factor '" ++ factor ++ "' declares level '" ++ level ++ "' more than once"
  | .mixedLevels factor => "factor '" ++ factor ++ "' mixes simple and derived levels"
  | .mismatchedWindows factor =>
    "derived levels of factor '" ++ factor ++ "' use different window shapes"
  | .invalidWindow factor level fault =>
    "invalid window for level '" ++ level ++ "' of factor '" ++ factor ++ "': " ++ fault.message
  | .unknownArgument factor level argument =>
    "level '" ++ level ++ "' of factor '" ++ factor ++ "' depends on unknown factor '" ++
      argument ++ "'"
  | .arityMismatch factor level expected found =>
    "predicate of level '" ++ level ++ "' in factor '" ++ factor ++ "' takes " ++ Nat.repr
      expected ++ " arguments, window supplies " ++ Nat.repr found
  | .cyclicDependency factors =>
    "derived factors depend on each other cyclically: " ++ String.intercalate " -> " factors
  | .unknownCrossing factor => "crossing references unknown factor '" ++ factor ++ "'"
  | .emptyCrossing => "crossing is empty"
  | .noTrials => "block must have at least one trial"
  | .crossingNeverApplies => "crossed factors never apply at the same trial"
  | .tooFewTrials combinations available =>
    "crossing has " ++ Nat.repr combinations ++ " combinations but only " ++ Nat.repr available ++
      " trials where all crossed factors apply"

/-- Why a window cannot read this number of arguments. -/
def Window.fault? (w : Window) (arguments : Nat) : Option WindowFault :=
  if w.width = 0 then some .zeroWidth
  else if w.stride = 0 then some .zeroStride
  else if arguments = 0 then some .noArguments
  else if 1 < w.width ∧ arguments ≠ w.width then some (.argumentCount w.width arguments)
  else none

/-- The first name that is among `seen` or occurs before in the list. -/
def firstRepeat? (seen : List String) : List String → Option String
  | [] => none
  | name :: rest => if name ∈ seen then some name else firstRepeat? (name :: seen) rest

theorem firstRepeat?_eq_none_iff {seen names : List String} :
    firstRepeat? seen names = none ↔ names.Nodup ∧ ∀ name ∈ names, name ∉ seen := by
  induction names generalizing seen with
  | nil => simp [firstRepeat?]
  | cons name rest ih =>
    simp only [firstRepeat?]
    split
    · rename_i h
      simp [h]
    · rename_i h
      simp only [ih, List.nodup_cons, List.mem_cons, not_or, forall_eq_or_imp]
      constructor
      · rintro ⟨hn, ha⟩
        exact ⟨⟨fun hm => (ha name hm).1 rfl, hn⟩, h, fun x hx => (ha x hx).2⟩
      · rintro ⟨⟨hm, hn⟩, _, ha⟩
        exact ⟨hn, fun x hx => ⟨fun he => hm (he ▸ hx), ha x hx⟩⟩

/-- The first fault of a factor's derived levels. -/
def Factor.windowFault? (f : Factor) : Option DesignError := do
  let w ← f.window?
  if f.derivedLevels.any (·.2.window ≠ w) then
    some (.mismatchedWindows f.name)
  else
    f.derivedLevels.findSome? fun (_, level) =>
      (w.fault? level.arguments.length).map (.invalidWindow f.name level.name)

/-- The first fault of a factor after factors with the names `earlier`. -/
def Factor.fault? (earlier : List String) (f : Factor) : Option DesignError :=
  if f.levels.isEmpty then some (.emptyFactor f.name)
  else if f.name ∈ earlier then some (.duplicateFactor f.name)
  else
    match firstRepeat? [] f.levelNames with
    | some level => some (.duplicateLevel f.name level)
    | none =>
      if f.derivedLevels.length ≠ 0 ∧ f.derivedLevels.length ≠ f.size then
        some (.mixedLevels f.name)
      else f.windowFault?

/-- The first argument of a factor's levels that is not among the names. -/
def Factor.argumentFault? (names : List String) (f : Factor) : Option DesignError :=
  f.derivedLevels.findSome? fun (_, level) =>
    (level.arguments.find? (· ∉ names)).map (.unknownArgument f.name level.name)

namespace Design

/-- The first fault of a factor by itself or beside the factors before it. -/
def factorFault? (earlier : List String) : Design → Option DesignError
  | [] => none
  | f :: rest => (f.fault? earlier).or (factorFault? (earlier ++ [f.name]) rest)

/-- The first fault of a design, if it has one. -/
def fault? (d : Design) : Option DesignError :=
  (factorFault? [] d).or (d.findSome? (Factor.argumentFault? d.names))

end Design

end Counterbalance
