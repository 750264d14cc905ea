import Counterbalance.Block.LevelFormula

/-! Constraints as formulas over trial variables. A limit on repetition forbids every run that is
one trial too long, where runs are formed over the trials in which the factor applies. -/

namespace Counterbalance

/-- What can go wrong with a block once it has been accepted. -/
inductive BlockError where
  | design (e : DesignError)
  | lookup (e : LookupError)
  | literal (e : LiteralError)
deriving DecidableEq, Repr

/-- The first `count` runs of `n` elements, from left to right. -/
def firstRuns {α : Type} (n : Nat) : Nat → List α → List (List α)
  | 0, _ => []
  | count + 1, xs => xs.take n :: firstRuns n count xs.tail

/-- The runs of `n` consecutive elements, from left to right, for `n` at least 1. -/
def runs {α : Type} (n : Nat) (xs : List α) : List (List α) := firstRuns n (xs.length + 1 - n) xs

theorem firstRuns_eq_map {α : Type} (n count : Nat) (xs : List α) :
    firstRuns n count xs = (List.range count).map fun i => (xs.drop i).take n := by
  induction count generalizing xs with
  | zero => rfl
  | succ count ih =>
    simp [firstRuns, ih, List.range_succ_eq_map, Function.comp_def]

theorem length_runs {α : Type} (n : Nat) (xs : List α) :
    (runs n xs).length = xs.length + 1 - n := by
  simp [runs, firstRuns_eq_map]

theorem length_of_mem_runs {α : Type} {n : Nat} {xs r : List α} (h : r ∈ runs n xs) :
    r.length = n := by
  simp only [runs, firstRuns_eq_map, List.mem_map, List.mem_range] at h
  obtain ⟨i, hi, rfl⟩ := h
  simp only [List.length_take, List.length_drop]
  omega

namespace Design

def findFactor (d : Design) (name : String) : Except LookupError Nat :=
  match d.index? name with
  | some f => .ok f
  | none => .error (.unknownFactor name)

def findLevel (d : Design) (factor level : String) : Except LookupError (Nat × Nat) := do
  let f ← d.findFactor factor
  match (d.factorAt f).levelIndex? level with
  | some l => .ok (f, l)
  | none => .error (.unknownLevel factor level)

/-- Factor and levels that a limit counts. -/
def findTarget (d : Design) : Target → Except LookupError (Nat × List Nat)
  | .level factor level => do
    let (f, l) ← d.findLevel factor level
    .ok (f, [l])
  | .factor name => do
    let f ← d.findFactor name
    .ok (f, List.range (d.factorAt f).size)

end Design

namespace Block

/-- The level does not hold in all trials of the run. -/
def notThroughout (b : Block) (f l : Nat) (run : List Nat) : Except LiteralError Formula :=
  (run.mapM fun t => (b.levelLiteral f l t).map Formula.literal).map fun fs => .not (.and fs)

/-- The level does not hold in the trial. -/
def notAt (b : Block) (f l t : Nat) : Except LiteralError Formula :=
  (b.levelLiteral f l t).map fun x => .literal (-x)

/-- No level among `levels` holds more than `k` times in a row. -/
def atMostInARow (b : Block) (k f : Nat) (levels : List Nat) : Except LiteralError (List Formula) :=
  (levels.mapM fun l => (runs (k + 1) (b.applyingTrials f)).mapM (b.notThroughout f l)).map
    List.flatten

/-- The formulas that together say that a constraint holds. -/
def requirements (b : Block) : Constraint → Except BlockError (List Formula)
  | .atMostInARow k target => do
    let (f, levels) ← (b.design.findTarget target).mapError .lookup
    (b.atMostInARow k f levels).mapError .literal
  | .exclude factor level => do
    let (f, l) ← (b.design.findLevel factor level).mapError .lookup
    ((b.applyingTrials f).mapM (b.notAt f l)).mapError .literal

end Block

end Counterbalance
