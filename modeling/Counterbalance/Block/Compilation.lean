import Counterbalance.Block.Options
import Counterbalance.Block.Requirement
import Counterbalance.Logic.Encoding

/-! Compilation of a block: a clause list whose models, restricted to the trial variables, are the
valid trial sequences. The clauses of the layout come first, then the definitions of derived levels,
the crossing and the constraints. Trial variables come first, then auxiliaries in the order of
encoding. -/

namespace Counterbalance

structure CompilationStats where
  layoutClauses : Nat
  derivedFormulas : Nat
  crossingFormulas : Nat
  constraintFormulas : Nat
  encoding : EncodingStats
deriving DecidableEq, Repr

structure Compilation where
  cnf : Cnf
  derivations : List Derivation
  /-- The largest variable in use, auxiliaries included. -/
  varCount : Nat
  stats : CompilationStats

namespace Block

/-! ## Layout -/

/-- No two of the literals hold together. -/
def pairwiseExclusive : List Literal → List Clause
  | [] => []
  | l :: ls => ls.map (fun m => [-l, -m]) ++ pairwiseExclusive ls

/-- The clauses of a factor in a trial: no level where it does not apply, and exactly one where it
does, if that is asked for. -/
def cellClauses (b : Block) (exactlyOne : Bool) (f t : Nat) : Except LiteralError (List Clause) :=
  if b.applies f t && !exactlyOne then .ok []
  else do
    let ls ← (List.range (b.design.factorAt f).size).mapM fun l => b.levelLiteral f l t
    if b.applies f t then .ok (ls :: pairwiseExclusive ls)
    else .ok (ls.map fun l => [-l])

def layoutClauses (b : Block) (exactlyOne : Bool) : Except LiteralError (List Clause) :=
  ((List.range b.design.length).mapM fun f =>
    ((List.range b.trials).mapM (b.cellClauses exactlyOne f)).map List.flatten).map List.flatten

/-! ## Derived levels -/

/-- The definitions of a derivation's level in the trials in which its factor applies. -/
def definitionsOf (b : Block) (d : Derivation) : Except LiteralError (List Formula) :=
  match b.levelAt? d.level with
  | none => .ok []
  | some (f, _) => ((b.applyingTrials f).mapM (b.derivedDefinition d)).map (List.filterMap id)

def definitions (b : Block) (table : DerivationTable) : Except LiteralError (List Formula) :=
  (table.toList.mapM b.definitionsOf).map List.flatten

/-! ## Crossing -/

/-- The combination occurs in one of the trials. -/
def occurs (b : Block) (trials : List Nat) (c : Combination) : Except LiteralError Formula :=
  (trials.mapM fun t => b.combinationFormula t c).map .or

/-- Every combination of crossed levels occurs in a trial in which all crossed factors apply. -/
def crossingFormulas (b : Block) : Except LiteralError (List Formula) :=
  (Odometer.readings (b.crossing.map b.dataIndices)).mapM (b.occurs b.crossedTrials)

/-- The formulas of the crossing, if they are asked for. -/
def crossingPart (b : Block) (full : Bool) : Except LiteralError (List Formula) :=
  if full then b.crossingFormulas else .ok []

/-! ## Constraints -/

/-- Asserts the formulas of the constraints in order, and counts them. -/
def assertConstraints (b : Block) (s : Session) :
    List Constraint → Except BlockError (Nat × Session)
  | [] => .ok (0, s)
  | c :: cs => do
    let fs ← b.requirements c
    let s ← (s.assertAll fs).mapError .literal
    let (n, s) ← b.assertConstraints s cs
    .ok (fs.length + n, s)

/-! ## The whole block -/

def compile (b : Block) (options : Options) : Except BlockError Compilation := do
  let table ← b.derivationTable.mapError .design
  let layout ← (b.layoutClauses options.exactlyOne).mapError .literal
  let definitions ← (b.definitions table).mapError .literal
  let crossing ← (b.crossingPart options.fullCrossing).mapError .literal
  let s := (Session.start ⟨b.gridVariables⟩ options.memoize).addClauses layout
  let s ← (s.assertAll (definitions ++ crossing)).mapError .literal
  let (constraintFormulas, s) ← b.assertConstraints s b.constraints
  .ok {
    cnf := s.cnf
    derivations := table.toList
    varCount := s.supply.last
    stats := {
      layoutClauses := layout.length
      derivedFormulas := definitions.length
      crossingFormulas := crossing.length
      constraintFormulas
      encoding := s.stats } }

end Block

end Counterbalance
