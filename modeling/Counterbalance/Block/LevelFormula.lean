import Counterbalance.Block.Derivation
import Counterbalance.Logic.Formula

/-! Formulas over the trial variables of a block that say that a level holds in a trial. -/

namespace Counterbalance.Block

def levelLiteral (b : Block) (f l t : Nat) : Except LiteralError Literal :=
  Literal.positive (b.variableAt t (b.dataIndex f l))

/-- All elements of a combination hold, where its window starts at trial `start`. -/
def combinationFormula (b : Block) (start : Nat) (c : Combination) : Except LiteralError Formula :=
  (c.mapM fun d => Formula.ofVar (b.variableAt start d)).map .and

/-- The level of the derivation holds in trial `t`, said of its arguments: some accepted combination
is read there. None where the level's factor does not apply. -/
def derivedFormula (b : Block) (d : Derivation) (t : Nat) : Except LiteralError (Option Formula) :=
  match b.levelAt? d.level with
  | none => .ok none
  | some (f, _) =>
    match (b.design.factorAt f).window? with
    | none => .ok none
    | some w =>
      if b.applies f t then
        (d.combinations.mapM (b.combinationFormula (t - w.firstTrial))).map fun fs => some (.or fs)
      else .ok none

/-- The variable of the derivation's level in trial `t` is equivalent to what its arguments say. -/
def derivedDefinition (b : Block) (d : Derivation) (t : Nat) :
    Except LiteralError (Option Formula) := do
  match ← b.derivedFormula d t with
  | none => .ok none
  | some body => do
    let own ← Formula.ofVar (b.variableAt t d.level)
    .ok (some (.iff own body))

end Counterbalance.Block
