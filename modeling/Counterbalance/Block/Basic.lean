import Counterbalance.Block.Applicability
import Counterbalance.Block.Layout
import Counterbalance.Design.Constraint
import Counterbalance.Design.DependencyOrder

/-! Blocks: a design laid out over a number of trials. Trial variables are numbered from 1, trial by
trial and inside a trial by data index. A block has a given number of trials, or the least number in
which every combination of crossed levels can occur once. -/

namespace Counterbalance

structure Block where
  design : Design
  /-- Positions of the crossed factors. -/
  crossing : List Nat
  constraints : List Constraint
  trials : Nat
  /-- Positions of all factors, arguments before the factors derived from them. -/
  order : List Nat
  layout : Layout
  applicability : Applicability

/-- Positions of the factors that a crossing names. -/
def Design.resolveCrossing (d : Design) (names : List String) : Except DesignError (List Nat) := do
  let crossing ← names.mapM fun name =>
    match d.index? name with
    | some f => .ok f
    | none => .error (.unknownCrossing name)
  if crossing = [] then .error .emptyCrossing else .ok crossing

/-- The number of combinations of the factors' levels. -/
def Design.combinations (d : Design) (crossing : List Nat) : Nat :=
  crossing.foldr (fun f n => (d.factorAt f).size * n) 1

/-- Checks a design; the positions of its factors in dependency order and of the crossed ones. -/
def Design.prepare (d : Design) (crossing : List String) :
    Except DesignError (List Nat × List Nat) := do
  match d.fault? with
  | some e => .error e
  | none =>
    let order ← d.dependencyOrder
    .ok (order, ← d.resolveCrossing crossing)

/-- The trials below `trials` in which all crossed factors apply. -/
def Applicability.crossedTrials (table : Applicability) (crossing : List Nat) (trials : Nat) :
    List Nat :=
  (List.range trials).filter fun t => crossing.all (table.get · t)

/-- A number of trials after which all windows have begun. -/
def Design.lead (d : Design) : Nat :=
  (d.filterMap Factor.window?).foldr (fun w n => w.firstTrial + n) 0

/-- A number of trials in which every stride comes round. -/
def Design.period (d : Design) : Nat :=
  (d.filterMap Factor.window?).foldr (fun w n => w.stride * n) 1

/-- A number of trials by which the crossed factors have applied together once per combination, if
they ever do. -/
def Design.horizon (d : Design) (combinations : Nat) : Nat := d.lead + combinations * d.period

namespace Block

def assemble (d : Design) (order crossing : List Nat) (constraints : List Constraint) (trials : Nat)
    (applicability : Applicability) : Block where
  design := d
  crossing
  constraints
  trials
  order
  layout := .ofDesign d
  applicability

/-- A block of the given number of trials. Every combination of crossed levels must find a trial. -/
def ofTrials (d : Design) (crossing : List String) (trials : Nat) (constraints : List Constraint) :
    Except DesignError Block := do
  if trials = 0 then .error .noTrials
  else
    let (order, crossing) ← d.prepare crossing
    let table := d.applicability order trials
    let combinations := d.combinations crossing
    let available := (table.crossedTrials crossing trials).length
    if available = 0 then .error .crossingNeverApplies
    else if available < combinations then .error (.tooFewTrials combinations available)
    else .ok (assemble d order crossing constraints trials table)

/-- The shortest block in which every combination of crossed levels can occur once. -/
def fullyCrossed (d : Design) (crossing : List String) (constraints : List Constraint) :
    Except DesignError Block := do
  let (order, crossing) ← d.prepare crossing
  let combinations := d.combinations crossing
  let horizon := d.horizon combinations
  let table := d.applicability order horizon
  match (table.crossedTrials crossing horizon)[combinations - 1]? with
  | none => .error .crossingNeverApplies
  | some last => .ok (assemble d order crossing constraints (last + 1) (table.cut (last + 1)))

/-! ## Positions and variables -/

/-- The number of data indices of a trial. -/
def trialSize (b : Block) : Nat := b.layout.owners.size

def offset (b : Block) (f : Nat) : Nat := (b.layout.offsets[f]?).getD 0

def dataIndex (b : Block) (f l : Nat) : Nat := b.offset f + l

/-- Data indices of a factor's levels. -/
def dataIndices (b : Block) (f : Nat) : List Nat :=
  (List.range (b.design.factorAt f).size).map (b.dataIndex f)

/-- Factor and level of a data index. -/
def levelAt? (b : Block) (d : Nat) : Option (Nat × Nat) := b.layout.owners[d]?

def levelName? (b : Block) (d : Nat) : Option String := do
  let (f, l) ← b.levelAt? d
  some (← (b.design.factorAt f).levels[l]?).name

/-- The number of variables that 32 bits can number. -/
def words32 : Nat := 4294967296

/-- The variable of a data index in a trial, cut to 32 bits. -/
def variableAt (b : Block) (t d : Nat) : Nat := (t * b.trialSize + d + 1) % words32

/-- The number of trial variables, cut to 32 bits. -/
def gridVariables (b : Block) : Nat := (b.trials * b.trialSize) % words32

def crossingSize (b : Block) : Nat := b.design.combinations b.crossing

/-! ## Applicability -/

def applies (b : Block) (f t : Nat) : Bool := b.applicability.get f t

/-- The trials in which a factor applies, ascending. -/
def applyingTrials (b : Block) (f : Nat) : List Nat := (List.range b.trials).filter (b.applies f)

/-- The trials in which all crossed factors apply, ascending. -/
def crossedTrials (b : Block) : List Nat := b.applicability.crossedTrials b.crossing b.trials

end Block

end Counterbalance
