import Counterbalance.Block.Basic
import Counterbalance.Json.Basic
import Counterbalance.Solver.Verdict

/-! Trial sequences: for every factor the level that it has in each trial, and none where it does
not apply. A sequence is read from a solver's model; entries past the trial variables are only
checked for their order. -/

namespace Counterbalance

inductive DecodeError where
  /-- A factor has several levels or none in a trial. -/
  | levelCount (factor : String) (trial positives : Nat)
  | tooShort (expected found : Nat)
  /-- The entry at `index` is no literal of variable `index + 1`. -/
  | misordered (index : Nat) (entry : Int)
deriving DecidableEq, Repr

def DecodeError.message : DecodeError → String
  | .levelCount factor trial positives =>
    "encoding invariant violated: factor '" ++ factor ++ "' has " ++ Nat.repr positives ++
      " true levels in trial " ++ Nat.repr trial
  | .tooShort expected found =>
    "solution has " ++ Nat.repr found ++ " entries, block needs at least " ++ Nat.repr expected
  | .misordered index entry =>
    "solution entry " ++ Nat.repr index ++ " is " ++ Text.decimal entry ++ ", expected variable " ++
      Nat.repr (index + 1)

/-- A factor's level in each trial. -/
structure Column where
  factor : String
  levels : Array (Option String)
deriving DecidableEq, Repr

structure Sequence where
  columns : List Column
  trials : Nat
deriving DecidableEq, Repr

namespace Sequence

def factorNames (s : Sequence) : List String := s.columns.map Column.factor

def column? (s : Sequence) (factor : String) : Option Column := s.columns.find? (·.factor = factor)

/-- The level of a factor in a trial. -/
def get? (s : Sequence) (factor : String) (t : Nat) : Option String := do
  (← (← s.column? factor).levels[t]?)

/-- The levels of a factor, empty where it does not apply. -/
def levels? (s : Sequence) (factor : String) : Option (List String) := do
  some ((← s.column? factor).levels.toList.map (·.getD ""))

def toJson (s : Sequence) : Json :=
  .object (s.columns.map fun c =>
    (Json.symbols c.factor,
      .array (c.levels.toList.map fun level => Json.ofString (level.getD ""))))

/-- A number in a field of three places at least. -/
def padded (n : Nat) : String :=
  let digits := Nat.repr n
  String.ofList (List.replicate (3 - digits.length) ' ') ++ digits

/-- One factor in one trial, with a dash where it does not apply. -/
def cellText (t : Nat) (c : Column) : String :=
  "  " ++ c.factor ++ "=" ++ ((c.levels[t]?).join.getD "-")

def trialText (s : Sequence) (t : Nat) : String :=
  padded (t + 1) ++ String.join (s.columns.map (cellText t)) ++ "\n"

/-- One line per trial. -/
def text (s : Sequence) : String := String.join ((List.range s.trials).map s.trialText)

end Sequence

namespace Block

/-- Whether the model makes level `l` of factor `f` true in trial `t`. -/
def isChosen (b : Block) (entries : Array Int) (f t l : Nat) : Bool :=
  match entries[b.variableAt t (b.dataIndex f l) - 1]? with
  | some entry => 0 < entry
  | none => false

/-- The level of factor `f` in trial `t`. -/
def decodeCell (b : Block) (entries : Array Int) (f t : Nat) : Except DecodeError (Option String) :=
  let factor := b.design.factorAt f
  if b.applies f t then
    match (List.range factor.size).filter (b.isChosen entries f t) with
    | [l] => .ok ((factor.levels[l]?).map Level.name)
    | ls => .error (.levelCount factor.name t ls.length)
  else .ok none

def decodeColumn (b : Block) (entries : Array Int) (f : Nat) : Except DecodeError Column := do
  let levels ← (List.range b.trials).mapM (b.decodeCell entries f)
  .ok ⟨(b.design.factorAt f).name, levels.toArray⟩

/-- The first entry that is no literal of the variable of its place. -/
def misorderedEntry? (entries : Array Int) : Option DecodeError :=
  (entries.toList.zipIdx.find? fun (entry, i) => entry.natAbs ≠ i + 1).map fun (entry, i) =>
    .misordered i entry

/-- Reads a sequence from a model that has one entry per variable, in ascending order. -/
def decode (b : Block) (entries : Array Int) : Except DecodeError Sequence :=
  if entries.size < b.gridVariables then .error (.tooShort b.gridVariables entries.size)
  else
    match misorderedEntry? entries with
    | some e => .error e
    | none => do
      .ok ⟨← (List.range b.design.length).mapM (b.decodeColumn entries), b.trials⟩

/-- Reads a sequence from a solver's verdict, if there is a model. -/
def decodeVerdict (b : Block) : Verdict → Except DecodeError (Option Sequence)
  | .unsatisfiable => .ok none
  | .satisfiable entries => (b.decode entries.toArray).map some

end Block

end Counterbalance
