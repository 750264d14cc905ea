import Counterbalance.Block.Basic
import Counterbalance.Design.Odometer

/-! Derivations: for every derived level the combinations of argument levels that its predicate
accepts. Factors are taken in dependency order, so that a factor derived from another derived factor
only sees the levels of that factor that can hold. -/

namespace Counterbalance

structure Derivation where
  /-- Data index of the derived level. -/
  level : Nat
  /-- Accepted combinations, each element moved to the trial of the window that it is read in. -/
  combinations : List Combination
deriving DecidableEq, Repr

def Derivation.isEmpty (d : Derivation) : Bool := d.combinations.isEmpty

/-- Derivations by data index. -/
structure DerivationTable where
  slots : Array (Option Derivation)

namespace DerivationTable

def get? (table : DerivationTable) (d : Nat) : Option Derivation := (table.slots[d]?).join

/-- All derivations, ascending by data index. -/
def toList (table : DerivationTable) : List Derivation := table.slots.toList.filterMap id

def size (table : DerivationTable) : Nat := table.toList.length

def isEmpty (table : DerivationTable) : Bool := table.size = 0

def insert (table : DerivationTable) (d : Derivation) : DerivationTable :=
  ⟨table.slots.setIfInBounds d.level (some d)⟩

theorem get?_insert {table : DerivationTable} {d : Derivation} (h : d.level < table.slots.size)
    (i : Nat) : (table.insert d).get? i = if i = d.level then some d else table.get? i := by
  simp only [get?, insert, Array.getElem?_setIfInBounds]
  by_cases hi : d.level = i
  · simp [hi, hi ▸ h]
  · simp [hi, Ne.symm hi]

end DerivationTable

namespace Block

/-- The data indices that an argument can take: all levels of a simple factor, and those of a
derived factor that can hold. -/
def domain (b : Block) (table : DerivationTable) (a : Nat) : List Nat :=
  if (b.design.factorAt a).isDerived then
    (b.dataIndices a).filter fun d => (table.get? d).any (!·.isEmpty)
  else b.dataIndices a

/-- The combinations of argument levels that the level's predicate accepts. -/
def accepted (b : Block) (level : DerivedLevel) (domains : List (List Nat)) : List Combination :=
  (Odometer.readings domains).filter fun c => level.predicate.accepts (c.filterMap b.levelName?)

/-- The derivation of level `l` of factor `f`, where `table` holds those of its arguments. -/
def derive (b : Block) (table : DerivationTable) (f : Nat) (w : Window) (l : Nat)
    (level : DerivedLevel) : Except DesignError Derivation :=
  let name := (b.design.factorAt f).name
  if level.predicate.arity ≠ level.arguments.length then
    .error (.arityMismatch name level.name level.predicate.arity level.arguments.length)
  else do
    let domains ← level.arguments.mapM fun argument =>
      match b.design.index? argument with
      | some a => .ok (b.domain table a)
      | none => .error (.unknownArgument name level.name argument)
    .ok ⟨b.dataIndex f l, (b.accepted level domains).map (w.shift b.trialSize)⟩

/-- Adds the derivations of a factor's levels to a table. -/
def deriveFactor (b : Block) (table : DerivationTable) (f : Nat) :
    Except DesignError DerivationTable :=
  match (b.design.factorAt f).window? with
  | none => .ok table
  | some w =>
    (b.design.factorAt f).derivedLevels.foldlM
      (fun table (l, level) => return table.insert (← b.derive table f w l level)) table

/-- The derivations of all derived levels. -/
def derivationTable (b : Block) : Except DesignError DerivationTable :=
  b.order.foldlM b.deriveFactor ⟨Array.replicate b.trialSize none⟩

/-- The derivations of all derived levels, ascending by data index. -/
def derivations (b : Block) : Except DesignError (List Derivation) :=
  b.derivationTable.map DerivationTable.toList

end Block

end Counterbalance
