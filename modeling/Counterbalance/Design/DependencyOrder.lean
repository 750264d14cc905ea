import Counterbalance.Design.Fault

/-! An order of factors in which every derived factor comes after its arguments: depth first along
arguments, starting from the factors in declaration order, so that a design that is in such an order
keeps it. The walk ends because a factor on its path is not entered again. -/

namespace Counterbalance

/-- Level and argument names of all arguments of a factor, in order. -/
def Factor.argumentNames (f : Factor) : List (String × String) :=
  f.derivedLevels.flatMap fun (_, level) => level.arguments.map (level.name, ·)

namespace Design

/-- Names along the part of the path that starts at `f`, back to `f`. -/
def cycleNames (d : Design) (path : List Nat) (f : Nat) : List String :=
  (path.drop ((path.idxOf? f).getD 0) ++ [f]).map fun g => (d.factorAt g).name

/-- Appends factor `f` to `order`, after its arguments. `path` leads from a start to `f`, and `free`
holds the factors that are not on it. -/
def visit (d : Design) (free path order : List Nat) (f : Nat) : Except DesignError (List Nat) :=
  if f ∈ order then .ok order
  else if _h : f ∈ free then do
    let order ← (d.factorAt f).argumentNames.foldlM
      (fun order (level, argument) =>
        match d.index? argument with
        | none => .error (.unknownArgument (d.factorAt f).name level argument)
        | some a => visit d (free.erase f) (path ++ [f]) order a)
      order
    .ok (order ++ [f])
  else .error (.cyclicDependency (d.cycleNames path f))
termination_by free.length
decreasing_by
  rw [List.length_erase_of_mem _h]
  have := List.length_pos_of_mem _h
  omega

def dependencyOrder (d : Design) : Except DesignError (List Nat) :=
  (List.range d.length).foldlM (visit d (List.range d.length) []) []

end Design

end Counterbalance
