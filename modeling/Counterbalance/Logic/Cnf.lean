import Counterbalance.Logic.Literal

/-! Clauses and their conjunction. A clause list only grows: clauses are appended and neither
changed nor removed. -/

namespace Counterbalance

/-- A disjunction of literals. -/
abbrev Clause := List Literal

structure Cnf where
  clauses : Array Clause := #[]
deriving DecidableEq

/-- The truth values that a list of signed entries gives: entry `v - 1` is the value of variable
`v`, true iff positive, and a variable without entry is false. -/
def valuation (entries : Array Int) (v : Nat) : Bool :=
  match entries[v - 1]? with
  | some entry => 0 < entry
  | none => false

def Clause.eval (ν : Nat → Bool) (c : Clause) : Bool := List.any c (Literal.eval ν)

namespace Cnf

def toList (c : Cnf) : List Clause := c.clauses.toList

def push (c : Cnf) (clause : Clause) : Cnf := ⟨c.clauses.push clause⟩

def append (c d : Cnf) : Cnf := ⟨c.clauses ++ d.clauses⟩

def size (c : Cnf) : Nat := c.clauses.size

def isEmpty (c : Cnf) : Bool := c.clauses.isEmpty

/-- The largest variable of any clause, 0 if there is none. -/
def maxVar (c : Cnf) : Nat :=
  c.clauses.foldl (fun m clause => clause.foldl (fun m l => max m l.var) m) 0

def eval (ν : Nat → Bool) (c : Cnf) : Bool := c.clauses.all (Clause.eval ν)

def isSatisfiedBy (c : Cnf) (entries : Array Int) : Bool := c.eval (valuation entries)

/-- Clauses as signed numbers. -/
def codes (c : Cnf) : List (List Int) := c.toList.map fun clause => List.map Literal.code clause

@[simp] theorem toList_push (c : Cnf) (clause : Clause) :
    (c.push clause).toList = c.toList ++ [clause] := by simp [toList, push]

@[simp] theorem toList_append (c d : Cnf) : (c.append d).toList = c.toList ++ d.toList := by
  simp [toList, append]

theorem size_eq_length (c : Cnf) : c.size = c.toList.length := by simp [size, toList]

theorem eval_eq_all (ν : Nat → Bool) (c : Cnf) : c.eval ν = c.toList.all (Clause.eval ν) := by
  simp [eval, toList]

end Cnf

end Counterbalance
