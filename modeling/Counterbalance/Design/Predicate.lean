/-! Predicates over the level names of a derived level's arguments. The arity is what a predicate
declares; callers apply it to as many names. -/

namespace Counterbalance

structure Predicate where
  arity : Nat
  accepts : List String → Bool

namespace Predicate

/-- The two arguments have the same level name. -/
def equal : Predicate := ⟨2, fun names => names[0]? = names[1]?⟩

def notEqual : Predicate := ⟨2, fun names => names[0]? ≠ names[1]?⟩

def constant (arity : Nat) (b : Bool) : Predicate := ⟨arity, fun _ => b⟩

def allEqual (arity : Nat) : Predicate := ⟨arity, fun names => names.all (names.head? = some ·)⟩

def oneOf (arity : Nat) (tuples : List (List String)) : Predicate :=
  ⟨arity, fun names => names ∈ tuples⟩

def not (p : Predicate) : Predicate := ⟨p.arity, fun names => !p.accepts names⟩

/-- Between `least` and `most` arguments, both included, have the name. -/
def countBetween (arity : Nat) (name : String) (least most : Nat) : Predicate :=
  ⟨arity, fun names => least ≤ names.count name ∧ names.count name ≤ most⟩

/-- A summary that leaves out the function. -/
def summary (p : Predicate) : String :=
  "Predicate \x7b arity: " ++ Nat.repr p.arity ++ ", .. \x7d"

end Predicate

end Counterbalance
