import Counterbalance.Text.Decimal

/-! Literals: a numbered variable with a polarity, carried as a non-zero signed number whose sign is
the polarity. -/

namespace Counterbalance

/-- The largest variable that a literal is made from. -/
def maxVariable : Nat := 2147483647

structure Literal where
  code : Int
  code_ne_zero : code ≠ 0
deriving DecidableEq

inductive LiteralError where
  | zero
  | outOfRange
deriving DecidableEq, Repr

def LiteralError.message : LiteralError → String
  | .zero => "0 is not a valid literal"
  | .outOfRange => "variable out of literal range"

namespace Literal

/-- Accepts every non-zero number of 32 signed bits, the least one included. -/
def ofCode (code : Int) : Except LiteralError Literal :=
  if h : code = 0 then .error .zero
  else if Text.InInt32 code then .ok ⟨code, h⟩
  else .error .outOfRange

/-- The literal that makes `v` true. That `v` is in range is asserted: the error is that of the
assertion, and a build that leaves assertions out would cut `v` to 32 bits instead. -/
def positive (v : Nat) : Except LiteralError Literal :=
  if h : v ≠ 0 ∧ v ≤ maxVariable then .ok ⟨v, by omega⟩ else .error .outOfRange

/-- The literal that makes `v` false, under the same assertion. -/
def negative (v : Nat) : Except LiteralError Literal :=
  if h : v ≠ 0 ∧ v ≤ maxVariable then .ok ⟨-v, by omega⟩ else .error .outOfRange

def ofVar (v : Nat) (isPositive : Bool) : Except LiteralError Literal :=
  if isPositive then positive v else negative v

def var (l : Literal) : Nat := l.code.natAbs

def isPositive (l : Literal) : Bool := 0 < l.code

def isNegative (l : Literal) : Bool := l.code < 0

/-- Negation, without a bound. Only the least number of 32 signed bits leaves them by it: there, a
negation on 32 bits overflows, which stops the program or comes back to the same number. -/
instance : Neg Literal := ⟨fun l => ⟨-l.code, by have := l.code_ne_zero; omega⟩⟩

def text (l : Literal) : String := Text.decimal l.code

/-- The literal's truth value where `ν` gives the variables theirs. -/
def eval (ν : Nat → Bool) (l : Literal) : Bool := ν l.var == l.isPositive

@[simp] theorem code_neg (l : Literal) : (-l).code = -l.code := rfl

@[simp] theorem var_neg (l : Literal) : (-l).var = l.var := by simp [var]

theorem var_ne_zero (l : Literal) : l.var ≠ 0 := by
  have := l.code_ne_zero
  simp only [var]
  omega

@[simp] theorem isPositive_neg (l : Literal) : (-l).isPositive = !l.isPositive := by
  have := l.code_ne_zero
  simp only [isPositive, code_neg]
  by_cases h : 0 < l.code
  · simp [h, show ¬ l.code < 0 by omega]
  · simp [h, show l.code < 0 by omega]

@[simp] theorem eval_neg (ν : Nat → Bool) (l : Literal) : (-l).eval ν = !l.eval ν := by
  simp only [eval, var_neg, isPositive_neg]
  cases ν l.var <;> cases l.isPositive <;> rfl

end Literal

end Counterbalance
