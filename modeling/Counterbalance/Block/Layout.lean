import Counterbalance.Design.Factor

/-! The layout of one trial: every factor owns a run of data indices, one per level, in declaration
order. -/

namespace Counterbalance

structure Layout where
  /-- Data index of each factor's first level. -/
  offsets : Array Nat
  /-- Factor and level of each data index. -/
  owners : Array (Nat × Nat)
deriving DecidableEq

namespace Layout

def offsetsFrom (next : Nat) : Design → List Nat
  | [] => []
  | f :: rest => next :: offsetsFrom (next + f.size) rest

def ownersFrom (position : Nat) : Design → List (Nat × Nat)
  | [] => []
  | f :: rest => (List.range f.size).map (position, ·) ++ ownersFrom (position + 1) rest

def ofDesign (d : Design) : Layout := ⟨(offsetsFrom 0 d).toArray, (ownersFrom 0 d).toArray⟩

end Layout

end Counterbalance
