/-! A supply of variables: numbers are handed out in ascending order, one at a time or in contiguous
spans, and never twice. -/

namespace Counterbalance

/-- Everything up to `last` has been handed out; the first variable is 1. -/
structure Supply where
  last : Nat := 0
deriving DecidableEq, Repr

/-- The variables from `first` to `last`; none if `last < first`. -/
structure Span where
  first : Nat
  last : Nat
deriving DecidableEq, Repr

def Span.isEmpty (s : Span) : Bool := s.last < s.first

namespace Supply

def draw (s : Supply) : Nat × Supply := (s.last + 1, ⟨s.last + 1⟩)

def drawSpan (s : Supply) (count : Nat) : Span × Supply :=
  (⟨s.last + 1, s.last + count⟩, ⟨s.last + count⟩)

end Supply

end Counterbalance
