import Counterbalance.Design.Predicate
import Counterbalance.Design.Window

/-! Factors and their levels. A simple level is chosen directly; a derived level holds in a trial
iff its predicate accepts the levels that its argument factors have in the trials of its window. -/

namespace Counterbalance

structure DerivedLevel where
  name : String
  window : Window
  predicate : Predicate
  /-- Names of the argument factors, in the order of the predicate's arguments. -/
  arguments : List String

inductive Level where
  | simple (name : String)
  | derived (level : DerivedLevel)

namespace Level

def name : Level → String
  | .simple name => name
  | .derived level => level.name

def derived? : Level → Option DerivedLevel
  | .simple _ => none
  | .derived level => some level

end Level

structure Factor where
  name : String
  levels : List Level

namespace Factor

/-- The number of levels. -/
def size (f : Factor) : Nat := f.levels.length

def levelNames (f : Factor) : List String := f.levels.map Level.name

/-- Position of the first level with this name. -/
def levelIndex? (f : Factor) (name : String) : Option Nat :=
  f.levels.findIdx? (·.name = name)

/-- The window of the first level, which a factor's derived levels share. -/
def window? (f : Factor) : Option Window := do
  some (← (← f.levels.head?).derived?).window

def isDerived (f : Factor) : Bool := f.window?.isSome

/-- Derived levels with their positions. -/
def derivedLevels (f : Factor) : List (Nat × DerivedLevel) :=
  f.levels.zipIdx.filterMap fun (level, l) => level.derived?.map (l, ·)

end Factor

/-- Factors in declaration order. -/
abbrev Design := List Factor

namespace Design

def names (d : Design) : List String := d.map Factor.name

/-- The factor at a position; one without name and levels where the design has none. -/
def factorAt (d : Design) (f : Nat) : Factor := d[f]?.getD ⟨"", []⟩

/-- Position of the last factor with this name. -/
def index? : Design → String → Option Nat
  | [], _ => none
  | f :: rest, name =>
    match index? rest name with
    | some i => some (i + 1)
    | none => if f.name = name then some 0 else none

theorem factorAt_of_index? {d : Design} {name : String} {i : Nat} (h : d.index? name = some i) :
    i < d.length ∧ (d.factorAt i).name = name := by
  induction d generalizing i with
  | nil => simp [index?] at h
  | cons f rest ih =>
    simp only [index?] at h
    split at h
    · rename_i j hj
      obtain ⟨hlt, hname⟩ := ih hj
      simp only [Option.some.injEq] at h
      subst h
      exact ⟨by simpa using hlt, by simpa [factorAt] using hname⟩
    · split at h
      · rename_i hn
        simp only [Option.some.injEq] at h
        subst h
        exact ⟨by simp, by simpa [factorAt] using hn⟩
      · simp at h

theorem index?_eq_none_iff {d : Design} {name : String} :
    d.index? name = none ↔ name ∉ d.names := by
  induction d with
  | nil => simp [index?, names]
  | cons f rest ih =>
    simp only [names] at ih
    simp only [index?, names, List.map_cons, List.mem_cons, not_or]
    split
    · rename_i i hi
      simp only [reduceCtorEq, false_iff, not_and, Decidable.not_not]
      intro _
      exact Decidable.byContradiction fun hm => by simp [ih.mpr hm] at hi
    · rename_i hr
      split
      · rename_i hn
        simp [hn]
      · rename_i hn
        simp [ih.mp hr, Ne.symm hn]

end Design

end Counterbalance
