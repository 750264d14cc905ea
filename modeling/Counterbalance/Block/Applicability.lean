import Counterbalance.Design.Factor

/-! In which trials a factor has a value. A simple factor has one in every trial; a derived factor
has one where a window can end, at every stride from the first such trial on, if all its arguments
have values in the trials that it reads them at. -/

namespace Counterbalance

/-- Per factor and trial, whether the factor applies. -/
abbrev Applicability := Array (Array Bool)

namespace Applicability

/-- Nothing applies outside the table. -/
def get (table : Applicability) (f t : Nat) : Bool := ((table[f]?).bind (·[t]?)).getD false

/-- The table of the first trials only. -/
def cut (table : Applicability) (trials : Nat) : Applicability := table.map (·.take trials)

theorem get_setIfInBounds_ofFn {table : Applicability} {f : Nat} (h : f < table.size) (trials : Nat)
    (row : Nat → Bool) (g t : Nat) :
    get (table.setIfInBounds f (Array.ofFn fun t : Fin trials => row t)) g t =
      if g = f then decide (t < trials) && row t else table.get g t := by
  simp only [get, Array.getElem?_setIfInBounds]
  by_cases hg : f = g
  · subst hg
    by_cases ht : t < trials <;> simp [h, ht]
  · simp [hg, Ne.symm hg]

end Applicability

namespace Design

/-- Whether a factor applies in a trial, where `table` tells it for its arguments. -/
def appliesAt (d : Design) (table : Applicability) (f : Factor) (t : Nat) : Bool :=
  match f.window? with
  | none => true
  | some w =>
    w.firstTrial ≤ t && (t - w.firstTrial) % w.stride = 0 &&
      f.derivedLevels.all fun (_, level) =>
        level.arguments.zipIdx.all fun (argument, i) =>
          match d.index? argument with
          | none => false
          | some a => table.get a (w.readTrial t i)

/-- The table of the first `trials` trials, filled in an order in which arguments come first. -/
def applicability (d : Design) (order : List Nat) (trials : Nat) : Applicability :=
  order.foldl
    (fun table f =>
      let factor := d.factorAt f
      table.setIfInBounds f (Array.ofFn fun t : Fin trials => d.appliesAt table factor t))
    (Array.replicate d.length #[])

end Design

end Counterbalance
