/-! Windows: the run of trials that a derived level reads, and how far apart the trials are in which
the level exists. A combination names one position per argument; its window moves each argument to
the trial that it is read at. -/

namespace Counterbalance

inductive Window where
  /-- All arguments in the same trial. -/
  | withinTrial
  /-- The first argument in the trial before. -/
  | transition
  /-- Argument `i` in the `i`-th of `width` consecutive trials. -/
  | sliding (width stride : Nat)
deriving DecidableEq, Repr

/-- One data index per argument. -/
abbrev Combination := List Nat

namespace Window

/-- The number of consecutive trials read. -/
def width : Window → Nat
  | .withinTrial => 1
  | .transition => 2
  | .sliding width _ => width

/-- The distance between trials in which the level exists. -/
def stride : Window → Nat
  | .withinTrial => 1
  | .transition => 1
  | .sliding _ stride => stride

/-- The first trial in which a window can end. -/
def firstTrial (w : Window) : Nat := w.width - 1

/-- The trial in which a window that ends at trial `t` reads argument `i`. -/
def readTrial (w : Window) (t i : Nat) : Nat := if w.width = 1 then t else t - w.firstTrial + i

/-- Moves element `i` by `i` trials, unless the window is a single trial. -/
def shift (w : Window) (trialSize : Nat) (c : Combination) : Combination :=
  if w.width = 1 then c else c.mapIdx fun i d => d + i * trialSize

@[simp] theorem length_shift (w : Window) (n : Nat) (c : Combination) :
    (w.shift n c).length = c.length := by
  simp only [shift]
  split <;> simp

theorem getElem?_shift (w : Window) (n : Nat) (ds : Combination) (i : Nat) :
    (w.shift n ds)[i]? = ds[i]?.map fun d => if w.width = 1 then d else d + i * n := by
  simp only [shift]
  split <;> simp_all

end Window

/-- All choices of one element per list; the first list varies slowest. -/
def product {α : Type} : List (List α) → List (List α)
  | [] => [[]]
  | xs :: rest =>
    let tails := product rest
    xs.flatMap fun x => tails.map (x :: ·)

theorem length_product {α : Type} (ds : List (List α)) :
    (product ds).length = (ds.map List.length).foldr (· * ·) 1 := by
  induction ds with
  | nil => rfl
  | cons xs rest ih =>
    simp only [product, List.map_cons, List.foldr_cons, ← ih]
    induction xs with
    | nil => simp
    | cons x xs ihx => simp [ihx, Nat.add_mul, Nat.add_comm]

theorem mem_product_cons {α : Type} {x : α} {c : List α} {xs : List α} {rest : List (List α)} :
    x :: c ∈ product (xs :: rest) ↔ x ∈ xs ∧ c ∈ product rest := by
  simp [product]

end Counterbalance
