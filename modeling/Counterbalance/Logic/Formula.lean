import Counterbalance.Logic.Literal

/-! Boolean formulas as value trees, with their truth value, their text and the variables of their
leaves. Equality is equality of trees, decided by `Formula.beq`. -/

namespace Counterbalance

/-- The empty conjunction is true and the empty disjunction is false. -/
inductive Formula where
  | literal (l : Literal)
  | not (f : Formula)
  | and (fs : List Formula)
  | or (fs : List Formula)
  | xor (f g : Formula)
  | iff (f g : Formula)

namespace Formula

/-! ## Equality and hashing -/

mutual
def beq : Formula → Formula → Bool
  | .literal l, .literal m => l = m
  | .not f, .not g => beq f g
  | .and fs, .and gs => beqAll fs gs
  | .or fs, .or gs => beqAll fs gs
  | .xor f₁ f₂, .xor g₁ g₂ => beq f₁ g₁ && beq f₂ g₂
  | .iff f₁ f₂, .iff g₁ g₂ => beq f₁ g₁ && beq f₂ g₂
  | _, _ => false

def beqAll : List Formula → List Formula → Bool
  | [], [] => true
  | f :: fs, g :: gs => beq f g && beqAll fs gs
  | _, _ => false
end

mutual
theorem beq_iff_eq : ∀ f g : Formula, beq f g = true ↔ f = g
  | .literal _, g => by cases g <;> simp [beq]
  | .not f, g => by cases g <;> simp [beq, beq_iff_eq f]
  | .and fs, g => by cases g <;> simp [beq, beqAll_iff_eq fs]
  | .or fs, g => by cases g <;> simp [beq, beqAll_iff_eq fs]
  | .xor f₁ f₂, g => by cases g <;> simp [beq, beq_iff_eq f₁, beq_iff_eq f₂]
  | .iff f₁ f₂, g => by cases g <;> simp [beq, beq_iff_eq f₁, beq_iff_eq f₂]

theorem beqAll_iff_eq : ∀ fs gs : List Formula, beqAll fs gs = true ↔ fs = gs
  | [], gs => by cases gs <;> simp [beqAll]
  | f :: fs, gs => by cases gs <;> simp [beqAll, beq_iff_eq f, beqAll_iff_eq fs]
end

instance : DecidableEq Formula := fun f g => decidable_of_iff _ (beq_iff_eq f g)

mutual
def hash : Formula → UInt64
  | .literal l => mixHash 3 (Hashable.hash l.code)
  | .not f => mixHash 5 (hash f)
  | .and fs => mixHash 7 (hashAll fs)
  | .or fs => mixHash 11 (hashAll fs)
  | .xor f g => mixHash 13 (mixHash (hash f) (hash g))
  | .iff f g => mixHash 17 (mixHash (hash f) (hash g))

def hashAll : List Formula → UInt64
  | [] => 19
  | f :: fs => mixHash (hash f) (hashAll fs)
end

instance : Hashable Formula := ⟨hash⟩

/-! ## Construction -/

/-- The positive literal of `v` as a formula. -/
def ofVar (v : Nat) : Except LiteralError Formula := (Literal.positive v).map .literal

def isLiteral : Formula → Bool
  | .literal _ => true
  | _ => false

/-! ## Truth value -/

mutual
def eval (ν : Nat → Bool) : Formula → Bool
  | .literal l => l.eval ν
  | .not f => !eval ν f
  | .and fs => evalAll ν fs
  | .or fs => evalAny ν fs
  | .xor f g => eval ν f != eval ν g
  | .iff f g => eval ν f == eval ν g

def evalAll (ν : Nat → Bool) : List Formula → Bool
  | [] => true
  | f :: fs => eval ν f && evalAll ν fs

def evalAny (ν : Nat → Bool) : List Formula → Bool
  | [] => false
  | f :: fs => eval ν f || evalAny ν fs
end

theorem evalAll_eq_all (ν : Nat → Bool) (fs : List Formula) : evalAll ν fs = fs.all (eval ν) := by
  induction fs with
  | nil => rfl
  | cons f fs ih => simp [evalAll, ih]

theorem evalAny_eq_any (ν : Nat → Bool) (fs : List Formula) : evalAny ν fs = fs.any (eval ν) := by
  induction fs with
  | nil => rfl
  | cons f fs ih => simp [evalAny, ih]

/-! ## Size -/

mutual
/-- The number of nodes that are no literals. -/
def connectives : Formula → Nat
  | .literal _ => 0
  | .not f => 1 + connectives f
  | .and fs => 1 + connectivesAll fs
  | .or fs => 1 + connectivesAll fs
  | .xor f g => 1 + connectives f + connectives g
  | .iff f g => 1 + connectives f + connectives g

def connectivesAll : List Formula → Nat
  | [] => 0
  | f :: fs => connectives f + connectivesAll fs
end

/-! ## Variables -/

mutual
/-- Literals of the leaves, from left to right. -/
def leaves : Formula → List Literal
  | .literal l => [l]
  | .not f => leaves f
  | .and fs => leavesAll fs
  | .or fs => leavesAll fs
  | .xor f g => leaves f ++ leaves g
  | .iff f g => leaves f ++ leaves g

def leavesAll : List Formula → List Literal
  | [] => []
  | f :: fs => leaves f ++ leavesAll fs
end

/-- Puts `v` into an ascending list that does not hold it yet. -/
def insertAscending (v : Nat) : List Nat → List Nat
  | [] => [v]
  | w :: ws => if v < w then v :: w :: ws else if v = w then w :: ws else w :: insertAscending v ws

theorem mem_insertAscending {v w : Nat} {ws : List Nat} :
    w ∈ insertAscending v ws ↔ w = v ∨ w ∈ ws := by
  induction ws with
  | nil => simp [insertAscending]
  | cons u ws ih =>
    simp only [insertAscending]
    split
    · simp
    · split
      · rename_i h
        simp [h]
      · simp only [List.mem_cons, ih]
        constructor
        · rintro (h | h | h) <;> simp [h]
        · rintro (h | h | h) <;> simp [h]

theorem pairwise_insertAscending {v : Nat} {ws : List Nat} (h : ws.Pairwise (· < ·)) :
    (insertAscending v ws).Pairwise (· < ·) := by
  induction ws with
  | nil => simp [insertAscending]
  | cons u ws ih =>
    obtain ⟨hu, hw⟩ := List.pairwise_cons.mp h
    simp only [insertAscending]
    split
    · rename_i hv
      refine List.pairwise_cons.mpr ⟨fun x hx => ?_, h⟩
      rcases List.mem_cons.mp hx with rfl | hx
      · exact hv
      · exact Nat.lt_trans hv (hu x hx)
    · split
      · exact h
      · refine List.pairwise_cons.mpr ⟨fun x hx => ?_, ih hw⟩
        rcases mem_insertAscending.mp hx with rfl | hx
        · omega
        · exact hu x hx

mutual
/-- The number of nodes, leaves included. -/
def size : Formula → Nat
  | .literal _ => 1
  | .not f => size f + 1
  | .and fs => sizeAll fs + 1
  | .or fs => sizeAll fs + 1
  | .xor f g => size f + size g + 1
  | .iff f g => size f + size g + 1

def sizeAll : List Formula → Nat
  | [] => 0
  | f :: fs => size f + sizeAll fs
end

/-- Puts formulas on a stack, whose top is its head; the last one comes to the top. -/
def push (stack fs : List Formula) : List Formula := fs.reverse ++ stack

@[simp] theorem mem_push {stack fs : List Formula} {f : Formula} :
    f ∈ push stack fs ↔ f ∈ fs ∨ f ∈ stack := by
  simp [push]

theorem sizeAll_push (stack fs : List Formula) :
    sizeAll (push stack fs) = sizeAll fs + sizeAll stack := by
  induction fs generalizing stack with
  | nil => simp [push, sizeAll]
  | cons f fs ih =>
    have hpush : push stack (f :: fs) = push (f :: stack) fs := by simp [push]
    rw [hpush, ih, sizeAll, sizeAll]
    omega

/-- Adds the variables of the formulas on a stack to those found before. The top of the stack gives
way to its arguments. -/
def collect : (stack : List Formula) → (found : List Nat) → List Nat
  | [], found => found
  | .literal l :: stack, found => collect stack (insertAscending l.var found)
  | .not f :: stack, found => collect (push stack [f]) found
  | .and fs :: stack, found => collect (push stack fs) found
  | .or fs :: stack, found => collect (push stack fs) found
  | .xor f g :: stack, found => collect (push stack [f, g]) found
  | .iff f g :: stack, found => collect (push stack [f, g]) found
termination_by stack => sizeAll stack
decreasing_by all_goals simp only [sizeAll_push, sizeAll, size]; omega

/-- Variables of the leaves, ascending, each once. -/
def support (f : Formula) : List Nat := collect [f] []

/-! ## Text -/

mutual
def text : Formula → String
  | .literal l => l.text
  | .not f => "(not " ++ text f ++ ")"
  | .and fs => "(and" ++ String.join (argumentTexts fs) ++ ")"
  | .or fs => "(or" ++ String.join (argumentTexts fs) ++ ")"
  | .xor f g => "(xor " ++ text f ++ " " ++ text g ++ ")"
  | .iff f g => "(iff " ++ text f ++ " " ++ text g ++ ")"

/-- Texts of arguments, each after a blank. -/
def argumentTexts : List Formula → List String
  | [] => []
  | f :: fs => (" " ++ text f) :: argumentTexts fs
end

end Formula

end Counterbalance
