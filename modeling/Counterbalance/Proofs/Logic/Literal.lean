import Counterbalance.Proofs.Logic.Statement
import Counterbalance.Proofs.Text.Decimals
import Counterbalance.Json.Reader
import Counterbalance.Solver.Json

/-! Literals and where they come from. A literal is its number, and its text determines it. Made
from a variable, its variable is in range and makes it again. Made from a number, it is in range
unless the number is the least of 32 bits, whose magnitude is one too large. -/

namespace Counterbalance.Literal

variable {v : Nat} {b : Bool} {i : Int} {l : Literal}

theorem code_injective : Function.Injective code := by
  rintro ⟨i, hi⟩ ⟨j, hj⟩ h
  cases h
  rfl

theorem toList_text_injective : Function.Injective fun l : Literal => l.text.toList :=
  fun _ _ h => code_injective (Text.toList_decimal_injective h)

/-! ## Range -/

/-- The variable is one that literals are made from, and makes the literal again. -/
structure InRange (l : Literal) : Prop where
  one_le : 1 ≤ l.var
  le_max : l.var ≤ maxVariable
  rebuilt : ofVar l.var l.isPositive = .ok l

theorem ofVar_var (h : l.var ≤ maxVariable) : ofVar l.var l.isPositive = .ok l := by
  have hrange : l.var ≠ 0 ∧ l.var ≤ maxVariable := ⟨l.var_ne_zero, h⟩
  have hne := l.code_ne_zero
  cases hsign : l.isPositive with
  | true =>
    have hpositive : 0 < l.code := of_decide_eq_true hsign
    rw [ofVar, if_pos rfl, positive, dif_pos hrange]
    exact congrArg Except.ok (code_injective (Int.natAbs_of_nonneg hpositive.le))
  | false =>
    have hnegative : ¬ 0 < l.code := of_decide_eq_false hsign
    rw [ofVar, if_neg Bool.false_ne_true, negative, dif_pos hrange]
    refine congrArg Except.ok (code_injective ?_)
    simp only [var]
    omega

theorem inRange_iff : l.InRange ↔ l.var ≤ maxVariable :=
  ⟨InRange.le_max, fun h => ⟨Nat.pos_of_ne_zero l.var_ne_zero, h, ofVar_var h⟩⟩

/-! ## Sources -/

/-- The literal is made from a variable. -/
inductive FromVariable (l : Literal) : Prop
  | positive {v : Nat} (h : Literal.positive v = .ok l)
  | negative {v : Nat} (h : Literal.negative v = .ok l)
  | signed {v : Nat} {isPositive : Bool} (h : Literal.ofVar v isPositive = .ok l)

/-- The literal is made from a number, or read from the JSON text of one. -/
inductive FromNumber (l : Literal) : Prop
  | code {i : Int} (h : Literal.ofCode i = .ok l)
  | json {text : String} {j : Json} (htext : Json.ofText? text = some j)
      (h : Literal.ofJson? j = some l)

theorem code_of_negative (h : negative v = .ok l) : l.code = -v ∧ 0 < v ∧ v ≤ maxVariable := by
  unfold negative at h
  split at h
  · rename_i hr
    cases h
    exact ⟨rfl, Nat.pos_of_ne_zero hr.1, hr.2⟩
  · cases h

theorem code_of_ofCode (h : ofCode i = .ok l) : l.code = i ∧ Text.InInt32 i := by
  unfold ofCode at h
  split at h
  · cases h
  · split at h
    · rename_i hrange
      cases h
      exact ⟨rfl, hrange⟩
    · cases h

theorem ofCode_of_ofJson? {j : Json} (h : ofJson? j = some l) :
    ∃ i, Json.int? j = some i ∧ ofCode i = .ok l := by
  obtain ⟨i, hi, h⟩ := Option.bind_eq_some_iff.mp h
  exact ⟨i, hi, Outcome.toOption_eq_some.mp h⟩

theorem var_le_of_ofVar (h : ofVar v b = .ok l) : l.var ≤ maxVariable := by
  cases b with
  | true =>
    obtain ⟨_, _, hle⟩ := code_of_positive h
    rw [var_of_positive h]
    exact hle
  | false =>
    obtain ⟨hcode, _, hle⟩ := code_of_negative h
    rw [var, hcode, Int.natAbs_neg, Int.natAbs_natCast]
    exact hle

theorem FromVariable.inRange (h : l.FromVariable) : l.InRange := by
  rw [inRange_iff]
  cases h with
  | positive h => exact var_le_of_ofVar (b := true) h
  | negative h => exact var_le_of_ofVar (b := false) h
  | signed h => exact var_le_of_ofVar h

theorem FromNumber.inInt32 (h : l.FromNumber) : Text.InInt32 l.code := by
  have hofCode : ∀ {i}, ofCode i = .ok l → Text.InInt32 l.code := by
    intro i h
    obtain ⟨hcode, hrange⟩ := code_of_ofCode h
    exact hcode ▸ hrange
  cases h with
  | code h => exact hofCode h
  | json _ h =>
    obtain ⟨i, _, h⟩ := ofCode_of_ofJson? h
    exact hofCode h

/-- Of the numbers of 32 bits, only the least has a magnitude out of range. -/
theorem var_le_iff (h : Text.InInt32 l.code) : l.var ≤ maxVariable ↔ l.code ≠ Text.minInt32 := by
  unfold Text.InInt32 Text.minInt32 Text.maxInt32 at h
  unfold var maxVariable Text.minInt32
  omega

theorem FromNumber.inRange_iff (h : l.FromNumber) : l.InRange ↔ l.code ≠ Text.minInt32 :=
  Literal.inRange_iff.trans (var_le_iff h.inInt32)

end Counterbalance.Literal
