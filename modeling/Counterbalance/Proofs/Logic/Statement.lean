import Counterbalance.Proofs.Logic.Definition
import Counterbalance.Proofs.Logic.Forest
import Counterbalance.Proofs.Outcome

/-! What formulas say: a property of truth assignments and a bound on the variables that it is
about. Both are put together along the way a formula is. -/

namespace Counterbalance

namespace Literal

variable {v : Nat} {l : Literal}

theorem code_of_positive (h : positive v = .ok l) : l.code = v ∧ 0 < v ∧ v ≤ maxVariable := by
  unfold positive at h
  split at h
  · rename_i hr
    cases h
    exact ⟨rfl, Nat.pos_of_ne_zero hr.1, hr.2⟩
  · cases h

theorem var_of_positive (h : positive v = .ok l) : l.var = v := by
  rw [var, (code_of_positive h).1, Int.natAbs_natCast]

theorem isPositive_of_positive (h : positive v = .ok l) : l.isPositive = true := by
  obtain ⟨hcode, hpos, _⟩ := code_of_positive h
  rw [isPositive, hcode, decide_eq_true_eq]
  exact Int.natCast_pos.mpr hpos

theorem eval_of_positive (h : positive v = .ok l) (ν : Nat → Bool) : l.eval ν = ν v := by
  rw [eval, var_of_positive h, isPositive_of_positive h, beq_true]

end Literal

namespace Formula

/-- The formula holds under the truth assignments with property `P`, and mentions no variable above
`n`. -/
structure Means (φ : Formula) (n : Nat) (P : (Nat → Bool) → Prop) : Prop where
  within : φ.Within n
  eval_iff : ∀ ν, φ.eval ν = true ↔ P ν

namespace Means

variable {n : Nat} {φ ψ : Formula} {P Q : (Nat → Bool) → Prop} {α : Type} {xs : List α}
  {φs : List Formula}

theorem congr (h : φ.Means n P) (hPQ : ∀ ν, P ν ↔ Q ν) : φ.Means n Q :=
  ⟨h.within, fun ν => (h.eval_iff ν).trans (hPQ ν)⟩

theorem literal {v : Nat} {l : Literal} (h : Literal.positive v = .ok l) (hv : v ≤ n) :
    (Formula.literal l).Means n fun ν => ν v = true := by
  refine ⟨fun m hm => ?_, fun ν => ?_⟩
  · obtain rfl := List.mem_singleton.mp hm
    rwa [Literal.var_of_positive h]
  · show l.eval ν = true ↔ _
    rw [Literal.eval_of_positive h]

theorem neg_literal {v : Nat} {l : Literal} (h : Literal.positive v = .ok l) (hv : v ≤ n) :
    (Formula.literal (-l)).Means n fun ν => ¬ ν v = true := by
  refine ⟨fun m hm => ?_, fun ν => ?_⟩
  · obtain rfl := List.mem_singleton.mp hm
    rwa [Literal.var_neg, Literal.var_of_positive h]
  · show (-l).eval ν = true ↔ _
    rw [Literal.eval_neg, Literal.eval_of_positive h, Bool.not_eq_true', Bool.not_eq_true]

theorem not (h : φ.Means n P) : (Formula.not φ).Means n fun ν => ¬ P ν := by
  refine ⟨h.within, fun ν => ?_⟩
  rw [← h.eval_iff, eval, Bool.not_eq_true', Bool.not_eq_true]

theorem iff (h : φ.Means n P) (h' : ψ.Means n Q) :
    (Formula.iff φ ψ).Means n fun ν => P ν ↔ Q ν := by
  refine ⟨fun l hl => ?_, fun ν => ?_⟩
  · rcases List.mem_append.mp hl with hl | hl
    · exact h.within l hl
    · exact h'.within l hl
  · rw [← h.eval_iff, ← h'.eval_iff, eval]
    cases φ.eval ν <;> cases ψ.eval ν <;> decide

/-- What the members of a conjunction say together. -/
theorem and_iff : (Formula.and φs).Means n P ↔
    (∀ φ ∈ φs, φ.Within n) ∧ ∀ ν, (∀ φ ∈ φs, φ.eval ν = true) ↔ P ν := by
  have hwithin : (Formula.and φs).Within n ↔ ∀ φ ∈ φs, φ.Within n := by
    show (∀ l ∈ leavesAll φs, _) ↔ _
    rw [leavesAll_eq_flatMap]
    simp only [List.mem_flatMap, Within]
    grind
  have heval : ∀ ν, (Formula.and φs).eval ν = true ↔ ∀ φ ∈ φs, φ.eval ν = true := by
    intro ν
    rw [eval, evalAll_eq_all, List.all_eq_true]
  constructor
  · intro h
    exact ⟨hwithin.mp h.within, fun ν => (heval ν).symm.trans (h.eval_iff ν)⟩
  · intro h
    obtain ⟨h, h'⟩ := h
    exact ⟨hwithin.mpr h, fun ν => (heval ν).trans (h' ν)⟩

/-- A conjunction says what its members say of the elements that they were made from. -/
theorem and {R : α → (Nat → Bool) → Prop} (h : List.Forall₂ (fun x φ => Means φ n (R x)) xs φs) :
    (Formula.and φs).Means n fun ν => ∀ x ∈ xs, R x ν := by
  refine and_iff.mpr ⟨fun φ hφ => ?_, fun ν => ⟨fun hall x hx => ?_, fun hall φ hφ => ?_⟩⟩
  · obtain ⟨x, _, hmeans⟩ := Lists.exists_left_of_mem h hφ
    exact hmeans.within
  · obtain ⟨φ, hφ, hmeans⟩ := Lists.exists_right_of_mem h hx
    exact (hmeans.eval_iff ν).mp (hall φ hφ)
  · obtain ⟨x, hx, hmeans⟩ := Lists.exists_left_of_mem h hφ
    exact (hmeans.eval_iff ν).mpr (hall x hx)

theorem and_nil : (Formula.and []).Means n fun _ => True :=
  and_iff.mpr ⟨by simp, by simp⟩

theorem and_append {ψs : List Formula} (h : (Formula.and φs).Means n P)
    (h' : (Formula.and ψs).Means n Q) : (Formula.and (φs ++ ψs)).Means n fun ν => P ν ∧ Q ν := by
  obtain ⟨hwithin, heval⟩ := and_iff.mp h
  obtain ⟨hwithin', heval'⟩ := and_iff.mp h'
  refine and_iff.mpr ⟨?_, fun ν => ?_⟩
  · exact fun φ hφ => (List.mem_append.mp hφ).elim (hwithin φ) (hwithin' φ)
  · simp only [List.mem_append, or_imp, forall_and, heval, heval']

/-- Lists of formulas taken together say what each list says of the element that it was made
from. -/
theorem and_flatten {R : α → (Nat → Bool) → Prop} {φss : List (List Formula)}
    (h : List.Forall₂ (fun x φs => (Formula.and φs).Means n (R x)) xs φss) :
    (Formula.and φss.flatten).Means n fun ν => ∀ x ∈ xs, R x ν := by
  induction h with
  | nil => exact and_nil.congr fun ν => by simp
  | cons hx _ ih => exact (and_append hx ih).congr fun ν => by rw [List.forall_mem_cons]

theorem or {R : α → (Nat → Bool) → Prop} (h : List.Forall₂ (fun x φ => Means φ n (R x)) xs φs) :
    (Formula.or φs).Means n fun ν => ∃ x ∈ xs, R x ν := by
  refine ⟨(and h).within, fun ν => ?_⟩
  rw [eval, evalAny_eq_any, List.any_eq_true]
  constructor
  · intro h
    obtain ⟨φ, hφ, htrue⟩ := h
    obtain ⟨x, hx, hmeans⟩ := Lists.exists_left_of_mem h hφ
    exact ⟨x, hx, (hmeans.eval_iff ν).mp htrue⟩
  · intro h
    obtain ⟨x, hx, hR⟩ := h
    obtain ⟨φ, hφ, hmeans⟩ := Lists.exists_right_of_mem h hx
    exact ⟨φ, hφ, (hmeans.eval_iff ν).mpr hR⟩

end Means

end Formula

end Counterbalance
