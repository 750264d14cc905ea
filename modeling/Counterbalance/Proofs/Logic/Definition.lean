import Mathlib.Data.Set.Basic
import Mathlib.Data.Set.Function
import Counterbalance.Logic.Encoding

/-! Definitional extension. A set of variables is defined by clauses if every truth assignment of
the other variables extends to it in exactly one way under which the clauses hold. Definitions
compose as long as the earlier clauses do not mention the variables that are defined later, and the
clauses of a gate define its output. Truth values only depend on the variables that a literal,
clause, formula or gate mentions. -/

namespace Counterbalance

/-! ## Variables in use -/

/-- No variable of the clause exceeds `n`. -/
def Clause.Within (n : Nat) (c : Clause) : Prop := ∀ l ∈ c, l.var ≤ n

/-- No variable of the formula exceeds `n`. -/
def Formula.Within (n : Nat) (f : Formula) : Prop := ∀ l ∈ f.leaves, l.var ≤ n

theorem Clause.Within.mono {n m : Nat} {c : Clause} (h : c.Within n) (hnm : n ≤ m) : c.Within m :=
  fun l hl => Nat.le_trans (h l hl) hnm

theorem Formula.Within.mono {n m : Nat} {f : Formula} (h : f.Within n) (hnm : n ≤ m) : f.Within m :=
  fun l hl => Nat.le_trans (h l hl) hnm

theorem Literal.eval_congr {ν μ : Nat → Bool} {l : Literal} (h : μ l.var = ν l.var) :
    l.eval μ = l.eval ν := by
  rw [Literal.eval, Literal.eval, h]

theorem Clause.eval_congr {ν μ : Nat → Bool} {c : Clause} (h : ∀ l ∈ c, μ l.var = ν l.var) :
    c.eval μ = c.eval ν := by
  have hm : c.map (Literal.eval μ) = c.map (Literal.eval ν) :=
    List.map_congr_left fun l hl => Literal.eval_congr (h l hl)
  simpa only [Clause.eval, List.any_map, Function.id_comp] using congrArg (List.any · id) hm

mutual
theorem Formula.eval_congr {ν μ : Nat → Bool} :
    ∀ {f : Formula}, (∀ l ∈ f.leaves, μ l.var = ν l.var) → f.eval μ = f.eval ν
  | .literal l, h => by
    simp only [Formula.leaves, List.mem_singleton, forall_eq] at h
    exact Literal.eval_congr h
  | .not f, h => by
    simp only [Formula.leaves] at h
    simp only [Formula.eval, Formula.eval_congr h]
  | .and fs, h => Formula.evalAll_congr h
  | .or fs, h => Formula.evalAny_congr h
  | .xor f g, h => by
    simp only [Formula.leaves, List.mem_append] at h
    simp only [Formula.eval, Formula.eval_congr fun l hl => h l (.inl hl),
      Formula.eval_congr fun l hl => h l (.inr hl)]
  | .iff f g, h => by
    simp only [Formula.leaves, List.mem_append] at h
    simp only [Formula.eval, Formula.eval_congr fun l hl => h l (.inl hl),
      Formula.eval_congr fun l hl => h l (.inr hl)]

theorem Formula.evalAll_congr {ν μ : Nat → Bool} :
    ∀ {fs : List Formula}, (∀ l ∈ Formula.leavesAll fs, μ l.var = ν l.var) →
      Formula.evalAll μ fs = Formula.evalAll ν fs
  | [], _ => rfl
  | f :: fs, h => by
    simp only [Formula.leavesAll, List.mem_append] at h
    simp only [Formula.evalAll, Formula.eval_congr fun l hl => h l (.inl hl),
      Formula.evalAll_congr fun l hl => h l (.inr hl)]

theorem Formula.evalAny_congr {ν μ : Nat → Bool} :
    ∀ {fs : List Formula}, (∀ l ∈ Formula.leavesAll fs, μ l.var = ν l.var) →
      Formula.evalAny μ fs = Formula.evalAny ν fs
  | [], _ => rfl
  | f :: fs, h => by
    simp only [Formula.leavesAll, List.mem_append] at h
    simp only [Formula.evalAny, Formula.eval_congr fun l hl => h l (.inl hl),
      Formula.evalAny_congr fun l hl => h l (.inr hl)]
end

namespace Gate

/-- The literals that the gate reads. -/
def inputs : Gate → List Literal
  | .not a => [a]
  | .and as => as
  | .or as => as
  | .xor a b => [a, b]
  | .iff a b => [a, b]

theorem eval_congr {ν μ : Nat → Bool} {g : Gate} (h : ∀ l ∈ g.inputs, μ l.var = ν l.var) :
    g.eval μ = g.eval ν := by
  have hl : ∀ l ∈ g.inputs, l.eval μ = l.eval ν := fun l hl => Literal.eval_congr (h l hl)
  cases g with
  | not a => simp only [eval, hl a (by simp [inputs])]
  | and as =>
    have hm : as.map (Literal.eval μ) = as.map (Literal.eval ν) := List.map_congr_left hl
    simpa only [eval, List.all_map, Function.id_comp] using congrArg (List.all · id) hm
  | or as => exact Clause.eval_congr h
  | xor a b => simp only [eval, hl a (by simp [inputs]), hl b (by simp [inputs])]
  | iff a b => simp only [eval, hl a (by simp [inputs]), hl b (by simp [inputs])]

/-- The clauses of a gate are made of its output and its inputs, up to their signs. -/
theorem var_of_mem_clauses {g : Gate} {z l : Literal} {c : Clause} (hc : c ∈ g.clauses z)
    (hl : l ∈ c) : l.var = z.var ∨ ∃ a ∈ g.inputs, l.var = a.var := by
  cases g <;> simp only [clauses, inputs, List.mem_append, List.mem_map, List.mem_cons,
    List.not_mem_nil, or_false] at hc ⊢ <;> grind [Literal.var_neg]

theorem within_clauses {g : Gate} {z : Literal} {n : Nat} (hz : z.var ≤ n)
    (hg : ∀ l ∈ g.inputs, l.var ≤ n) : ∀ c ∈ g.clauses z, c.Within n := by
  intro c hc l hl
  rcases var_of_mem_clauses hc hl with h | ⟨a, ha, h⟩
  · rw [h]; exact hz
  · rw [h]; exact hg a ha

end Gate

/-! ## Defining clauses -/

/-- All clauses hold. -/
def Holds (ν : Nat → Bool) (cs : List Clause) : Prop := ∀ c ∈ cs, c.eval ν = true

@[simp] theorem holds_nil (ν : Nat → Bool) : Holds ν [] := by simp [Holds]

@[simp] theorem holds_append {ν : Nat → Bool} {cs ds : List Clause} :
    Holds ν (cs ++ ds) ↔ Holds ν cs ∧ Holds ν ds := by
  simp [Holds, or_imp, forall_and]

theorem holds_congr {ν μ : Nat → Bool} {cs : List Clause}
    (h : ∀ c ∈ cs, ∀ l ∈ c, μ l.var = ν l.var) : Holds μ cs ↔ Holds ν cs :=
  forall₂_congr fun c hc => by rw [Clause.eval_congr (h c hc)]

/-- The clauses hold under exactly one choice for the variables `vs`, whatever the other variables
are. -/
def Defines (vs : Set Nat) (cs : List Clause) : Prop :=
  ∀ ν : Nat → Bool, ∃! μ : Nat → Bool, Set.EqOn μ ν vsᶜ ∧ Holds μ cs

theorem Defines.nil : Defines ∅ [] := by
  intro ν
  refine ⟨ν, ⟨fun _ _ => rfl, holds_nil ν⟩, fun μ hμ => ?_⟩
  funext v
  exact hμ.1 (Set.notMem_empty v)

/-- Definitions of further variables may be added to definitions that do not mention them. -/
theorem Defines.append {us vs : Set Nat} {cs ds : List Clause} (hc : Defines us cs)
    (hd : Defines vs ds) (hfree : ∀ c ∈ cs, ∀ l ∈ c, l.var ∉ vs) :
    Defines (us ∪ vs) (cs ++ ds) := by
  intro ν
  obtain ⟨ν₁, ⟨hν₁, hcs⟩, huniq₁⟩ := hc ν
  obtain ⟨ν₂, ⟨hν₂, hds⟩, huniq₂⟩ := hd ν₁
  refine ⟨ν₂, ⟨fun v hv => ?_, ?_⟩, fun μ ⟨hμ, hholds⟩ => ?_⟩
  · simp only [Set.mem_compl_iff, Set.mem_union, not_or] at hv
    exact (hν₂ hv.2).trans (hν₁ hv.1)
  · exact holds_append.mpr ⟨(holds_congr fun c hc l hl => hν₂ (hfree c hc l hl)).mpr hcs, hds⟩
  · obtain ⟨hμcs, hμds⟩ := holds_append.mp hholds
    classical
    -- `μ` cut down to the first variables is the first extension
    let κ : Nat → Bool := fun v => if v ∈ us then μ v else ν v
    have hκ : ∀ v, v ∉ vs → κ v = μ v := fun v hv => by
      by_cases hu : v ∈ us
      · simp [κ, hu]
      · simp only [κ, hu, if_false]
        exact (hμ (by simp [hu, hv])).symm
    have hκν₁ : κ = ν₁ := huniq₁ κ
      ⟨fun v hv => if_neg hv, (holds_congr fun c hc l hl => hκ _ (hfree c hc l hl)).mpr hμcs⟩
    exact huniq₂ μ ⟨fun v hv => by rw [← hκν₁]; exact (hκ v hv).symm, hμds⟩

theorem Gate.holds_clauses_iff {ν : Nat → Bool} {g : Gate} {z : Literal} :
    Holds ν (g.clauses z) ↔ z.eval ν = g.eval ν := by
  rw [Holds, ← List.all_eq_true, Gate.all_eval_clauses, beq_iff_eq]

/-- The clauses of a gate define a variable that the gate does not read. -/
theorem Gate.defines {g : Gate} {z : Literal} (hz : z.isPositive = true)
    (hg : ∀ l ∈ g.inputs, l.var ≠ z.var) : Defines {z.var} (g.clauses z) := by
  intro ν
  have heval : ∀ μ : Nat → Bool, Holds μ (g.clauses z) ↔ μ z.var = g.eval μ := by
    intro μ
    rw [Gate.holds_clauses_iff, Literal.eval, hz, beq_true]
  have hsame : ∀ μ : Nat → Bool, Set.EqOn μ ν {z.var}ᶜ → g.eval μ = g.eval ν :=
    fun μ hμ => Gate.eval_congr fun l hl => hμ (hg l hl)
  refine ⟨Function.update ν z.var (g.eval ν), ⟨?_, ?_⟩, ?_⟩
  · exact fun v hv => Function.update_of_ne hv _ _
  · rw [heval, Function.update_self]
    exact (hsame _ fun v hv => Function.update_of_ne hv _ _).symm
  · rintro μ ⟨hμ, hholds⟩
    funext v
    by_cases hv : v = z.var
    · rw [hv, Function.update_self, (heval μ).mp hholds, hsame μ hμ]
    · rw [Function.update_of_ne hv, hμ hv]

end Counterbalance
