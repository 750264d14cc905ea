import Counterbalance.Proofs.Block.Accounting
import Counterbalance.Proofs.Block.Failure

/-! Blocks that are too large. Variables are cut to 32 bits without a check, but no compilation in
which each cell asks for one level gets past the layout with a variable that was cut, as the layout
comes to the last variable that literals have before it comes to one that wraps. And where the trial
variables and the connectives of all formulas fit, no literal is out of range. -/

namespace Counterbalance.Block

variable {b : Block} {options : Options}

/-! ## What is encoded -/

/-- The formulas of the constraints before the first that has none. -/
def constraintFormulas (b : Block) : List Constraint → List Formula
  | [] => []
  | c :: cs =>
    match b.requirements c with
    | .ok φs => φs ++ b.constraintFormulas cs
    | .error _ => []

/-- The formulas that compilation encodes, until it is done or fails. -/
def encodedFormulas (b : Block) (options : Options) : List Formula :=
  match b.derivationTable with
  | .ok table =>
    (b.definitions table).toOption.getD [] ++
      (b.crossingPart options.fullCrossing).toOption.getD [] ++
      b.constraintFormulas b.constraints
  | .error _ => []

theorem constraintFormulas_eq {cs : List Constraint} {φss : List (List Formula)}
    (h : cs.mapM b.requirements = .ok φss) : b.constraintFormulas cs = φss.flatten := by
  induction Outcome.mapM_eq_ok.mp h with
  | nil => rfl
  | cons hφs hrest ih =>
    rw [constraintFormulas, hφs, List.flatten_cons, ih (Outcome.mapM_eq_ok.mpr hrest)]

theorem encodedFormulas_eq {table : DerivationTable} {φs ψs : List Formula}
    (htable : b.derivationTable = .ok table) (hφs : b.definitions table = .ok φs)
    (hψs : b.crossingPart options.fullCrossing = .ok ψs) :
    b.encodedFormulas options = φs ++ ψs ++ b.constraintFormulas b.constraints := by
  rw [encodedFormulas, htable]
  simp only [hφs, hψs, Except.toOption, Option.getD_some]

/-- A compilation that succeeds encodes all formulas. -/
theorem Parts.encodedFormulas_eq (p : b.Parts options) :
    b.encodedFormulas options = p.formulas := by
  rw [Block.encodedFormulas_eq p.table_eq p.definitions_eq p.crossing_eq,
    constraintFormulas_eq p.requirements_eq, formulas]

/-! ## Room for all variables -/

/-- Constraints do not draw variables out of range if there is one for every connective of their
formulas. -/
theorem assertConstraints_ne_literal (hb : b.WellFormed) (hr : b.InRange) {cs : List Constraint}
    {s : Session}
    (hroom : s.supply.last + Formula.connectivesAll (b.constraintFormulas cs) ≤ maxVariable)
    (e : LiteralError) : b.assertConstraints s cs ≠ .error (.literal e) := by
  induction cs generalizing s with
  | nil => exact nofun
  | cons c cs ih =>
    intro h
    rcases Outcome.bind_eq_error.mp h with h | ⟨φs, hφs, h⟩
    · obtain ⟨e', he', _⟩ := lacks_of_requirements hb hr h
      cases he'
    rw [constraintFormulas, hφs, Formula.connectivesAll_append] at hroom
    obtain ⟨s', hs', hdraws⟩ := Session.exists_assertAll (s := s) φs (by omega)
    have hlast := hdraws.last_le
    rcases Outcome.bind_eq_error.mp h with h | ⟨s₁, hs₁, h⟩
    · obtain ⟨e', hfails, _⟩ := Outcome.mapError_eq_error.mp h
      exact Outcome.ne_error hs' e' hfails
    obtain rfl := Except.ok.inj (hs'.symm.trans (Outcome.mapError_eq_ok.mp hs₁))
    rcases Outcome.bind_eq_error.mp h with h | ⟨_, _, h⟩
    · exact ih (by omega) h
    · cases h

/-- **No literal is out of range where the trial variables and the connectives of all formulas
fit.** -/
theorem compile_ne_literal (hb : b.WellFormed)
    (hroom : b.trials * b.trialSize + Formula.connectivesAll (b.encodedFormulas options) ≤
      maxVariable)
    (e : LiteralError) : b.compile options ≠ .error (.literal e) := by
  intro h
  have hr : b.InRange := Nat.le_trans (Nat.le_add_right _ _) hroom
  have hstart : ∀ layout,
      ((Session.start ⟨b.gridVariables⟩ options.memoize).addClauses layout).supply.last =
        b.gridVariables :=
    fun layout => congrArg Supply.last (Session.supply_addClauses _ layout)
  rw [← hr.uncut.gridVariables_eq] at hroom
  cases stops_of_compile h with
  | layout _ hfails =>
    obtain ⟨cs, hok⟩ := exists_layoutClauses hb hr options.exactlyOne
    exact Outcome.ne_error hok e hfails
  | definitions htable hfails =>
    obtain ⟨φs, hok, _⟩ := exists_definitions hb hr (tabulated_of_derivationTable hb htable)
    exact Outcome.ne_error hok e hfails
  | crossing _ hfails =>
    obtain ⟨ψs, hok, _⟩ := exists_crossingPart hb hr options.fullCrossing
    exact Outcome.ne_error hok e hfails
  | @assertion _ layout φs ψs _ htable hφs hψs hfails =>
    rw [encodedFormulas_eq htable hφs hψs, Formula.connectivesAll_append, ← hstart layout,
      ← Nat.add_assoc] at hroom
    obtain ⟨s, hok, _⟩ := Session.exists_assertAll (φs ++ ψs) (Nat.le_of_add_right_le hroom)
    exact Outcome.ne_error hok e hfails
  | @constraints _ layout φs ψs s _ htable hφs hψs hs hfails =>
    rw [encodedFormulas_eq htable hφs hψs, Formula.connectivesAll_append, ← hstart layout,
      ← Nat.add_assoc] at hroom
    obtain ⟨s', hs', hdraws⟩ := Session.exists_assertAll (φs ++ ψs) (Nat.le_of_add_right_le hroom)
    obtain rfl := Except.ok.inj (hs'.symm.trans hs)
    have hlast := hdraws.last_le
    exact assertConstraints_ne_literal hb hr (by omega) e hfails

/-! ## Variables that are not cut -/

/-- No variable of a trial is cut. -/
structure Unwrapped (b : Block) : Prop where
  grid_le : b.trials * b.trialSize ≤ maxVariable
  gridVariables_eq : b.gridVariables = b.trials * b.trialSize
  /-- Also where a window reads a later trial through a data index beyond those of one trial. -/
  variableAt_eq : ∀ t d, t * b.trialSize + d < b.trials * b.trialSize →
    b.variableAt t d = t * b.trialSize + d + 1
  variableAt_inj : ∀ t < b.trials, ∀ d < b.trialSize, ∀ u < b.trials, ∀ e < b.trialSize,
    b.variableAt t d = b.variableAt u e → t = u ∧ d = e

theorem InRange.unwrapped (hr : b.InRange) : b.Unwrapped := by
  refine ⟨hr, hr.uncut.gridVariables_eq, fun t d h => ?_,
    fun t ht d hd u hu e he => hr.uncut.variableAt_inj ht hd hu he⟩
  have hmax : b.trials * b.trialSize ≤ maxVariable := hr
  have hwords : maxVariable < words32 := by decide
  exact Nat.mod_eq_of_lt (by omega)

/-- **Large blocks do not reuse variables.** Where every cell asks for one level, a compilation that
succeeds has cut no variable, and all its variables are in the range of literals. Conversely no
literal is out of range where the trial variables and the connectives of all encoded formulas
fit. -/
theorem compile_unwrapped (hb : b.Accepted) (options : Options) :
    (options.exactlyOne = true →
      ∀ c, b.compile options = .ok c → b.Unwrapped ∧ c.varCount ≤ maxVariable) ∧
    (b.trials * b.trialSize + Formula.connectivesAll (b.encodedFormulas options) ≤ maxVariable →
      ∀ e, b.compile options ≠ .error (.literal e)) ∧
    ∀ c, b.compile options = .ok c →
      c.stats.encoding.formulas = (b.encodedFormulas options).length := by
  have hwf := hb.wellFormed
  refine ⟨fun hexact c hc => ?_, compile_ne_literal hwf, fun c hc => ?_⟩
  · have hr := inRange_of_compile hwf hexact hc
    obtain ⟨p, s, hs, rfl⟩ := exists_session_of_compile hc
    obtain ⟨es, hasserted⟩ := Session.exists_asserted_of_assertAll hs
    refine ⟨hr.unwrapped, hasserted.last_le ?_⟩
    rw [p.last_session, hr.uncut.gridVariables_eq]
    exact hr
  · obtain ⟨p, s, hs, rfl⟩ := exists_session_of_compile hc
    obtain ⟨es, hasserted⟩ := Session.exists_asserted_of_assertAll hs
    rw [p.encodedFormulas_eq]
    exact hasserted.formulas_eq.trans (by rw [p.formulas_session, Nat.zero_add])

/-- Twenty trial variables and sixty-four connectives fit. -/
theorem compile_unwrapped_repeats :
    ∃ b, fullyCrossed .colorRepeats ["color", "repeats"]
        [.atMostInARow 2 (.factor "color")] = .ok b ∧
      b.trials * b.trialSize + Formula.connectivesAll (b.encodedFormulas {}) = 84 ∧
      (∀ e, b.compile {} ≠ .error (.literal e)) ∧
      ∃ c, b.compile {} = .ok c ∧ b.Unwrapped ∧ c.varCount ≤ maxVariable := by
  have hrun : ((fullyCrossed .colorRepeats ["color", "repeats"]
      [.atMostInARow 2 (.factor "color")]).toOption.map fun b =>
        (b.trials * b.trialSize + Formula.connectivesAll (b.encodedFormulas {}),
          (b.compile {}).toOption.isSome)) =
      some (84, true) := by
    decide +kernel
  obtain ⟨b, hb, hrun⟩ := Option.map_eq_some_iff.mp hrun
  rw [Outcome.toOption_eq_some] at hb
  obtain ⟨hroom, hcompiles⟩ := Prod.mk.inj hrun
  obtain ⟨c, hc⟩ := Option.isSome_iff_exists.mp hcompiles
  rw [Outcome.toOption_eq_some] at hc
  obtain ⟨hunwrapped, hrange, _⟩ := compile_unwrapped ⟨_, _, _, .inr hb⟩ {}
  exact ⟨b, hb, hroom, hrange (hroom ▸ by decide), c, hc, hunwrapped rfl c hc⟩

end Counterbalance.Block
