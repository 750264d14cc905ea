import Counterbalance.Proofs.Block.Valid
import Counterbalance.Proofs.Logic.Models

/-! What compilation does. It is a run of a session that adds the clauses of the layout and asserts
the definitions, the crossing and the constraints, so that the models of the clause list are the
truth assignments that read as valid sequences. -/

namespace Counterbalance

/-! ## Compilation as a run -/

namespace Session

variable {s s' : Session}

theorem exists_run_of_addClauses (s : Session) (cs : List Clause) :
    ∃ rs, s.run (cs.map Step.clause) = .ok (rs, s.addClauses cs) := by
  induction cs generalizing s with
  | nil => exact ⟨[], rfl⟩
  | cons c cs ih =>
    obtain ⟨rs, hrs⟩ := ih (s.addClause c)
    exact ⟨_, run_cons.mpr ⟨none, _, rs, rfl, hrs, rfl⟩⟩

theorem exists_run_of_assertAll {φs : List Formula} (h : s.assertAll φs = .ok s') :
    ∃ rs, s.run (φs.map Step.assert) = .ok (rs, s') := by
  induction φs generalizing s with
  | nil => exact ⟨[], by rw [← Except.ok.inj h]; rfl⟩
  | cons φ φs ih =>
    rw [assertAll, List.foldlM_cons] at h
    obtain ⟨s₁, hφ, h⟩ := Outcome.bind_eq_ok.mp h
    obtain ⟨rs, hrs⟩ := ih h
    have hstep : s.perform (.assert φ) = .ok (none, s₁) := Outcome.bind_eq_ok.mpr ⟨s₁, hφ, rfl⟩
    exact ⟨_, run_cons.mpr ⟨none, s₁, rs, hstep, hrs, rfl⟩⟩

theorem assertAll_append {φs ψs : List Formula} {s₁ : Session} (h : s.assertAll φs = .ok s₁)
    (h' : s₁.assertAll ψs = .ok s') : s.assertAll (φs ++ ψs) = .ok s' := by
  rw [assertAll, List.foldlM_append]
  exact Outcome.bind_eq_ok.mpr ⟨s₁, h, h'⟩

end Session

namespace Block

variable {b : Block} {options : Options} {g : Nat → Bool}

/-- Constraints are asserted like the list of all their formulas, and these are counted. -/
theorem assertAll_of_assertConstraints {cs : List Constraint} {s s' : Session} {n : Nat}
    (h : b.assertConstraints s cs = .ok (n, s')) :
    ∃ φss, cs.mapM b.requirements = .ok φss ∧ s.assertAll φss.flatten = .ok s' ∧
      n = φss.flatten.length := by
  induction cs generalizing s n with
  | nil =>
    obtain ⟨rfl, rfl⟩ := Prod.mk.inj (Except.ok.inj h)
    exact ⟨[], rfl, rfl, rfl⟩
  | cons c cs ih =>
    obtain ⟨φs, hφs, h⟩ := Outcome.bind_eq_ok.mp h
    obtain ⟨s₁, hs₁, h⟩ := Outcome.bind_eq_ok.mp h
    obtain ⟨⟨m, s₂⟩, hrest, h⟩ := Outcome.bind_eq_ok.mp h
    obtain ⟨rfl, rfl⟩ := Prod.mk.inj (Except.ok.inj h)
    obtain ⟨φss, hφss, hall, rfl⟩ := ih hrest
    refine ⟨φs :: φss, Outcome.mapM_eq_ok.mpr (.cons hφs (Outcome.mapM_eq_ok.mp hφss)), ?_, ?_⟩
    · exact Session.assertAll_append (Outcome.mapError_eq_ok.mp hs₁) hall
    · rw [List.flatten_cons, List.length_append]

/-- What a compilation is put together from. -/
structure Parts (b : Block) (options : Options) where
  table : DerivationTable
  layout : List Clause
  definitions : List Formula
  crossing : List Formula
  requirements : List (List Formula)
  table_eq : b.derivationTable = .ok table
  layout_eq : b.layoutClauses options.exactlyOne = .ok layout
  definitions_eq : b.definitions table = .ok definitions
  crossing_eq : b.crossingPart options.fullCrossing = .ok crossing
  requirements_eq : b.constraints.mapM b.requirements = .ok requirements

namespace Parts

/-- Everything that is asserted, in order. -/
def formulas (p : b.Parts options) : List Formula :=
  p.definitions ++ p.crossing ++ p.requirements.flatten

/-- The session in which the formulas are asserted. -/
def session (p : b.Parts options) : Session :=
  (Session.start ⟨b.gridVariables⟩ options.memoize).addClauses p.layout

def steps (p : b.Parts options) : List Session.Step :=
  p.layout.map Session.Step.clause ++ p.formulas.map Session.Step.assert

end Parts

/-- A compilation is a session that is given the layout and asserts the formulas of the parts. -/
theorem exists_session_of_compile {c : Compilation} (h : b.compile options = .ok c) :
    ∃ (p : b.Parts options) (s : Session), p.session.assertAll p.formulas = .ok s ∧
      c = ⟨s.cnf, p.table.toList, s.supply.last, p.layout.length, p.definitions.length,
        p.crossing.length, p.requirements.flatten.length, s.stats⟩ := by
  obtain ⟨table, htable, h⟩ := Outcome.bind_eq_ok.mp h
  obtain ⟨layout, hlayout, h⟩ := Outcome.bind_eq_ok.mp h
  obtain ⟨definitions, hdefinitions, h⟩ := Outcome.bind_eq_ok.mp h
  obtain ⟨crossing, hcrossing, h⟩ := Outcome.bind_eq_ok.mp h
  obtain ⟨s₁, hs₁, h⟩ := Outcome.bind_eq_ok.mp h
  obtain ⟨⟨n, s₂⟩, hs₂, h⟩ := Outcome.bind_eq_ok.mp h
  obtain ⟨requirements, hrequirements, hall, rfl⟩ := assertAll_of_assertConstraints hs₂
  let p : b.Parts options :=
    ⟨table, layout, definitions, crossing, requirements, Outcome.mapError_eq_ok.mp htable,
      Outcome.mapError_eq_ok.mp hlayout, Outcome.mapError_eq_ok.mp hdefinitions,
      Outcome.mapError_eq_ok.mp hcrossing, hrequirements⟩
  exact ⟨p, s₂, Session.assertAll_append (Outcome.mapError_eq_ok.mp hs₁) hall,
    (Except.ok.inj h).symm⟩

/-- The session of a compilation takes the steps of the parts. -/
theorem Parts.exists_run (p : b.Parts options) {s : Session}
    (h : p.session.assertAll p.formulas = .ok s) :
    ∃ rs, (Session.start ⟨b.gridVariables⟩ options.memoize).run p.steps = .ok (rs, s) := by
  obtain ⟨rs, hrs⟩ := Session.exists_run_of_addClauses
    (Session.start ⟨b.gridVariables⟩ options.memoize) p.layout
  obtain ⟨ts, hts⟩ := Session.exists_run_of_assertAll h
  exact ⟨rs ++ ts, Session.run_append hrs hts⟩

/-- A compilation is a run over its parts. -/
theorem exists_run_of_compile {c : Compilation} (h : b.compile options = .ok c) :
    ∃ (p : b.Parts options) (rs : List Session.Record) (s : Session),
      (Session.start ⟨b.gridVariables⟩ options.memoize).run p.steps = .ok (rs, s) ∧
      c.cnf = s.cnf ∧ c.varCount = s.supply.last := by
  obtain ⟨p, s, hs, rfl⟩ := exists_session_of_compile h
  obtain ⟨rs, hrun⟩ := p.exists_run hs
  exact ⟨p, rs, s, hrun, rfl, rfl⟩

/-! ## What is asserted -/

/-- The formulas of the crossing say that every combination is shown, if they are asked for. -/
theorem means_crossingPart (hb : b.WellFormed) (hr : b.InRange) {full : Bool} {φs : List Formula}
    (h : b.crossingPart full = .ok φs) : ∃ P, (Formula.and φs).Means b.gridVariables P ∧
      ∀ ν s, b.Shows ν s → (P ν ↔ (full = true → ∀ ls, b.Combined ls →
        ∃ t ∈ b.crossedTrials, List.Forall₂ (fun f l => b.Gives s f t l) b.crossing ls)) := by
  unfold crossingPart at h
  split at h
  · rename_i hfull
    refine ⟨_, means_crossingFormulas hb hr h, fun ν s hs => ?_⟩
    rw [crossed_iff hb hs, forall_prop_of_true hfull]
  · rename_i hfull
    obtain rfl := Except.ok.inj h
    exact ⟨_, Formula.Means.and_nil, fun ν s hs => by simp [hfull]⟩

/-- The formulas of all constraints say that these hold. -/
theorem means_constraints (hb : b.WellFormed) (hr : b.InRange) {cs : List Constraint}
    {φss : List (List Formula)} (h : cs.mapM b.requirements = .ok φss) :
    ∃ P, (Formula.and φss.flatten).Means b.gridVariables P ∧
      ∀ ν s, b.Shows ν s → (P ν ↔ ∀ c ∈ cs, b.Obeys s c) := by
  induction Outcome.mapM_eq_ok.mp h with
  | nil => exact ⟨_, Formula.Means.and_nil, fun ν s _ => by simp⟩
  | @cons c φs cs φss hφs hφss ih =>
    obtain ⟨P, hP, hc⟩ := means_requirements hb hr hφs
    obtain ⟨Q, hQ, hcs⟩ := ih (Outcome.mapM_eq_ok.mpr hφss)
    refine ⟨_, Formula.Means.and_append hP hQ, fun ν s hs => ?_⟩
    rw [List.forall_mem_cons, hc ν s hs, hcs ν s hs]

/-- **The asserted formulas say that the sequence is valid.** -/
theorem Parts.means (hb : b.WellFormed) (hr : b.InRange) (p : b.Parts options) :
    ∃ P, (Formula.and p.formulas).Means b.gridVariables P ∧
      ∀ ν s, b.Cells ν → b.Shows ν s → (P ν ↔ b.Valid options.fullCrossing s) := by
  have ht := tabulated_of_derivationTable hb p.table_eq
  have hdefinitions := means_definitions hb hr ht p.definitions_eq
  obtain ⟨Q, hQ, hcrossed⟩ := means_crossingPart hb hr p.crossing_eq
  obtain ⟨R, hR, hconstrained⟩ := means_constraints hb hr p.requirements_eq
  refine ⟨_, (hdefinitions.and_append hQ).and_append hR, fun ν s hν hs => ?_⟩
  rw [supported_iff_derived hb hν ht, derived_iff hb hν hs, hcrossed ν s hs, hconstrained ν s hs]
  constructor
  · intro h
    obtain ⟨⟨hderived, hcross⟩, hall⟩ := h
    exact ⟨hderived, hcross, hall⟩
  · intro hvalid
    exact ⟨⟨hvalid.derived, hvalid.crossed⟩, hvalid.constrained⟩

/-- The demands of a compilation: the layout's clauses and all formulas. -/
theorem Parts.demands_iff (p : b.Parts options) {ν : Nat → Bool} :
    (∀ step ∈ p.steps, step.Demands ν) ↔ Holds ν p.layout ∧ ∀ φ ∈ p.formulas, φ.eval ν = true := by
  simp only [steps, List.mem_append, or_imp, forall_and, List.forall_mem_map]
  rfl

/-- The steps of a compilation are about trial variables. -/
theorem Parts.literals_le_of_inRange (hb : b.WellFormed) (hr : b.InRange) (p : b.Parts options) :
    ∀ step ∈ p.steps, ∀ l ∈ step.literals, l.var ≤ b.gridVariables := by
  obtain ⟨P, hP, _⟩ := p.means hb hr
  have hwithin := (Formula.Means.and_iff.mp hP).1
  intro step hstep
  rcases List.mem_append.mp hstep with hstep | hstep
  · obtain ⟨c, hc, rfl⟩ := List.mem_map.mp hstep
    exact within_layoutClauses hb hr p.layout_eq c hc
  · obtain ⟨φ, hφ, rfl⟩ := List.mem_map.mp hstep
    exact hwithin φ hφ

theorem Parts.literals_le (hb : b.WellFormed) (hexact : options.exactlyOne = true)
    (p : b.Parts options) : ∀ step ∈ p.steps, ∀ l ∈ step.literals, l.var ≤ b.gridVariables :=
  p.literals_le_of_inRange hb (inRange_of_layoutClauses hb (hexact ▸ p.layout_eq))

/-- The owner of the session of a compilation reserves no variables. -/
theorem Parts.ne_reserve (p : b.Parts options) :
    ∀ step ∈ p.steps, ∀ count, step ≠ .reserve count := by
  intro step hstep count
  rcases List.mem_append.mp hstep with hstep | hstep
  · obtain ⟨c, _, rfl⟩ := List.mem_map.mp hstep
    exact nofun
  · obtain ⟨φ, _, rfl⟩ := List.mem_map.mp hstep
    exact nofun

/-- **The demands of a compilation** are met by the assignments that fill the cells as they should
and that read as valid sequences. -/
theorem Parts.demands_iff_valid (hb : b.WellFormed) (hexact : options.exactlyOne = true)
    (p : b.Parts options) {n : Nat} (hn : b.gridVariables ≤ n) {ν : Nat → Bool} :
    (∀ step ∈ p.steps, step.Demands ν) ↔
      b.Cells ν ∧ ∃ s, b.decode (signedEntries ν n) = .ok s ∧ b.Valid options.fullCrossing s := by
  have hlayout : b.layoutClauses true = .ok p.layout := hexact ▸ p.layout_eq
  have hr := inRange_of_layoutClauses hb hlayout
  obtain ⟨P, hP, hvalid⟩ := p.means hb hr
  rw [p.demands_iff, holds_layoutClauses hb hlayout, (Formula.Means.and_iff.mp hP).2]
  refine and_congr_right fun hν => ?_
  obtain ⟨s, hs⟩ := (exists_decode_iff hb hr hn).mpr hν.exact
  rw [hvalid ν s hν (shows_of_decode hb hr hn hs)]
  simp [hs]

/-- **Compilation is sound and complete.** A truth assignment of the trial variables extends to a
model of the compiled clauses exactly if it chooses no level where a factor does not apply and one
level where it does, and the sequence that it is read as is valid. -/
theorem compile_sound_complete (hb : b.Accepted) (hexact : options.exactlyOne = true)
    {c : Compilation} (hc : b.compile options = .ok c) (g : Nat → Bool) :
    (∃ ν : Nat → Bool, (∀ v, 0 < v → v ≤ b.gridVariables → ν v = g v) ∧
      c.cnf.isSatisfiedBy (signedEntries ν c.varCount) = true) ↔
    b.Cells g ∧ ∃ s, b.decode (signedEntries g b.gridVariables) = .ok s ∧
      b.Valid options.fullCrossing s := by
  have hwf := hb.wellFormed
  obtain ⟨p, rs, s, hrun, hcnf, hcount⟩ := exists_run_of_compile hc
  rw [hcnf, hcount, ← p.demands_iff_valid hwf hexact (Nat.le_refl _)]
  exact Session.exists_model_iff hrun (p.literals_le hwf hexact) g

/-- Four combinations of colours and repetitions, where no colour may come three times in a row. -/
theorem compile_sound_complete_repeats :
    ∃ b c, fullyCrossed .colorRepeats ["color", "repeats"]
      [.atMostInARow 2 (.factor "color")] = .ok b ∧ b.compile {} = .ok c ∧ ∀ g : Nat → Bool,
        (∃ ν : Nat → Bool, (∀ v, 0 < v → v ≤ b.gridVariables → ν v = g v) ∧
          c.cnf.isSatisfiedBy (signedEntries ν c.varCount) = true) ↔
        b.Cells g ∧ ∃ s, b.decode (signedEntries g b.gridVariables) = .ok s ∧ b.Valid true s := by
  have hcompiles : ((fullyCrossed .colorRepeats ["color", "repeats"]
      [.atMostInARow 2 (.factor "color")]).toOption.bind fun b => (b.compile {}).toOption).isSome =
        true := by
    decide +kernel
  obtain ⟨c, hc⟩ := Option.isSome_iff_exists.mp hcompiles
  obtain ⟨b, hb, hc⟩ := Option.bind_eq_some_iff.mp hc
  rw [Outcome.toOption_eq_some] at hb hc
  exact ⟨b, c, hb, hc, compile_sound_complete ⟨_, _, _, .inr hb⟩ rfl hc⟩

end Block

end Counterbalance
