import Counterbalance.Proofs.Block.Compilation
import Counterbalance.Proofs.Block.Enumeration
import Counterbalance.Proofs.Logic.Capacity

/-! Which blocks can be compiled. Where all trial variables are in the range of literals, every
clause and formula can be written down. The formulas have as many connectives as there are
combinations to be listed, and compilation succeeds if there is room for that many auxiliary
variables after the trial variables. -/

namespace Counterbalance.Block

variable {b : Block} {options : Options}

theorem InRange.exists_positive (hr : b.InRange) {t d : Nat} (ht : t < b.trials)
    (hd : d < b.trialSize) : ∃ l, Literal.positive (b.variableAt t d) = .ok l := by
  have hle := hr.uncut.variableAt_le ht hd
  rw [hr.uncut.gridVariables_eq] at hle
  exact Literal.exists_positive (hr.uncut.variableAt_pos ht hd) (Nat.le_trans hle hr)

/-! ## Layout -/

theorem exists_cellClauses (hb : b.WellFormed) (hr : b.InRange) (exactlyOne : Bool) {f t : Nat}
    (hf : f < b.design.length) (ht : t < b.trials) :
    ∃ cs, b.cellClauses exactlyOne f t = .ok cs := by
  have hliterals : ∃ ls, b.cellLiterals f t = .ok ls := by
    refine Outcome.exists_mapM_eq_ok.mpr fun l hl => ?_
    exact hr.exists_positive ht (hb.dataIndex_lt hf (List.mem_range.mp hl))
  obtain ⟨ls, hls⟩ := hliterals
  rw [cellClauses_eq]
  split
  · exact ⟨[], rfl⟩
  · exact ⟨_, cellClauses_eq_ok.mpr ⟨ls, hls, rfl⟩⟩

theorem exists_layoutClauses (hb : b.WellFormed) (hr : b.InRange) (exactlyOne : Bool) :
    ∃ cs, b.layoutClauses exactlyOne = .ok cs := by
  have hfactor : ∀ f ∈ List.range b.design.length,
      ∃ cs, ((List.range b.trials).mapM (b.cellClauses exactlyOne f)).map List.flatten =
        .ok cs := by
    intro f hf
    obtain ⟨css, hcss⟩ := Outcome.exists_mapM_eq_ok.mpr fun t ht =>
      exists_cellClauses hb hr exactlyOne (List.mem_range.mp hf) (List.mem_range.mp ht)
    exact ⟨_, Outcome.map_eq_ok.mpr ⟨css, hcss, rfl⟩⟩
  obtain ⟨css, hcss⟩ := Outcome.exists_mapM_eq_ok.mpr hfactor
  exact ⟨_, Outcome.map_eq_ok.mpr ⟨css, hcss, rfl⟩⟩

/-! ## Definitions and crossing -/

/-- A combination is written as one conjunction of literals. -/
theorem exists_combinationFormula {start : Nat} {c : Combination}
    (h : ∀ x ∈ c, ∃ l, Literal.positive (b.variableAt start x) = .ok l) :
    ∃ φ, b.combinationFormula start c = .ok φ ∧ φ.connectives = 1 := by
  have hliteral :
      ∀ x ∈ c, ∃ φ, Formula.ofVar (b.variableAt start x) = .ok φ ∧ φ.connectives = 0 := by
    intro x hx
    obtain ⟨l, hl⟩ := h x hx
    exact ⟨.literal l, Outcome.map_eq_ok.mpr ⟨l, hl, rfl⟩, rfl⟩
  obtain ⟨φs, hφs, hcount⟩ := Outcome.exists_mapM_of_forall hliteral
  refine ⟨.and φs, Outcome.map_eq_ok.mpr ⟨φs, hφs, rfl⟩, ?_⟩
  rw [Formula.connectives, Formula.connectivesAll_eq_sum hcount]
  simp

variable {table : DerivationTable} {f t : Nat} {w : Window} {p : Nat × DerivedLevel}
  {drv : Derivation}

/-- The definition of a level in a trial is an equivalence with a disjunction over the
combinations. -/
theorem Listed.exists_definition (hb : b.WellFormed) (hr : b.InRange)
    (hp : b.Listed table f w p drv) (happ : b.applies f t = true) :
    ∃ φ, b.derivedDefinition drv t = .ok (some φ) ∧
      φ.connectives = drv.combinations.length + 2 := by
  obtain ⟨hf, ht, _⟩ := hb.applies_iff.mp happ
  have hlt := lt_of_mem_derivedLevels hp.mem
  have hindex := hp.derives.level_eq
  have hread := forall_variableAt_of_derives hb (P := fun v => ∃ l, Literal.positive v = .ok l)
    (fun u hu d hd => hr.exists_positive hu hd) hp.window hp.mem happ hp.derives
  obtain ⟨φs, hφs, hcount⟩ := Outcome.exists_mapM_of_forall fun ds hds =>
    exists_combinationFormula (hread ds hds)
  have hbody : b.derivedFormula drv t = .ok (some (.or φs)) := by
    rw [hp.derives.derivedFormula_eq hb hp.window hp.mem, if_pos happ]
    exact Outcome.map_eq_ok.mpr ⟨φs, hφs, rfl⟩
  obtain ⟨own, hown⟩ := hr.exists_positive ht (hb.dataIndex_lt hf hlt)
  have hown' : Formula.ofVar (b.variableAt t drv.level) = .ok (.literal own) :=
    Outcome.map_eq_ok.mpr ⟨own, hindex ▸ hown, rfl⟩
  refine ⟨.iff (.literal own) (.or φs), ?_, ?_⟩
  · exact Outcome.bind_eq_ok.mpr ⟨_, hbody, Outcome.bind_eq_ok.mpr ⟨_, hown', rfl⟩⟩
  · rw [Formula.connectives, Formula.connectives, Formula.connectives,
      Formula.connectivesAll_eq_sum hcount, List.map_const', List.sum_replicate_nat]
    omega

/-- The trials in which the derivation's level is defined. -/
def definedTrials (b : Block) (drv : Derivation) : List Nat :=
  match b.levelAt? drv.level with
  | none => []
  | some (f, _) => b.applyingTrials f

theorem Listed.definedTrials_eq (hb : b.WellFormed) (hp : b.Listed table f w p drv) :
    b.definedTrials drv = b.applyingTrials f := by
  rw [definedTrials, hp.derives.level_eq,
    hb.levelAt?_dataIndex (Design.lt_of_window? hp.window) (lt_of_mem_derivedLevels hp.mem)]

theorem Listed.exists_definitions (hb : b.WellFormed) (hr : b.InRange)
    (hp : b.Listed table f w p drv) :
    ∃ φs, b.definitionsOf drv = .ok φs ∧
      Formula.connectivesAll φs = (b.definedTrials drv).length * (drv.combinations.length + 2) := by
  have hf := Design.lt_of_window? hp.window
  have hlt := lt_of_mem_derivedLevels hp.mem
  have hdefinition : ∀ t ∈ b.applyingTrials f, ∃ φ?, b.derivedDefinition drv t = .ok φ? ∧
      ∃ φ, φ? = some φ ∧ φ.connectives = drv.combinations.length + 2 := by
    intro t ht
    obtain ⟨φ, hφ, hcount⟩ := hp.exists_definition hb hr (hb.mem_applyingTrials.mp ht)
    exact ⟨_, hφ, φ, rfl, hcount⟩
  obtain ⟨φs?, hφs, hall⟩ := Outcome.exists_mapM_of_forall hdefinition
  refine ⟨φs?.filterMap id, ?_, ?_⟩
  · rw [definitionsOf_eq hb hf hlt hp.derives.level_eq]
    exact Outcome.map_eq_ok.mpr ⟨φs?, hφs, rfl⟩
  · rw [hp.definedTrials_eq hb, Formula.connectivesAll_filterMap_id hall]
    simp

theorem exists_definitions (hb : b.WellFormed) (hr : b.InRange) (ht : b.Tabulated b.order table) :
    ∃ φs, b.definitions table = .ok φs ∧ Formula.connectivesAll φs = (table.toList.map fun drv =>
      (b.definedTrials drv).length * (drv.combinations.length + 2)).sum := by
  obtain ⟨φss, hφss, hcount⟩ := Outcome.exists_mapM_of_forall fun drv hdrv => by
    obtain ⟨f, w, p, hp⟩ := (ht.mem_toList hb).mp hdrv
    exact hp.exists_definitions hb hr
  exact ⟨_, Outcome.map_eq_ok.mpr ⟨φss, hφss, rfl⟩, Formula.connectivesAll_flatten hcount⟩

theorem length_product_dataIndices :
    (product (b.crossing.map b.dataIndices)).length = b.crossingSize := by
  rw [length_product, crossingSize, Design.combinations, List.map_map, List.foldr_map]
  simp [dataIndices]

theorem exists_crossingFormulas (hb : b.WellFormed) (hr : b.InRange) :
    ∃ φs, b.crossingFormulas = .ok φs ∧
      Formula.connectivesAll φs = b.crossingSize * (b.crossedTrials.length + 1) := by
  have hoccurs : ∀ c ∈ product (b.crossing.map b.dataIndices),
      ∃ φ, b.occurs b.crossedTrials c = .ok φ ∧ φ.connectives = b.crossedTrials.length + 1 := by
    intro c hc
    obtain ⟨φs, hφs, hcount⟩ := Outcome.exists_mapM_of_forall fun t ht =>
      exists_combinationFormula fun x hx =>
        hr.exists_positive (mem_crossedTrials.mp ht).1 (lt_of_mem_product_dataIndices hb hc x hx)
    refine ⟨.or φs, Outcome.map_eq_ok.mpr ⟨φs, hφs, rfl⟩, ?_⟩
    rw [Formula.connectives, Formula.connectivesAll_eq_sum hcount, Nat.add_comm]
    simp
  obtain ⟨φs, hφs, hcount⟩ := Outcome.exists_mapM_of_forall hoccurs
  refine ⟨φs, crossingFormulas_eq_mapM.trans hφs, ?_⟩
  rw [Formula.connectivesAll_eq_sum hcount, List.map_const', List.sum_replicate_nat,
    length_product_dataIndices]

/-- The crossing that is not asked for has no formulas. -/
theorem exists_crossingPart (hb : b.WellFormed) (hr : b.InRange) (full : Bool) :
    ∃ φs, b.crossingPart full = .ok φs ∧ Formula.connectivesAll φs =
      if full then b.crossingSize * (b.crossedTrials.length + 1) else 0 := by
  unfold crossingPart
  split
  · exact exists_crossingFormulas hb hr
  · exact ⟨[], rfl, rfl⟩

/-! ## Compilation -/

theorem exists_assertConstraints {cs : List Constraint} {φss : List (List Formula)}
    (hφss : cs.mapM b.requirements = .ok φss) {s : Session}
    (h : s.supply.last + Formula.connectivesAll φss.flatten ≤ maxVariable) :
    ∃ n s', b.assertConstraints s cs = .ok (n, s') ∧
      s.Draws s' (Formula.connectivesAll φss.flatten) := by
  induction Outcome.mapM_eq_ok.mp hφss generalizing s with
  | nil => exact ⟨0, s, rfl, Session.Draws.refl s⟩
  | @cons k φs cs φss hφs hrest ih =>
    rw [List.flatten_cons, Formula.connectivesAll_append] at h ⊢
    obtain ⟨s₁, hs₁, hfirst⟩ := Session.exists_assertAll (s := s) φs (by omega)
    obtain ⟨n, s', hs', hdraws⟩ := ih (Outcome.mapM_eq_ok.mpr hrest) (s := s₁)
      (by have := hfirst.last_le; omega)
    refine ⟨φs.length + n, s', ?_, hfirst.trans hdraws⟩
    exact Outcome.bind_eq_ok.mpr ⟨φs, hφs, Outcome.bind_eq_ok.mpr
      ⟨s₁, Outcome.mapError_eq_ok.mpr hs₁, Outcome.bind_eq_ok.mpr ⟨(n, s'), hs', rfl⟩⟩⟩

/-- **Compilation succeeds where there is room for one auxiliary variable per connective**, and
without sharing it draws exactly these. -/
theorem Parts.exists_compile (p : b.Parts options)
    (h : b.gridVariables + Formula.connectivesAll p.formulas ≤ maxVariable) :
    ∃ c, b.compile options = .ok c ∧
      (options.memoize = false →
        c.varCount = b.gridVariables + Formula.connectivesAll p.formulas) := by
  let s : Session := (Session.start ⟨b.gridVariables⟩ options.memoize).addClauses p.layout
  have hstart : s.supply.last = b.gridVariables ∧ s.memoize = options.memoize := by
    simp only [s, Session.addClauses_eq]
    exact ⟨rfl, rfl⟩
  rw [formulas, Formula.connectivesAll_append] at h ⊢
  obtain ⟨s₁, hs₁, hfirst⟩ := Session.exists_assertAll (s := s) (p.definitions ++ p.crossing)
    (by omega)
  obtain ⟨n, s₂, hs₂, hrest⟩ := exists_assertConstraints p.requirements_eq (s := s₁)
    (by have := hfirst.last_le; omega)
  refine ⟨_, Outcome.bind_eq_ok.mpr ⟨p.table, Outcome.mapError_eq_ok.mpr p.table_eq,
    Outcome.bind_eq_ok.mpr ⟨p.layout, Outcome.mapError_eq_ok.mpr p.layout_eq,
    Outcome.bind_eq_ok.mpr ⟨p.definitions, Outcome.mapError_eq_ok.mpr p.definitions_eq,
    Outcome.bind_eq_ok.mpr ⟨p.crossing, Outcome.mapError_eq_ok.mpr p.crossing_eq,
    Outcome.bind_eq_ok.mpr ⟨s₁, Outcome.mapError_eq_ok.mpr hs₁,
    Outcome.bind_eq_ok.mpr ⟨(n, s₂), hs₂, rfl⟩⟩⟩⟩⟩⟩, fun hmemoize => ?_⟩
  rw [← hstart.1, ← (hfirst.trans hrest).last_eq (hstart.2.trans hmemoize)]

/-- The connectives of the definitions and of the crossing: the auxiliary variables that a block has
before its constraints. -/
def auxiliaries (b : Block) (table : DerivationTable) : Nat :=
  (table.toList.map fun drv => (b.definedTrials drv).length * (drv.combinations.length + 2)).sum +
    b.crossingSize * (b.crossedTrials.length + 1)

/-- A block can be compiled if its trial variables and one auxiliary variable per connective are in
the range of literals. -/
theorem exists_compile (hb : b.WellFormed) (htable : b.derivationTable = .ok table)
    {φss : List (List Formula)} (hφss : b.constraints.mapM b.requirements = .ok φss)
    (options : Options)
    (hroom : b.trials * b.trialSize + (b.auxiliaries table + Formula.connectivesAll φss.flatten) ≤
      maxVariable) :
    ∃ c, b.compile options = .ok c ∧
      (options.memoize = false → options.fullCrossing = true → c.varCount =
        b.trials * b.trialSize + (b.auxiliaries table + Formula.connectivesAll φss.flatten)) := by
  have hr : b.InRange := Nat.le_trans (Nat.le_add_right _ _) hroom
  have ht := tabulated_of_derivationTable hb htable
  obtain ⟨layout, hlayout⟩ := exists_layoutClauses hb hr options.exactlyOne
  obtain ⟨definitions, hdefinitions, hdefined⟩ := exists_definitions hb hr ht
  obtain ⟨crossing, hcrossing, hcrossed⟩ := exists_crossingPart hb hr options.fullCrossing
  let p : b.Parts options :=
    ⟨table, layout, definitions, crossing, φss, htable, hlayout, hdefinitions, hcrossing, hφss⟩
  have hformulas : Formula.connectivesAll p.formulas =
      Formula.connectivesAll definitions + Formula.connectivesAll crossing +
        Formula.connectivesAll φss.flatten := by
    rw [Parts.formulas, Formula.connectivesAll_append, Formula.connectivesAll_append]
  rw [auxiliaries, ← hdefined, ← hr.uncut.gridVariables_eq] at hroom ⊢
  have hfit : b.gridVariables + Formula.connectivesAll p.formulas ≤ maxVariable := by
    split at hcrossed <;> omega
  obtain ⟨c, hc, hcount⟩ := p.exists_compile hfit
  refine ⟨c, hc, fun hmemoize hfull => ?_⟩
  rw [if_pos hfull] at hcrossed
  rw [hcount hmemoize, hformulas, hcrossed]

end Counterbalance.Block
