import Counterbalance.Block.Compilation
import Counterbalance.Proofs.Block.Sizing
import Counterbalance.Proofs.Design.Shorthand

/-! Blocks of designs whose windows are spelled out, in part or throughout. They differ from each
other in the design alone, and no derivation, clause or error of the compiler tells which one it was
made from. What tells is whether there is a block: a factor some of whose levels have their window
spelled out and others not is refused, although all of them read the same trials. -/

namespace Counterbalance.Block

/-- The block with this design in place of its own. -/
def redesign (b : Block) (d : Design) : Block := { b with design := d }

/-- Which windows the levels have themselves is not looked at. -/
theorem deriveFactor_of_window? (b : Block) (table : DerivationTable) {f : Nat} {w : Window}
    (hw : (b.design.factorAt f).window? = some w) : b.deriveFactor table f =
      (b.design.factorAt f).blankLevels.foldlM
        (fun table (l, level) => return table.insert (← b.derive table f w l level)) table := by
  rw [deriveFactor, hw, Factor.blankLevels, List.foldlM_map]
  rfl

section Redesign

variable {b : Block} {d : Design} (h : b.design.Expands d)

include h

/-! ## Levels -/

theorem dataIndices_redesign (f : Nat) : (b.redesign d).dataIndices f = b.dataIndices f := by
  rw [dataIndices, dataIndices, redesign, (h.factorAt f).size_eq]
  rfl

theorem levelName?_redesign (i : Nat) : (b.redesign d).levelName? i = b.levelName? i := by
  have hname (c : Block) : c.levelName? i =
      (c.levelAt? i).bind fun p => (c.design.factorAt p.1).levelNames[p.2]? := by
    simp only [levelName?, Factor.levelNames, List.getElem?_map, Option.map_eq_bind]
    rfl
  rw [hname, hname]
  simp only [redesign, (h.factorAt _).levelNames_eq]
  rfl

theorem domain_redesign (table : DerivationTable) (a : Nat) :
    (b.redesign d).domain table a = b.domain table a := by
  rw [domain, domain, dataIndices_redesign h, redesign, (h.factorAt a).isDerived_eq]

/-! ## Derivations -/

theorem derive_redesign {w w' : Window} (hw : w.Expands w') (table : DerivationTable) (f l : Nat)
    (level : DerivedLevel) :
    (b.redesign d).derive table f w' l level = b.derive table f w l level := by
  have haccepted : (b.redesign d).accepted level = b.accepted level := by
    funext domains
    simp only [accepted, levelName?_redesign h]
  simp only [derive, haccepted, domain_redesign h, hw.shift_eq]
  simp only [redesign, (h.factorAt f).name_eq, h.index?_eq]
  rfl

/-- The window is that of the factor's first level, however the others are spelled. -/
theorem deriveFactor_redesign (table : DerivationTable) (f : Nat) :
    (b.redesign d).deriveFactor table f = b.deriveFactor table f := by
  rcases (h.factorAt f).window?_cases with ⟨hw, hw'⟩ | ⟨w, w', hw, hw', hexpands⟩
  · simp only [deriveFactor, redesign, hw, hw']
  · rw [b.deriveFactor_of_window? table hw, (b.redesign d).deriveFactor_of_window? table hw',
      redesign, (h.factorAt f).blankLevels_eq, ← redesign]
    simp only [derive_redesign h hexpands]

theorem derivationTable_redesign : (b.redesign d).derivationTable = b.derivationTable := by
  have hfactor : (b.redesign d).deriveFactor = b.deriveFactor := by
    funext table f
    exact deriveFactor_redesign h table f
  rw [derivationTable, derivationTable, hfactor]
  rfl

theorem derivations_redesign : (b.redesign d).derivations = b.derivations := by
  rw [derivations, derivations, derivationTable_redesign h]

/-! ## Clauses -/

theorem layoutClauses_redesign (exactlyOne : Bool) :
    (b.redesign d).layoutClauses exactlyOne = b.layoutClauses exactlyOne := by
  have hcell (f : Nat) : (b.redesign d).cellClauses exactlyOne f = b.cellClauses exactlyOne f := by
    funext t
    rw [cellClauses, cellClauses, redesign, (h.factorAt f).size_eq]
    rfl
  simp only [layoutClauses, hcell]
  rw [redesign, h.length_eq]

theorem derivedFormula_redesign (drv : Derivation) (t : Nat) :
    (b.redesign d).derivedFormula drv t = b.derivedFormula drv t := by
  have hlevel : (b.redesign d).levelAt? drv.level = b.levelAt? drv.level := rfl
  rw [derivedFormula, derivedFormula, hlevel]
  cases b.levelAt? drv.level with
  | none => rfl
  | some p =>
    rcases (h.factorAt p.1).window?_cases with ⟨hw, hw'⟩ | ⟨w, w', hw, hw', hexpands⟩
    · simp only [redesign, hw, hw']
    · simp only [redesign, hw, hw', hexpands.firstTrial_eq]
      rfl

theorem definitions_redesign (table : DerivationTable) :
    (b.redesign d).definitions table = b.definitions table := by
  have hdefinition (drv : Derivation) :
      (b.redesign d).derivedDefinition drv = b.derivedDefinition drv := by
    funext t
    rw [derivedDefinition, derivedDefinition, derivedFormula_redesign h]
    rfl
  have hlevel : (b.redesign d).definitionsOf = b.definitionsOf := by
    funext drv
    rw [definitionsOf, definitionsOf, hdefinition]
    rfl
  rw [definitions, definitions, hlevel]

theorem crossingPart_redesign (full : Bool) :
    (b.redesign d).crossingPart full = b.crossingPart full := by
  have hindices : (b.redesign d).dataIndices = b.dataIndices := funext (dataIndices_redesign h)
  rw [crossingPart, crossingPart, crossingFormulas, crossingFormulas, hindices]
  rfl

theorem requirements_redesign (k : Constraint) :
    (b.redesign d).requirements k = b.requirements k := by
  cases k with
  | atMostInARow n target =>
    rw [requirements, requirements, redesign, h.findTarget_eq]
    rfl
  | exclude factor level =>
    rw [requirements, requirements, redesign, h.findLevel_eq]
    rfl

theorem assertConstraints_redesign (s : Session) (cs : List Constraint) :
    (b.redesign d).assertConstraints s cs = b.assertConstraints s cs := by
  induction cs generalizing s with
  | nil => rfl
  | cons k cs ih => simp only [assertConstraints, requirements_redesign h, ih]

/-- The compiler does not tell one spelling from the other. -/
theorem compile_redesign (options : Options) :
    (b.redesign d).compile options = b.compile options := by
  simp only [compile, derivationTable_redesign h, layoutClauses_redesign h, definitions_redesign h,
    crossingPart_redesign h, assertConstraints_redesign h]
  rfl

end Redesign

/-! ## Construction -/

variable {d d' : Design} {names : List String} {constraints : List Constraint}

theorem assemble_redesign (h : d.Expands d') (order crossing : List Nat)
    (constraints : List Constraint) (trials : Nat) (table : Applicability) :
    assemble d' order crossing constraints trials table =
      (assemble d order crossing constraints trials table).redesign d' := by
  rw [assemble, h.layout_eq]
  rfl

theorem ofTrials_redesign (h : d.Expands d') (hu : d.SpelledAlike d') (trials : Nat) :
    ofTrials d' names trials constraints = (ofTrials d names trials constraints).map
      (·.redesign d') := by
  simp only [ofTrials, h.prepare_eq hu, h.applicability_eq, h.combinations_eq, assemble_redesign h]
  split
  · rfl
  · cases d.prepare names with
    | error e => rfl
    | ok p =>
      simp only [bind, Except.bind]
      split
      · rfl
      · split <;> rfl

theorem fullyCrossed_redesign (h : d.Expands d') (hu : d.SpelledAlike d') :
    fullyCrossed d' names constraints = (fullyCrossed d names constraints).map (·.redesign d') := by
  simp only [fullyCrossed, h.prepare_eq hu, h.applicability_eq, h.combinations_eq, h.horizon_eq,
    assemble_redesign h]
  cases d.prepare names with
  | error e => rfl
  | ok p =>
    simp only [bind, Except.bind]
    split <;> rfl

/-- A design without a fault makes no block any more once the levels of a factor are not spelled
alike. -/
theorem refused_of_not_uniform (h : d.Expands d') (hd : d.fault? = none)
    (hu : ¬ ∀ f ∈ d', f.Uniform) :
    ∃ f ∈ d', ¬ f.Uniform ∧
      (∀ trials ≠ 0, ofTrials d' names trials constraints = .error (.mismatchedWindows f.name)) ∧
      fullyCrossed d' names constraints = .error (.mismatchedWindows f.name) := by
  obtain ⟨f, hf, hmixed, hfault⟩ := h.fault?_of_not_uniform hd hu
  have hprepare : d'.prepare names = .error (.mismatchedWindows f.name) := by
    rw [Design.prepare, hfault]
  refine ⟨f, hf, hmixed, fun trials hpos => ?_, ?_⟩
  · rw [ofTrials, if_neg hpos, hprepare]
    rfl
  · rw [fullyCrossed, hprepare]
    rfl

/-- **A window may be spelled out for all levels of a factor at once.** If the levels of each factor
are spelled alike before and after, or neither before nor after, both designs make the same blocks,
up to the design, and fail with the same errors. Blocks that only differ in this have the same
derivations and compile to the same clauses, however the levels are spelled. But a design without a
fault is refused as soon as the levels of some factor are not spelled alike. -/
theorem shorthands_interchangeable (h : d.Expands d') (names : List String)
    (constraints : List Constraint) :
    (d.SpelledAlike d' →
      (∀ trials, ofTrials d' names trials constraints =
        (ofTrials d names trials constraints).map (·.redesign d')) ∧
      fullyCrossed d' names constraints = (fullyCrossed d names constraints).map (·.redesign d')) ∧
    (∀ b : Block, b.design = d → (b.redesign d').derivations = b.derivations ∧
      ∀ options, (b.redesign d').compile options = b.compile options) ∧
    (d.fault? = none → (¬ ∀ f ∈ d', f.Uniform) → ∃ f ∈ d', ¬ f.Uniform ∧
      (∀ trials ≠ 0, ofTrials d' names trials constraints = .error (.mismatchedWindows f.name)) ∧
      fullyCrossed d' names constraints = .error (.mismatchedWindows f.name)) := by
  refine ⟨fun hu => ⟨ofTrials_redesign h hu, fullyCrossed_redesign h hu⟩, ?_,
    refused_of_not_uniform h⟩
  rintro b rfl
  exact ⟨derivations_redesign h, compile_redesign h⟩

/-- Repetitions of a colour, each level with a window of its own. -/
def repeatsOver (yes no : Window) : Design :=
  [⟨"color", [.simple "red", .simple "green"]⟩,
    ⟨"repeats", [.derived ⟨"yes", yes, .equal, ["color", "color"]⟩,
      .derived ⟨"no", no, .notEqual, ["color", "color"]⟩]⟩]

theorem expands_repeatsOver {yes no : Window} (hyes : Window.Expands .transition yes)
    (hno : Window.Expands .transition no) : Design.colorRepeats.Expands (repeatsOver yes no) := by
  have hcolor : Factor.Expands ⟨"color", [.simple "red", .simple "green"]⟩
      ⟨"color", [.simple "red", .simple "green"]⟩ :=
    ⟨rfl, .cons (.simple "red") (.cons (.simple "green") .nil)⟩
  exact .cons hcolor (.cons ⟨rfl, .cons (.derived ⟨rfl, hyes, rfl, rfl⟩)
    (.cons (.derived ⟨rfl, hno, rfl, rfl⟩) .nil)⟩ .nil)

/-- With both levels spelled out there is the same block, and with one of them there is none. -/
theorem shorthands_interchangeable_repeats :
    (∃ b, ofTrials .colorRepeats ["color"] 2 [] = .ok b ∧
      ofTrials (repeatsOver (.sliding 2 1) (.sliding 2 1)) ["color"] 2 [] =
        .ok (b.redesign (repeatsOver (.sliding 2 1) (.sliding 2 1))) ∧
      (b.redesign (repeatsOver (.sliding 2 1) (.sliding 2 1))).compile {} = b.compile {}) ∧
    ∃ f ∈ repeatsOver (.sliding 2 1) .transition, ¬ f.Uniform ∧
      fullyCrossed (repeatsOver (.sliding 2 1) .transition) ["color"] [] =
        .error (.mismatchedWindows f.name) := by
  have hmade : ((ofTrials .colorRepeats ["color"] 2 []).map Block.trials) = .ok 2 := by
    decide +kernel
  obtain ⟨b, hb, _⟩ := Outcome.map_eq_ok.mp hmade
  obtain ⟨hconstruct, hcompile, _⟩ :=
    shorthands_interchangeable (expands_repeatsOver .transition .transition) ["color"] []
  obtain ⟨hofTrials, _⟩ := hconstruct (.cons (by decide) (.cons (by decide) .nil))
  obtain ⟨f, hf, hmixed, _, hrefused⟩ :=
    (shorthands_interchangeable (expands_repeatsOver .transition (.refl .transition))
      ["color"] []).2.2
      (by decide) (by decide)
  refine ⟨⟨b, hb, ?_, ?_⟩, f, hf, hmixed, hrefused⟩
  · rw [hofTrials 2, hb]
    rfl
  · obtain ⟨_, _, _, _, _, _, rfl⟩ := ofTrials_eq_ok.mp hb
    exact (hcompile _ rfl).2 {}

/-- To spell out one of two levels makes the design unacceptable. -/
theorem mixed_spelling_refused :
    Design.colorRepeats.Expands (repeatsOver (.sliding 2 1) .transition) ∧
    ((fullyCrossed .colorRepeats ["color"] []).map Block.trials) = .ok 2 ∧
    ((fullyCrossed (repeatsOver (.sliding 2 1) .transition) ["color"] []).map Block.trials) =
      .error (.mismatchedWindows "repeats") :=
  ⟨expands_repeatsOver .transition (.refl .transition), by decide +kernel, by decide +kernel⟩

end Counterbalance.Block
