import Counterbalance.Proofs.Block.Capacity
import Counterbalance.Proofs.Block.Models

/-! Runs of the compiler compared. A run is described by the assignments of the trial variables that
extend to a model of its clauses. Which these are depends on the demands of the run alone: not on
how auxiliary variables are shared, not on the order of the constraints, and each further demand can
only remove some. -/

namespace Counterbalance

/-- The truth assignments of the first `n` variables that extend to a model. -/
def Compilation.solutions (c : Compilation) (n : Nat) : Set (Nat → Bool) :=
  { g | ∃ ν : Nat → Bool, (∀ v, 0 < v → v ≤ n → ν v = g v) ∧ c.IsModel ν }

/-- The formulas can be written down, and hold. -/
def Affirms {ε : Type} (φs? : Except ε (List Formula)) (g : Nat → Bool) : Prop :=
  ∃ φs, φs? = .ok φs ∧ ∀ φ ∈ φs, φ.eval g = true

theorem affirms_ok {ε : Type} {φs? : Except ε (List Formula)} {φs : List Formula} (h : φs? = .ok φs)
    {g : Nat → Bool} : Affirms φs? g ↔ ∀ φ ∈ φs, φ.eval g = true := by
  subst h
  simp [Affirms]

namespace Block

variable {b : Block} {options : Options} {cs : List Constraint} {S : Set (Nat → Bool)}

/-- The block with these constraints in place of its own. -/
def constrain (b : Block) (cs : List Constraint) : Block := { b with constraints := cs }

/-- The truth assignments of the trial variables that a run with these options and constraints
leaves. -/
def solutions (b : Block) (options : Options) (cs : List Constraint) :
    Except BlockError (Set (Nat → Bool)) :=
  ((b.constrain cs).compile options).map fun c => c.solutions b.gridVariables

/-! ## Constraints of blocks -/

theorem WellFormed.constrain (hb : b.WellFormed) (cs : List Constraint) :
    (b.constrain cs).WellFormed :=
  { hb with }

/-- A block is accepted whatever its constraints. -/
theorem ofTrials_constrain {d : Design} {names : List String} {trials : Nat}
    (hb : ofTrials d names trials cs = .ok b) (cs' : List Constraint) :
    ofTrials d names trials cs' = .ok (b.constrain cs') := by
  obtain ⟨hpos, order, crossing, hprep, hany, hfew, rfl⟩ := ofTrials_eq_ok.mp hb
  exact ofTrials_eq_ok.mpr ⟨hpos, order, crossing, hprep, hany, hfew, rfl⟩

theorem requirements_constrain (b : Block) (cs : List Constraint) :
    (b.constrain cs).requirements = b.requirements := rfl

/-! ## Demands of runs -/

/-- The assignment meets the demands of every run with these options and constraints. -/
structure Meets (b : Block) (options : Options) (cs : List Constraint) (g : Nat → Bool) : Prop where
  layout : ∃ ds, b.layoutClauses options.exactlyOne = .ok ds ∧ Holds g ds
  definitions : ∃ table, b.derivationTable = .ok table ∧ Affirms (b.definitions table) g
  crossing : Affirms (b.crossingPart options.fullCrossing) g
  constraints : ∀ k ∈ cs, Affirms (b.requirements k) g

theorem forall_mem_flatten_iff_affirms {φss : List (List Formula)}
    (h : cs.mapM b.requirements = .ok φss) {g : Nat → Bool} :
    (∀ φ ∈ φss.flatten, φ.eval g = true) ↔ ∀ k ∈ cs, Affirms (b.requirements k) g := by
  induction Outcome.mapM_eq_ok.mp h with
  | nil => simp
  | cons hφs hrest ih =>
    rw [List.flatten_cons, List.forall_mem_append, ih (Outcome.mapM_eq_ok.mpr hrest),
      List.forall_mem_cons, affirms_ok hφs]

/-- What a run leaves are the assignments that meet its demands. -/
theorem eq_meets_of_solutions (hb : b.WellFormed) (hr : b.InRange)
    (h : b.solutions options cs = .ok S) :
    S = { g | b.Meets options cs g } ∧ Nonempty ((b.constrain cs).Parts options) := by
  obtain ⟨c, hc, rfl⟩ := Outcome.map_eq_ok.mp h
  obtain ⟨p, hp⟩ := exists_describes (hb.constrain cs) hr hc
  refine ⟨Set.ext fun g => (hp.extends_iff g).trans ?_, ⟨p⟩⟩
  have hrequired := forall_mem_flatten_iff_affirms (b := b) p.requirements_eq (g := g)
  rw [p.demands_iff, Parts.formulas, List.forall_mem_append, List.forall_mem_append, hrequired]
  constructor
  · intro h
    obtain ⟨hlayout, ⟨hdefinitions, hcrossing⟩, hconstraints⟩ := h
    exact ⟨⟨_, p.layout_eq, hlayout⟩,
      ⟨_, p.table_eq, (affirms_ok p.definitions_eq).mpr hdefinitions⟩,
      (affirms_ok p.crossing_eq).mpr hcrossing, hconstraints⟩
  · intro h
    obtain ⟨⟨ds, hds, hlayout⟩, ⟨table, htable, hdefinitions⟩, hcrossing, hconstraints⟩ := h
    obtain rfl := Except.ok.inj (p.layout_eq.symm.trans hds)
    obtain rfl := Except.ok.inj (p.table_eq.symm.trans htable)
    exact ⟨hlayout,
      ⟨(affirms_ok p.definitions_eq).mp hdefinitions, (affirms_ok p.crossing_eq).mp hcrossing⟩,
      hconstraints⟩

/-- There is room for the trial variables and one auxiliary variable per connective. -/
def fits (b : Block) (cs : List Constraint) : Bool :=
  b.derivationTable.toOption.any fun table => (cs.mapM b.requirements).toOption.any fun φss =>
    b.trials * b.trialSize + (b.auxiliaries table + Formula.connectivesAll φss.flatten) ≤
      maxVariable

theorem exists_solutions (hb : b.WellFormed) (h : b.fits cs = true) (options : Options) :
    b.InRange ∧ ∃ S, b.solutions options cs = .ok S := by
  obtain ⟨table, htable, h⟩ := (Option.any_eq_true _ _).mp h
  obtain ⟨φss, hφss, h⟩ := (Option.any_eq_true _ _).mp h
  rw [Outcome.toOption_eq_some] at htable hφss
  have hroom := of_decide_eq_true h
  obtain ⟨c, hc, _⟩ := exists_compile (hb.constrain cs) htable hφss options hroom
  exact ⟨Nat.le_trans (Nat.le_add_right _ _) hroom, _, Outcome.map_eq_ok.mpr ⟨c, hc, rfl⟩⟩

/-! ## Comparing runs -/

theorem meets_append {k : Constraint} {g : Nat → Bool} :
    b.Meets options (cs ++ [k]) g ↔ b.Meets options cs g ∧ Affirms (b.requirements k) g := by
  have hsplit : (∀ k' ∈ cs ++ [k], Affirms (b.requirements k') g) ↔
      (∀ k' ∈ cs, Affirms (b.requirements k') g) ∧ Affirms (b.requirements k) g := by
    rw [List.forall_mem_append, List.forall_mem_singleton]
  constructor
  · intro h
    obtain ⟨hall, hk⟩ := hsplit.mp h.constraints
    exact ⟨⟨h.layout, h.definitions, h.crossing, hall⟩, hk⟩
  · intro h
    obtain ⟨h, hk⟩ := h
    exact ⟨h.layout, h.definitions, h.crossing, hsplit.mpr ⟨h.constraints, hk⟩⟩

/-- Cells that may hold any number of levels have fewer clauses. -/
theorem layoutClauses_subset {exactlyOne : Bool} {ds ds' : List Clause}
    (h : b.layoutClauses exactlyOne = .ok ds) (h' : b.layoutClauses false = .ok ds') :
    ds' ⊆ ds := by
  have hmem := (layoutClauses_eq_ok h).2
  intro c hc
  obtain ⟨f, hf, t, ht, es, hes, hc⟩ := ((layoutClauses_eq_ok h').2 c).mp hc
  refine (hmem c).mpr ⟨f, hf, t, ht, es, ?_, hc⟩
  rw [cellClauses_eq, Bool.not_false, Bool.and_true] at hes
  split at hes
  · obtain rfl := Except.ok.inj hes
    cases hc
  · rename_i happ
    rw [Bool.not_eq_true] at happ
    rw [cellClauses_eq, happ, Bool.false_and, if_neg Bool.false_ne_true, hes]

theorem Meets.of_exactlyOne_off {g : Nat → Bool} {ds : List Clause} (h : b.Meets options cs g)
    (hds : b.layoutClauses false = .ok ds) : b.Meets { options with exactlyOne := false } cs g := by
  obtain ⟨ds', hds', hholds⟩ := h.layout
  have hsub := layoutClauses_subset hds' hds
  exact ⟨⟨ds, hds, fun c hc => hholds c (hsub hc)⟩, h.definitions, h.crossing, h.constraints⟩

theorem Meets.of_fullCrossing_off {g : Nat → Bool} (h : b.Meets options cs g) :
    b.Meets { options with fullCrossing := false } cs g :=
  ⟨h.layout, h.definitions, (affirms_ok rfl).mpr (by simp), h.constraints⟩

/-- **Runs compared.** The assignments of the trial variables that extend to a model are the same
however auxiliary variables are shared and the constraints are ordered or repeated; a further
constraint keeps those under which its formulas hold; and options that are switched off remove
none. -/
theorem solutions_of_runs {d : Design} {names : List String} {trials : Nat}
    (hb : ofTrials d names trials cs = .ok b) (hr : b.InRange)
    (hS : b.solutions options cs = .ok S) :
    (∀ cs', ofTrials d names trials cs' = .ok (b.constrain cs')) ∧
    (∀ memoize cs' S', (∀ k, k ∈ cs' ↔ k ∈ cs) →
      b.solutions { options with memoize } cs' = .ok S' → S' = S) ∧
    (∀ k S', b.solutions options (cs ++ [k]) = .ok S' →
      ∃ φs, b.requirements k = .ok φs ∧ S' = S ∩ { g | ∀ φ ∈ φs, φ.eval g = true }) ∧
    (∀ S', b.solutions { options with exactlyOne := false } cs = .ok S' → S ⊆ S') ∧
    (∀ S', b.solutions { options with fullCrossing := false } cs = .ok S' → S ⊆ S') := by
  have hwf := Accepted.wellFormed ⟨d, names, cs, .inl ⟨trials, hb⟩⟩
  obtain ⟨rfl, _⟩ := eq_meets_of_solutions hwf hr hS
  refine ⟨ofTrials_constrain hb, fun memoize cs' S' hsame hS' => ?_,
    fun k S' hS' => ?_, fun S' hS' => ?_, fun S' hS' => ?_⟩
  · obtain ⟨rfl, _⟩ := eq_meets_of_solutions hwf hr hS'
    refine Set.ext fun g => ⟨fun h => ?_, fun h => ?_⟩
    · exact ⟨h.layout, h.definitions, h.crossing, fun k hk => h.constraints k ((hsame k).mpr hk)⟩
    · exact ⟨h.layout, h.definitions, h.crossing, fun k hk => h.constraints k ((hsame k).mp hk)⟩
  · obtain ⟨rfl, ⟨p⟩⟩ := eq_meets_of_solutions hwf hr hS'
    have hall := List.mem_append_right cs (List.mem_singleton_self k)
    obtain ⟨φs, hφs⟩ := Outcome.exists_ok_of_mapM p.requirements_eq hall
    rw [requirements_constrain] at hφs
    refine ⟨φs, hφs, Set.ext fun g => meets_append.trans ?_⟩
    rw [affirms_ok hφs]
    rfl
  · obtain ⟨rfl, ⟨p⟩⟩ := eq_meets_of_solutions hwf hr hS'
    exact fun g h => h.of_exactlyOne_off p.layout_eq
  · obtain ⟨rfl, _⟩ := eq_meets_of_solutions hwf hr hS'
    exact fun g h => h.of_fullCrossing_off

/-- No colour twice in a row, said twice to a compiler that shares auxiliary variables, or together
with the exclusion of repetitions. -/
theorem solutions_of_runs_colors :
    ∃ b S S₁ S₂ φs, ofTrials .colorRepeats ["color"] 2 [.atMostInARow 1 (.factor "color")] = .ok b ∧
      b.solutions {} [.atMostInARow 1 (.factor "color")] = .ok S ∧
      b.solutions { memoize := true }
        [.atMostInARow 1 (.factor "color"), .atMostInARow 1 (.factor "color")] = .ok S ∧
      b.requirements (.exclude "repeats" "yes") = .ok φs ∧
      b.solutions {} [.atMostInARow 1 (.factor "color"), .exclude "repeats" "yes"] =
        .ok (S ∩ { g | ∀ φ ∈ φs, φ.eval g = true }) ∧
      b.solutions { exactlyOne := false } [.atMostInARow 1 (.factor "color")] = .ok S₁ ∧ S ⊆ S₁ ∧
      b.solutions { fullCrossing := false } [.atMostInARow 1 (.factor "color")] = .ok S₂ ∧
      S ⊆ S₂ := by
  have hfits :
      ((ofTrials .colorRepeats ["color"] 2 [.atMostInARow 1 (.factor "color")]).toOption.map
        fun b =>
      (b.fits [.atMostInARow 1 (.factor "color")],
        b.fits [.atMostInARow 1 (.factor "color"), .atMostInARow 1 (.factor "color")],
        b.fits [.atMostInARow 1 (.factor "color"), .exclude "repeats" "yes"])) =
      some (true, true, true) := by
    decide +kernel
  obtain ⟨b, hb, hfits⟩ := Option.map_eq_some_iff.mp hfits
  rw [Outcome.toOption_eq_some] at hb
  simp only [Prod.mk.injEq] at hfits
  obtain ⟨hone, htwo, hboth⟩ := hfits
  have hwf := Accepted.wellFormed ⟨_, _, _, .inl ⟨_, hb⟩⟩
  obtain ⟨hr, S, hS⟩ := exists_solutions hwf hone {}
  obtain ⟨_, hshared, happended, hexactlyOne, hfullCrossing⟩ := solutions_of_runs hb hr hS
  obtain ⟨_, S', hS'⟩ := exists_solutions hwf htwo { memoize := true }
  obtain rfl := hshared true _ S' (by simp) hS'
  obtain ⟨_, S'', hS''⟩ := exists_solutions hwf hboth {}
  obtain ⟨φs, hφs, rfl⟩ := happended (.exclude "repeats" "yes") S'' hS''
  obtain ⟨_, S₁, hS₁⟩ := exists_solutions hwf hone { exactlyOne := false }
  obtain ⟨_, S₂, hS₂⟩ := exists_solutions hwf hone { fullCrossing := false }
  exact ⟨b, S', S₁, S₂, φs, hb, hS, hS', hφs, hS'', hS₁, hexactlyOne S₁ hS₁, hS₂,
    hfullCrossing S₂ hS₂⟩

end Block

end Counterbalance
