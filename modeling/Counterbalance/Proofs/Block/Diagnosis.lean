import Counterbalance.Proofs.Block.Sizing
import Counterbalance.Proofs.Design.Sorting

/-! What the errors say, and that it is true. An error names what is wrong with the design, the
crossing or the number of trials; whichever check of a block comes first to reject its input, the
names and numbers that its error carries show the violation. -/

namespace Counterbalance

/-- The window cannot read this number of arguments, for the reason that the fault gives. -/
def WindowFault.Describes (w : Window) (arguments : Nat) : WindowFault → Prop
  | .zeroWidth => w.width = 0
  | .zeroStride => w.stride = 0
  | .noArguments => arguments = 0
  | .argumentCount width found => width = w.width ∧ found = arguments ∧ 1 < width ∧ found ≠ width

/-- The crossing names these factors. -/
def Design.Crosses (d : Design) (names : List String) (crossing : List Nat) : Prop :=
  List.Forall₂ (fun name f => d.index? name = some f) names crossing

open Classical in
/-- What is wrong where a block of a design, a crossing and a number of trials is refused with this
error. -/
def DesignError.Describes (d : Design) (names : List String) (trials : Nat) : DesignError → Prop
  | .emptyFactor factor => ∃ f ∈ d, f.name = factor ∧ f.levels = []
  | .duplicateFactor factor => 2 ≤ d.names.count factor
  | .duplicateLevel factor level => ∃ f ∈ d, f.name = factor ∧ 2 ≤ f.levelNames.count level
  | .mixedLevels factor => ∃ f ∈ d, f.name = factor ∧
      (∃ level ∈ f.levels, level.derived? = none) ∧ ∃ level ∈ f.levels, level.derived? ≠ none
  | .mismatchedWindows factor => ∃ f ∈ d, f.name = factor ∧
      ∃ p ∈ f.derivedLevels, ∃ q ∈ f.derivedLevels, p.2.window ≠ q.2.window
  | .invalidWindow factor level fault => ∃ f ∈ d, f.name = factor ∧
      ∃ p ∈ f.derivedLevels, p.2.name = level ∧ fault.Describes p.2.window p.2.arguments.length
  | .unknownArgument factor level argument => ∃ f ∈ d, f.name = factor ∧
      ∃ p ∈ f.derivedLevels, p.2.name = level ∧ argument ∈ p.2.arguments ∧ argument ∉ d.names
  | .arityMismatch factor level expected found => ∃ f ∈ d, f.name = factor ∧
      ∃ p ∈ f.derivedLevels, p.2.name = level ∧ p.2.predicate.arity = expected ∧
        p.2.arguments.length = found ∧ expected ≠ found
  | .cyclicDependency factors =>
      ∃ cycle, factors = cycle.map (fun f => (d.factorAt f).name) ∧ d.Cycle cycle
  | .unknownCrossing factor => factor ∈ names ∧ factor ∉ d.names
  | .emptyCrossing => names = []
  | .noTrials => trials = 0
  | .crossingNeverApplies => ∃ crossing, d.Crosses names crossing ∧
      ∀ t < trials, ¬ d.Together crossing t
  | .tooFewTrials combinations available => ∃ crossing, d.Crosses names crossing ∧
      combinations = (crossing.map fun f => (d.factorAt f).size).prod ∧
      available = Nat.count (d.Together crossing) trials ∧ available < combinations

/-! ## Faults of windows and factors -/

theorem Window.describes_of_fault? {w : Window} {n : Nat} {fault : WindowFault}
    (h : w.fault? n = some fault) : fault.Describes w n := by
  unfold Window.fault? at h
  split at h
  · cases h
    assumption
  split at h
  · cases h
    assumption
  split at h
  · cases h
    assumption
  split at h
  · rename_i hcount
    cases h
    exact ⟨rfl, rfl, hcount.1, hcount.2⟩
  · cases h

/-- A name that is found is among those seen before, or comes twice. -/
theorem two_le_count_of_firstRepeat? {seen names : List String} {name : String}
    (h : firstRepeat? seen names = some name) :
    name ∈ names ∧ (name ∈ seen ∨ 2 ≤ names.count name) := by
  induction names generalizing seen with
  | nil => cases h
  | cons first rest ih =>
    simp only [firstRepeat?] at h
    split at h
    · rename_i hseen
      obtain rfl := Option.some.inj h
      exact ⟨List.mem_cons_self, .inl hseen⟩
    · obtain ⟨hmem, hcases⟩ := ih h
      refine ⟨List.mem_cons_of_mem first hmem, ?_⟩
      rcases hcases with hseen | hcount
      · rcases List.mem_cons.mp hseen with rfl | hseen
        · have hpos := List.count_pos_iff.mpr hmem
          exact .inr (by rw [List.count_cons_self]; omega)
        · exact .inl hseen
      · exact .inr (Nat.le_trans hcount List.count_le_count_cons)

namespace Factor

variable {f : Factor}

/-- Where not all levels are derived, one is simple. -/
theorem exists_simple (h : f.derivedLevels.length ≠ f.size) :
    ∃ level ∈ f.levels, level.derived? = none := by
  by_contra hall
  push Not at hall
  exact h (length_derivedLevels_eq_size.mpr fun l hl =>
    exists_mem_derivedLevels (List.getElem?_eq_getElem hl) (hall _ (List.getElem_mem hl)))

theorem exists_derived (h : f.derivedLevels.length ≠ 0) :
    ∃ level ∈ f.levels, level.derived? ≠ none := by
  obtain ⟨p, hp⟩ := List.exists_mem_of_length_pos (Nat.pos_of_ne_zero h)
  exact ⟨_, mem_levels_of_mem hp, by simp [Level.derived?]⟩

end Factor

namespace Design

variable {d : Design} {names : List String} {trials : Nat} {f : Factor} {e : DesignError}

theorem describes_of_windowFault? (hf : f ∈ d) (h : f.windowFault? = some e) :
    e.Describes d names trials := by
  rcases Factor.windowFault?_cases h with ⟨rfl, hmixed⟩ | ⟨p, hp, fault, rfl, hfault⟩
  · simp only [Factor.Uniform] at hmixed
    push Not at hmixed
    exact ⟨f, hf, rfl, hmixed⟩
  · exact ⟨f, hf, rfl, p, hp, rfl, Window.describes_of_fault? hfault⟩

/-- The fault of a factor that comes after those of `front`. -/
theorem describes_of_factor {front rest : Design} (hd : d = front ++ f :: rest)
    (h : f.fault? front.names = some e) : e.Describes d names trials := by
  have hf : f ∈ d := by simp [hd]
  rcases Factor.fault?_cases h
    with ⟨rfl, hempty⟩ | ⟨rfl, hmem⟩ | ⟨level, rfl, hrepeat⟩ | ⟨rfl, hmixed⟩ | hwindow
  · exact ⟨f, hf, rfl, hempty⟩
  · show 2 ≤ d.names.count f.name
    have hpos := List.count_pos_iff.mpr hmem
    have hnames : d.names = front.names ++ f.name :: Design.names rest := by
      rw [hd, Design.names, List.map_append, List.map_cons]
      rfl
    rw [hnames, List.count_append, List.count_cons_self]
    omega
  · exact ⟨f, hf, rfl, (two_le_count_of_firstRepeat? hrepeat).2.resolve_left List.not_mem_nil⟩
  · exact ⟨f, hf, rfl, Factor.exists_simple hmixed.2, Factor.exists_derived hmixed.1⟩
  · exact describes_of_windowFault? hf hwindow

theorem describes_of_fault? (h : d.fault? = some e) : e.Describes d names trials := by
  rcases fault?_cases h with ⟨front, f, rest, hd, hf⟩ | ⟨f, hf, p, hp, argument, ha, hunknown, rfl⟩
  · exact describes_of_factor hd hf
  · exact ⟨f, hf, rfl, p, hp, rfl, ha, hunknown⟩

/-! ## Dependencies and crossings -/

theorem Raised.describes (h : d.Raised e) : e.Describes d names trials := by
  cases h with
  | cycle hreached _ hfree =>
    obtain ⟨i, hi⟩ := hreached.exists_idxOf? hfree
    exact ⟨_, by rw [cycleNames, hi, Option.getD_some], hreached.trail.cycle hi⟩
  | unknown hp hnone =>
    obtain ⟨l, level, hl, ha, hname⟩ := mem_argumentNames.mp hp
    exact ⟨_, factorAt_mem (lt_of_derivedLevel hl), rfl, _, hl, hname.symm, ha,
      index?_eq_none_iff.mp hnone⟩

theorem describes_of_resolveCrossing (h : d.resolveCrossing names = .error e) :
    e.Describes d names trials := by
  rcases Outcome.bind_eq_error.mp h with h | ⟨crossing, hcrossing, h⟩
  · obtain ⟨name, hname, h⟩ := Outcome.exists_error_of_mapM h
    split at h
    · cases h
    · rename_i hnone
      cases h
      exact ⟨hname, index?_eq_none_iff.mp hnone⟩
  · split at h
    · rename_i hnil
      cases h
      have hlength := (Outcome.mapM_eq_ok.mp hcrossing).length_eq
      rw [hnil] at hlength
      exact List.length_eq_zero_iff.mp hlength
    · cases h

theorem describes_of_prepare (h : d.prepare names = .error e) : e.Describes d names trials := by
  rw [prepare] at h
  split at h
  · rename_i e' he
    exact Except.error.inj h ▸ describes_of_fault? he
  · rcases Outcome.bind_eq_error.mp h with h | ⟨order, _, h⟩
    · exact (raised_of_dependencyOrder h).describes
    · rcases Outcome.bind_eq_error.mp h with h | ⟨crossing, _, h⟩
      · exact describes_of_resolveCrossing h
      · cases h

/-! ## Trials -/

theorem combinations_eq_prod (d : Design) (crossing : List Nat) :
    d.combinations crossing = (crossing.map fun f => (d.factorAt f).size).prod := by
  rw [combinations, List.prod, List.foldr_map]

open Classical in
theorem Prepared.length_crossedTrials {order crossing : List Nat} (h : d.Prepared order crossing)
    (trials : Nat) : ((d.applicability order trials).crossedTrials crossing trials).length =
      Nat.count (d.Together crossing) trials := by
  rw [h.crossedTrials_eq_filter, Lists.length_filter_range]

end Design

/-- **What an error says is true.** -/
theorem Block.describes_of_ofTrials {d : Design} {names : List String} {trials : Nat}
    {constraints : List Constraint} {e : DesignError}
    (h : ofTrials d names trials constraints = .error e) : e.Describes d names trials := by
  unfold ofTrials at h
  split at h
  · rename_i hzero
    cases h
    exact hzero
  rcases Outcome.bind_eq_error.mp h with h | ⟨⟨order, crossing⟩, hprep, h⟩
  · exact Design.describes_of_prepare h
  have hd := Design.prepared_of_prepare hprep
  have hcrosses := (Design.resolveCrossing_eq_ok.mp (Design.prepare_eq_ok.mp hprep).2.2).1
  simp only at h
  split at h
  · rename_i hnone
    cases h
    refine ⟨crossing, hcrosses, fun t ht htogether => ?_⟩
    have hmem := hd.mem_crossedTrials.mpr ⟨ht, htogether⟩
    rw [List.length_eq_zero_iff.mp hnone] at hmem
    cases hmem
  · split at h
    · rename_i hfew
      cases h
      rw [hd.length_crossedTrials, Design.combinations_eq_prod] at *
      exact ⟨crossing, hcrosses, rfl, rfl, hfew⟩
    · cases h

end Counterbalance
