import Counterbalance.Proofs.Block.Diagnosis

/-! Which designs a block of a given number of trials is made of. What is required is said of
factors, names and trials alone: not in terms of the checks, which rely on each other (the window of
the first level stands for those of all, names that have been checked are looked up, and an order of
the factors is at hand). -/

namespace Counterbalance

/-- A factor in itself: different levels of one kind, and if these are derived, one window that can
read the arguments of each. -/
structure Factor.Proper (f : Factor) : Prop where
  nonempty : f.levels ≠ []
  names_nodup : f.levelNames.Nodup
  kinds : (∀ level ∈ f.levels, level.derived? = none) ∨ ∀ level ∈ f.levels, level.derived? ≠ none
  windows : ∀ p ∈ f.derivedLevels, ∀ q ∈ f.derivedLevels, p.2.window = q.2.window
  admits : ∀ p ∈ f.derivedLevels, p.2.window.Admits p.2.arguments.length

open Classical in
/-- What a design, a crossing and a number of trials must be for a block. -/
structure Design.Feasible (d : Design) (names : List String) (trials : Nat) : Prop where
  trials_pos : 0 < trials
  proper : ∀ f ∈ d, f.Proper
  names_nodup : d.names.Nodup
  named : d.Named
  acyclic : d.Acyclic
  crossing_ne : names ≠ []
  crossing_named : ∀ name ∈ names, name ∈ d.names
  /-- Every combination of crossed levels finds a trial in which all crossed factors apply. -/
  enough : ∃ crossing, d.Crosses names crossing ∧
    (crossing.map fun f => (d.factorAt f).size).prod ≤ Nat.count (d.Together crossing) trials

namespace Factor

variable {f : Factor}

/-- If one level is derived, so are all. -/
theorem Proper.exists_derived (h : f.Proper) {p : Nat × DerivedLevel} (hp : p ∈ f.derivedLevels) :
    ∀ l < f.size, ∃ level, (l, level) ∈ f.derivedLevels := by
  intro l hl
  rcases h.kinds with hsimple | hderived
  · exact absurd (hsimple _ (mem_levels_of_mem hp)) nofun
  · exact exists_mem_derivedLevels (List.getElem?_eq_getElem hl) (hderived _ (List.getElem_mem hl))

theorem Proper.fits (h : f.Proper) : f.Fits where
  nonempty := h.nonempty
  names_nodup := h.names_nodup
  simple := by
    intro hw
    refine List.eq_nil_iff_forall_not_mem.mpr fun p hp => ?_
    obtain ⟨first, hfirst⟩ := h.exists_derived hp 0 (List.length_pos_iff.mpr h.nonempty)
    rw [window?_eq_some_iff.mpr ⟨first, hfirst, rfl⟩] at hw
    cases hw
  derived := by
    intro w hw
    obtain ⟨first, hfirst, _⟩ := window?_eq_some_iff.mp hw
    exact h.exists_derived hfirst
  window := by
    intro w hw p hp
    obtain ⟨first, hfirst, rfl⟩ := window?_eq_some_iff.mp hw
    have hsame := h.windows p hp _ hfirst
    exact ⟨hsame, hsame ▸ h.admits p hp⟩

theorem Fits.proper (h : f.Fits) : f.Proper where
  nonempty := h.nonempty
  names_nodup := h.names_nodup
  kinds := by
    cases hw : f.window? with
    | none =>
      refine .inl fun level hlevel => ?_
      obtain ⟨l, hl⟩ := List.mem_iff_getElem?.mp hlevel
      by_contra hderived
      obtain ⟨derived, hmem⟩ := exists_mem_derivedLevels hl hderived
      rw [h.simple hw] at hmem
      cases hmem
    | some w =>
      refine .inr fun level hlevel => ?_
      obtain ⟨l, hl⟩ := List.mem_iff_getElem?.mp hlevel
      obtain ⟨derived, hmem⟩ := h.derived w hw l (List.getElem?_eq_some_iff.mp hl).1
      rw [mem_derivedLevels, hl] at hmem
      obtain rfl := Option.some.inj hmem
      exact nofun
  windows := h.uniform
  admits := by
    intro p hp
    exact (h.window _ (h.window_of_mem hp) p hp).2

end Factor

namespace Design

variable {d : Design} {names : List String} {trials : Nat}

theorem faultless_iff : d.Faultless ↔ (∀ f ∈ d, f.Proper) ∧ d.names.Nodup ∧ d.Named := by
  constructor
  · intro h
    exact ⟨fun f hf => (h.fits f hf).proper, h.names_nodup, h.named⟩
  · intro h
    obtain ⟨hproper, hnodup, hnamed⟩ := h
    exact ⟨hnodup, fun f hf => (hproper f hf).fits, hnamed⟩

theorem Crosses.ne_nil_iff {crossing : List Nat} (h : d.Crosses names crossing) :
    names ≠ [] ↔ crossing ≠ [] := by
  cases h <;> simp

theorem Crosses.named {crossing : List Nat} (h : d.Crosses names crossing) :
    ∀ name ∈ names, name ∈ d.names := by
  intro name hname
  obtain ⟨f, _, hindex⟩ := Lists.exists_right_of_mem h hname
  by_contra hnot
  rw [index?_eq_none_iff.mpr hnot] at hindex
  cases hindex

end Design

namespace Block

variable {d : Design} {names : List String} {trials : Nat} {constraints : List Constraint}

theorem feasible_of_ofTrials {b : Block} (h : ofTrials d names trials constraints = .ok b) :
    d.Feasible names trials := by
  obtain ⟨hpos, order, crossing, hprep, _, hle, _⟩ := ofTrials_eq_ok.mp h
  obtain ⟨hd, horder, hresolve⟩ := Design.prepare_eq_ok.mp hprep
  obtain ⟨hcrosses, hne⟩ := Design.resolveCrossing_eq_ok.mp hresolve
  obtain ⟨hproper, hnodup, hnamed⟩ := Design.faultless_iff.mp hd
  rw [(Design.prepared_of_prepare hprep).length_crossedTrials, Design.combinations_eq_prod] at hle
  exact {
    trials_pos := Nat.pos_of_ne_zero hpos
    proper := hproper
    names_nodup := hnodup
    named := hnamed
    acyclic := (Design.exists_dependencyOrder_iff.mp ⟨order, horder⟩).2
    crossing_ne := (Design.Crosses.ne_nil_iff hcrosses).mpr hne
    crossing_named := Design.Crosses.named hcrosses
    enough := ⟨crossing, hcrosses, hle⟩ }

theorem exists_ofTrials_of_feasible (h : d.Feasible names trials) (constraints : List Constraint) :
    ∃ b, ofTrials d names trials constraints = .ok b := by
  obtain ⟨order, horder⟩ := Design.exists_dependencyOrder_iff.mpr ⟨h.named, h.acyclic⟩
  obtain ⟨crossing, hcrosses, hle⟩ := h.enough
  have hd := Design.faultless_iff.mpr ⟨h.proper, h.names_nodup, h.named⟩
  have hresolve := Design.resolveCrossing_eq_ok.mpr ⟨hcrosses, hcrosses.ne_nil_iff.mp h.crossing_ne⟩
  have hprep := Design.prepare_eq_ok.mpr ⟨hd, horder, hresolve⟩
  have hprepared := Design.prepared_of_prepare hprep
  have hcombinations := hprepared.combinations_pos
  rw [← hprepared.length_crossedTrials, ← Design.combinations_eq_prod] at hle
  exact ⟨_, ofTrials_eq_ok.mpr
    ⟨Nat.ne_of_gt h.trials_pos, order, crossing, hprep, by omega, hle, rfl⟩⟩

/-- **Blocks are made of exactly the well-formed and feasible designs**, and where one is refused,
what the error says is true of the design, the crossing and the number of trials. -/
theorem accepts_feasible (d : Design) (names : List String) (trials : Nat)
    (constraints : List Constraint) :
    ((∃ b, ofTrials d names trials constraints = .ok b) ↔ d.Feasible names trials) ∧
    ∀ e, ofTrials d names trials constraints = .error e → e.Describes d names trials := by
  refine ⟨⟨fun h => ?_, fun h => exists_ofTrials_of_feasible h constraints⟩,
    fun _ => describes_of_ofTrials⟩
  obtain ⟨b, hb⟩ := h
  exact feasible_of_ofTrials hb

/-- The first of five trials has no repetition to show, so that four trials are one too few; and two
factors that are derived from each other cannot be laid out at all. -/
theorem accepts_feasible_repeats :
    Design.colorRepeats.Feasible ["color", "repeats"] 5 ∧
    ¬ Design.colorRepeats.Feasible ["color", "repeats"] 4 ∧
    (DesignError.tooFewTrials 4 3).Describes .colorRepeats ["color", "repeats"] 4 ∧
    (DesignError.cyclicDependency ["a", "b", "a"]).Describes .tangled ["color"] 2 := by
  have hfive : ((ofTrials .colorRepeats ["color", "repeats"] 5 []).map Block.trials) = .ok 5 := by
    decide +kernel
  have hfour : ((ofTrials .colorRepeats ["color", "repeats"] 4 []).map Block.trials) =
      .error (.tooFewTrials 4 3) := by
    decide +kernel
  have hcycle : ((ofTrials .tangled ["color"] 2 []).map Block.trials) =
      .error (.cyclicDependency ["a", "b", "a"]) := by
    decide +kernel
  obtain ⟨b, hb, _⟩ := Outcome.map_eq_ok.mp hfive
  have hrefused := Outcome.map_eq_error.mp hfour
  refine ⟨(accepts_feasible _ _ _ _).1.mp ⟨b, hb⟩,
    fun h => ?_, (accepts_feasible _ _ _ _).2 _ hrefused,
    (accepts_feasible _ _ _ _).2 _ (Outcome.map_eq_error.mp hcycle)⟩
  obtain ⟨b', hb'⟩ := (accepts_feasible _ _ _ []).1.mpr h
  rw [hrefused] at hb'
  cases hb'

end Block

end Counterbalance
