import Mathlib.Data.List.Forall2
import Counterbalance.Block.Requirement
import Counterbalance.Proofs.Design.Faultless
import Counterbalance.Proofs.Design.Order

/-! Windows spelled out. A window within a trial and a transition are short for windows of one and
of two consecutive trials, and are told from these nowhere but in the check that the levels of a
factor share one window. Designs in which some levels have their windows spelled out have the same
faults except for that one, the same order of factors and the same trials in which factors apply. -/

namespace Counterbalance

/-! ## Windows -/

/-- The second window is the first one, or what this one is short for. -/
inductive Window.Expands : Window → Window → Prop
  | refl (w : Window) : Expands w w
  | withinTrial : Expands .withinTrial (.sliding 1 1)
  | transition : Expands .transition (.sliding 2 1)

namespace Window.Expands

variable {w w' : Window}

theorem width_eq (h : w.Expands w') : w'.width = w.width := by
  cases h <;> rfl

theorem stride_eq (h : w.Expands w') : w'.stride = w.stride := by
  cases h <;> rfl

theorem firstTrial_eq (h : w.Expands w') : w'.firstTrial = w.firstTrial := by
  rw [firstTrial, firstTrial, h.width_eq]

theorem readTrial_eq (h : w.Expands w') (t i : Nat) : w'.readTrial t i = w.readTrial t i := by
  rw [readTrial, readTrial, h.width_eq, h.firstTrial_eq]

theorem shift_eq (h : w.Expands w') (trialSize : Nat) : w'.shift trialSize = w.shift trialSize := by
  funext c
  rw [shift, shift, h.width_eq]

theorem fault?_eq (h : w.Expands w') (arguments : Nat) :
    w'.fault? arguments = w.fault? arguments := by
  rw [fault?, fault?, h.width_eq, h.stride_eq]

end Window.Expands

/-! ## Levels and factors -/

/-- The same level, with its window spelled out or not. -/
structure DerivedLevel.Expands (level level' : DerivedLevel) : Prop where
  name_eq : level'.name = level.name
  window : level.window.Expands level'.window
  predicate_eq : level'.predicate = level.predicate
  arguments_eq : level'.arguments = level.arguments

inductive Level.Expands : Level → Level → Prop
  | simple (name : String) : Expands (.simple name) (.simple name)
  | derived {level level' : DerivedLevel} (h : level.Expands level') :
      Expands (.derived level) (.derived level')

structure Factor.Expands (f f' : Factor) : Prop where
  name_eq : f'.name = f.name
  levels : List.Forall₂ Level.Expands f.levels f'.levels

/-- The level over any window, always the same. -/
def DerivedLevel.blank (level : DerivedLevel) : DerivedLevel :=
  { level with window := .withinTrial }

/-- What is left of derived levels when their windows are not looked at. What reads no windows reads
the same from these, by definition. -/
def Factor.blankLevels (f : Factor) : List (Nat × DerivedLevel) :=
  f.derivedLevels.map (Prod.map id DerivedLevel.blank)

theorem Factor.argumentNames_eq_flatMap (f : Factor) : f.argumentNames =
    f.blankLevels.flatMap fun (_, level) => level.arguments.map (level.name, ·) := by
  rw [blankLevels, List.flatMap_map]
  rfl

theorem Factor.argumentFault?_eq_findSome? (f : Factor) (names : List String) :
    f.argumentFault? names = f.blankLevels.findSome? fun (_, level) =>
      (level.arguments.find? (· ∉ names)).map (.unknownArgument f.name level.name) := by
  rw [blankLevels, List.findSome?_map]
  rfl

theorem Design.appliesAt_of_window? (d : Design) (table : Applicability) {f : Factor} {w : Window}
    (hw : f.window? = some w) (t : Nat) : d.appliesAt table f t =
      (w.firstTrial ≤ t && (t - w.firstTrial) % w.stride = 0 &&
        f.blankLevels.all fun (_, level) =>
          level.arguments.zipIdx.all fun (argument, i) =>
            match d.index? argument with
            | none => false
            | some a => table.get a (w.readTrial t i)) := by
  rw [appliesAt, hw, Factor.blankLevels, List.all_map]
  rfl

theorem DerivedLevel.Expands.blank_eq {level level' : DerivedLevel} (h : level.Expands level') :
    level'.blank = level.blank := by
  rw [blank, blank, h.name_eq, h.predicate_eq, h.arguments_eq]

theorem Level.Expands.name_eq {level level' : Level} (h : level.Expands level') :
    level'.name = level.name := by
  cases h with
  | simple => rfl
  | derived h => exact h.name_eq

theorem Level.Expands.zipIdx {levels levels' : List Level}
    (h : List.Forall₂ Level.Expands levels levels') (n : Nat) :
    List.Forall₂ (fun x x' => x.1.Expands x'.1 ∧ x'.2 = x.2) (levels.zipIdx n)
      (levels'.zipIdx n) := by
  induction h generalizing n with
  | nil => exact .nil
  | cons hl _ ih => exact .cons ⟨hl, rfl⟩ (ih (n + 1))

namespace Factor.Expands

variable {f f' : Factor}

theorem size_eq (h : f.Expands f') : f'.size = f.size := h.levels.length_eq.symm

theorem isEmpty_eq (h : f.Expands f') : f'.levels.isEmpty = f.levels.isEmpty := by
  rw [Bool.eq_iff_iff, List.isEmpty_iff_length_eq_zero, List.isEmpty_iff_length_eq_zero,
    h.levels.length_eq]

theorem levelNames_eq (h : f.Expands f') : f'.levelNames = f.levelNames := by
  have hnames : List.Forall₂ Eq f.levelNames f'.levelNames :=
    List.rel_map (fun _ _ hl => hl.name_eq.symm) h.levels
  exact (List.forall₂_eq_eq_eq ▸ hnames).symm

theorem levelIndex?_eq (h : f.Expands f') (name : String) :
    f'.levelIndex? name = f.levelIndex? name := by
  have hnames (g : Factor) : g.levelIndex? name = g.levelNames.findIdx? (· = name) := by
    rw [levelNames, List.findIdx?_map]
    rfl
  rw [hnames, hnames, h.levelNames_eq]

theorem window?_cases (h : f.Expands f') : (f.window? = none ∧ f'.window? = none) ∨
    ∃ w w', f.window? = some w ∧ f'.window? = some w' ∧ w.Expands w' := by
  obtain ⟨name, levels⟩ := f
  obtain ⟨name', levels'⟩ := f'
  cases h.levels with
  | nil => exact .inl ⟨rfl, rfl⟩
  | cons hl _ =>
    cases hl with
    | simple => exact .inl ⟨rfl, rfl⟩
    | derived hl => exact .inr ⟨_, _, rfl, rfl, hl.window⟩

theorem isDerived_eq (h : f.Expands f') : f'.isDerived = f.isDerived := by
  rw [isDerived, isDerived]
  rcases h.window?_cases with ⟨hw, hw'⟩ | ⟨w, w', hw, hw', _⟩ <;> simp [hw, hw']

theorem derivedLevels (h : f.Expands f') :
    List.Forall₂ (fun p p' => p'.1 = p.1 ∧ p.2.Expands p'.2) f.derivedLevels f'.derivedLevels := by
  refine List.rel_filterMap (fun x x' hx => ?_) (Level.Expands.zipIdx h.levels 0)
  obtain ⟨level, l⟩ := x
  obtain ⟨level', l'⟩ := x'
  obtain ⟨hl, rfl⟩ := hx
  cases hl with
  | simple => exact .none
  | derived hl => exact .some ⟨rfl, hl⟩

theorem blankLevels_eq (h : f.Expands f') : f'.blankLevels = f.blankLevels := by
  have hblank : List.Forall₂ Eq f.blankLevels f'.blankLevels :=
    List.rel_map (fun _ _ hp => Prod.ext hp.1.symm hp.2.blank_eq.symm) h.derivedLevels
  exact (List.forall₂_eq_eq_eq ▸ hblank).symm

theorem argumentNames_eq (h : f.Expands f') : f'.argumentNames = f.argumentNames := by
  rw [argumentNames_eq_flatMap, argumentNames_eq_flatMap, h.blankLevels_eq]

theorem argumentFault?_eq (h : f.Expands f') (names : List String) :
    f'.argumentFault? names = f.argumentFault? names := by
  rw [argumentFault?_eq_findSome?, argumentFault?_eq_findSome?, h.blankLevels_eq, h.name_eq]

theorem length_derivedLevels_eq (h : f.Expands f') :
    f'.derivedLevels.length = f.derivedLevels.length :=
  h.derivedLevels.length_eq.symm

end Factor.Expands

/-! ## Faults -/

namespace Factor

variable {f f' : Factor} {earlier : List String}

theorem windowFault?_of_uniform {w : Window} (hw : f.window? = some w) (hu : f.Uniform) :
    f.windowFault? = f.blankLevels.findSome? fun (_, level) =>
      (w.fault? level.arguments.length).map (.invalidWindow f.name level.name) := by
  have hany := (not_congr (any_window_ne_iff hw)).mpr (not_not.mpr hu)
  rw [windowFault?, hw, Option.bind_eq_bind, Option.bind_some, if_neg hany, blankLevels,
    List.findSome?_map]
  rfl

theorem windowFault?_of_not_uniform {w : Window} (hw : f.window? = some w) (hu : ¬ f.Uniform) :
    f.windowFault? = some (.mismatchedWindows f.name) := by
  have hany := (any_window_ne_iff hw).mpr hu
  rw [windowFault?, hw, Option.bind_eq_bind, Option.bind_some, if_pos hany]

/-- The windows have the same faults, if they are still spelled alike. -/
theorem Expands.windowFault?_eq (h : f.Expands f') (hu : f.Uniform ↔ f'.Uniform) :
    f'.windowFault? = f.windowFault? := by
  rcases h.window?_cases with ⟨hw, hw'⟩ | ⟨w, w', hw, hw', hexpands⟩
  · rw [windowFault?, windowFault?, hw, hw']
    rfl
  · by_cases huniform : f.Uniform
    · rw [windowFault?_of_uniform hw huniform, windowFault?_of_uniform hw' (hu.mp huniform),
        h.blankLevels_eq, h.name_eq]
      simp only [hexpands.fault?_eq]
    · rw [windowFault?_of_not_uniform hw huniform,
        windowFault?_of_not_uniform hw' (hu.not.mp huniform), h.name_eq]

theorem Expands.fault?_eq (h : f.Expands f') (hu : f.Uniform ↔ f'.Uniform) (earlier : List String) :
    f'.fault? earlier = f.fault? earlier := by
  rw [fault?, fault?, h.isEmpty_eq, h.name_eq, h.levelNames_eq, h.length_derivedLevels_eq,
    h.size_eq, h.windowFault?_eq hu]

/-- A factor without a fault gets one if its windows are no longer spelled alike. -/
theorem Expands.fault?_of_not_uniform (h : f.Expands f') (hf : f.fault? earlier = none)
    (hu : ¬ f'.Uniform) : f'.fault? earlier = some (.mismatchedWindows f'.name) := by
  have hwindow : ∃ w', f'.window? = some w' := by
    rcases h.window?_cases with ⟨hw, _⟩ | ⟨_, w', _, hw', _⟩
    · have hnone := h.length_derivedLevels_eq
      rw [(fault?_eq_none_iff.mp hf).2.simple hw, List.length_nil, List.length_eq_zero_iff] at hnone
      exact absurd (by simp [Uniform, hnone]) hu
    · exact ⟨w', hw'⟩
  obtain ⟨w', hw'⟩ := hwindow
  have hfault := windowFault?_of_not_uniform hw' hu
  rw [fault?] at hf ⊢
  rw [h.isEmpty_eq, h.levelNames_eq, h.length_derivedLevels_eq, h.size_eq, hfault, h.name_eq]
  split at hf
  · cases hf
  rename_i hne
  split at hf
  · cases hf
  rename_i hnew
  split at hf
  · cases hf
  split at hf
  · cases hf
  rename_i hkinds
  rw [if_neg hne, if_neg hnew]
  exact if_neg hkinds

end Factor

/-! ## Designs -/

def Design.Expands (d d' : Design) : Prop := List.Forall₂ Factor.Expands d d'

/-- The windows of each factor are spelled alike in both designs or in neither. -/
def Design.SpelledAlike (d d' : Design) : Prop :=
  List.Forall₂ (fun f f' => f.Uniform ↔ f'.Uniform) d d'

namespace Design.Expands

variable {d d' : Design}

theorem length_eq (h : d.Expands d') : d'.length = d.length := (List.Forall₂.length_eq h).symm

theorem names_eq (h : d.Expands d') : d'.names = d.names := by
  have hnames : List.Forall₂ Eq d.names d'.names := List.rel_map (fun _ _ hf => hf.name_eq.symm) h
  exact (List.forall₂_eq_eq_eq ▸ hnames).symm

theorem factorAt (h : d.Expands d') (f : Nat) : (d.factorAt f).Expands (d'.factorAt f) := by
  by_cases hf : f < d.length
  · obtain ⟨f', hf', hexpands⟩ := Lists.getElem?_right_of_forall₂ h (List.getElem?_eq_getElem hf)
    rw [Design.factorAt, Design.factorAt, List.getElem?_eq_getElem hf, hf']
    exact hexpands
  · rw [Design.factorAt, Design.factorAt, List.getElem?_eq_none (by omega),
      List.getElem?_eq_none (by rw [h.length_eq]; omega)]
    exact ⟨rfl, .nil⟩

theorem index?_eq (h : d.Expands d') (name : String) : d'.index? name = d.index? name := by
  induction h with
  | nil => rfl
  | cons hf _ ih => rw [index?, index?, ih, hf.name_eq]

theorem factorFault?_eq (h : d.Expands d') (hu : d.SpelledAlike d') (earlier : List String) :
    factorFault? earlier d' = factorFault? earlier d := by
  induction h generalizing earlier with
  | nil => rfl
  | cons hf _ ih =>
    cases hu with
    | cons huf hu => rw [factorFault?, factorFault?, hf.fault?_eq huf, hf.name_eq, ih hu]

theorem argumentFaults_eq (h : d.Expands d') (names : List String) :
    d'.findSome? (Factor.argumentFault? names) = d.findSome? (Factor.argumentFault? names) := by
  induction h with
  | nil => rfl
  | cons hf _ ih => rw [List.findSome?_cons, List.findSome?_cons, hf.argumentFault?_eq, ih]

theorem fault?_eq (h : d.Expands d') (hu : d.SpelledAlike d') : d'.fault? = d.fault? := by
  rw [fault?, fault?, h.factorFault?_eq hu, h.names_eq, h.argumentFaults_eq]

/-- A design without a fault gets one if the levels of some factor are no longer spelled alike. -/
theorem factorFault?_of_not_uniform (h : d.Expands d') {earlier : List String}
    (hd : factorFault? earlier d = none) (hu : ¬ ∀ f ∈ d', f.Uniform) :
    ∃ f ∈ d', ¬ f.Uniform ∧ factorFault? earlier d' = some (.mismatchedWindows f.name) := by
  induction h generalizing earlier with
  | nil => simp at hu
  | @cons f f' d d' hf _ ih =>
    rw [factorFault?, Option.or_eq_none_iff] at hd
    obtain ⟨hfault, hrest⟩ := hd
    by_cases huf : f'.Uniform
    · have huniform := (Factor.fault?_eq_none_iff.mp hfault).2.uniform
      rw [List.forall_mem_cons, and_iff_right huf] at hu
      obtain ⟨g, hg, hmixed, hfound⟩ := ih hrest hu
      refine ⟨g, List.mem_cons_of_mem _ hg, hmixed, ?_⟩
      rw [factorFault?, hf.fault?_eq (iff_of_true huniform huf), hfault, Option.none_or,
        hf.name_eq, hfound]
    · refine ⟨f', List.mem_cons_self, huf, ?_⟩
      rw [factorFault?, hf.fault?_of_not_uniform hfault huf, Option.some_or]

theorem fault?_of_not_uniform (h : d.Expands d') (hd : d.fault? = none)
    (hu : ¬ ∀ f ∈ d', f.Uniform) :
    ∃ f ∈ d', ¬ f.Uniform ∧ d'.fault? = some (.mismatchedWindows f.name) := by
  rw [fault?, Option.or_eq_none_iff] at hd
  obtain ⟨f, hf, hmixed, hfound⟩ := h.factorFault?_of_not_uniform hd.1 hu
  exact ⟨f, hf, hmixed, by rw [fault?, hfound, Option.some_or]⟩

/-! ## The order of factors -/

theorem cycleNames_eq (h : d.Expands d') (path : List Nat) (f : Nat) :
    d'.cycleNames path f = d.cycleNames path f := by
  rw [cycleNames, cycleNames]
  exact List.map_congr_left fun g _ => (h.factorAt g).name_eq

theorem visit_eq (h : d.Expands d') (free path order : List Nat) (f : Nat) :
    d'.visit free path order f = d.visit free path order f := by
  rw [visit, visit]
  split
  · rfl
  · split
    · have hargument : ∀ o a, d'.visit (free.erase f) (path ++ [f]) o a =
          d.visit (free.erase f) (path ++ [f]) o a :=
        fun o a => visit_eq h (free.erase f) (path ++ [f]) o a
      simp only [(h.factorAt f).argumentNames_eq, (h.factorAt f).name_eq, h.index?_eq, hargument]
    · rw [h.cycleNames_eq]
termination_by free.length
decreasing_by exact Lists.length_erase_lt ‹_›

theorem dependencyOrder_eq (h : d.Expands d') : d'.dependencyOrder = d.dependencyOrder := by
  have hvisit : d'.visit (List.range d.length) [] = d.visit (List.range d.length) [] := by
    funext order f
    exact h.visit_eq _ _ order f
  rw [dependencyOrder, dependencyOrder, h.length_eq, hvisit]

/-! ## Names -/

theorem findFactor_eq (h : d.Expands d') (name : String) :
    d'.findFactor name = d.findFactor name := by
  rw [findFactor, findFactor, h.index?_eq]

theorem findLevel_eq (h : d.Expands d') (factor level : String) :
    d'.findLevel factor level = d.findLevel factor level := by
  simp only [findLevel, h.findFactor_eq, (h.factorAt _).levelIndex?_eq]

theorem findTarget_eq (h : d.Expands d') (target : Target) :
    d'.findTarget target = d.findTarget target := by
  cases target with
  | level factor level => rw [findTarget, findTarget, h.findLevel_eq]
  | factor name => simp only [findTarget, h.findFactor_eq, (h.factorAt _).size_eq]

theorem resolveCrossing_eq (h : d.Expands d') (names : List String) :
    d'.resolveCrossing names = d.resolveCrossing names := by
  simp only [resolveCrossing, h.index?_eq]

theorem prepare_eq (h : d.Expands d') (hu : d.SpelledAlike d') (names : List String) :
    d'.prepare names = d.prepare names := by
  simp only [prepare, h.fault?_eq hu, h.dependencyOrder_eq, h.resolveCrossing_eq]

/-! ## Trials -/

theorem appliesAt_eq (h : d.Expands d') (table : Applicability) {f f' : Factor}
    (hf : f.Expands f') (t : Nat) : d'.appliesAt table f' t = d.appliesAt table f t := by
  rcases hf.window?_cases with ⟨hw, hw'⟩ | ⟨w, w', hw, hw', hexpands⟩
  · rw [appliesAt, appliesAt, hw, hw']
  · rw [d.appliesAt_of_window? table hw, d'.appliesAt_of_window? table hw', hf.blankLevels_eq]
    simp only [hexpands.firstTrial_eq, hexpands.stride_eq, hexpands.readTrial_eq, h.index?_eq]

theorem applicability_eq (h : d.Expands d') (order : List Nat) (trials : Nat) :
    d'.applicability order trials = d.applicability order trials := by
  simp only [applicability, h.length_eq, h.appliesAt_eq _ (h.factorAt _)]

theorem combinations_eq (h : d.Expands d') (crossing : List Nat) :
    d'.combinations crossing = d.combinations crossing := by
  simp only [combinations, (h.factorAt _).size_eq]

theorem windows (h : d.Expands d') :
    List.Forall₂ Window.Expands (d.filterMap Factor.window?) (d'.filterMap Factor.window?) := by
  refine List.rel_filterMap (fun f f' hf => ?_) h
  rcases hf.window?_cases with ⟨hw, hw'⟩ | ⟨w, w', hw, hw', hexpands⟩
  · rw [hw, hw']
    exact .none
  · rw [hw, hw']
    exact .some hexpands

theorem horizon_eq (h : d.Expands d') (combinations : Nat) :
    d'.horizon combinations = d.horizon combinations := by
  have hlead : d.lead = d'.lead :=
    List.rel_foldr (fun w w' hw n n' hn => by rw [hw.firstTrial_eq, hn]) rfl h.windows
  have hperiod : d.period = d'.period :=
    List.rel_foldr (fun w w' hw n n' hn => by rw [hw.stride_eq, hn]) rfl h.windows
  rw [horizon, horizon, hlead, hperiod]

theorem offsetsFrom_eq (h : d.Expands d') (next : Nat) :
    Layout.offsetsFrom next d' = Layout.offsetsFrom next d := by
  induction h generalizing next with
  | nil => rfl
  | cons hf _ ih => rw [Layout.offsetsFrom, Layout.offsetsFrom, hf.size_eq, ih]

theorem ownersFrom_eq (h : d.Expands d') (position : Nat) :
    Layout.ownersFrom position d' = Layout.ownersFrom position d := by
  induction h generalizing position with
  | nil => rfl
  | cons hf _ ih => rw [Layout.ownersFrom, Layout.ownersFrom, hf.size_eq, ih]

theorem layout_eq (h : d.Expands d') : Layout.ofDesign d' = .ofDesign d := by
  rw [Layout.ofDesign, Layout.ofDesign, h.offsetsFrom_eq, h.ownersFrom_eq]

end Design.Expands

end Counterbalance
