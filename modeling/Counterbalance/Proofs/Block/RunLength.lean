import Mathlib.Data.List.DropRight
import Mathlib.Data.List.TakeWhile
import Counterbalance.Proofs.Block.Capacity
import Counterbalance.Proofs.Block.Presence

/-! What a constraint says of any truth assignment of the trial variables, whether or not it fills
the cells as it should: how long the longest runs of a level are, over the trials in which its
factor applies. -/

namespace Counterbalance

/-! ## Maximal runs -/

/-- Consecutive elements of the list that have the property, where no neighbour has it. -/
inductive MaximalRun {α : Type} (p : α → Bool) : List α → List α → Prop
  | intro {before run after : List α} : (∀ x ∈ run, p x = true) →
      (∀ x, before.getLast? = some x → p x = false) → (∀ x, after.head? = some x → p x = false) →
      MaximalRun p (before ++ run ++ after) run

variable {α : Type} {p : α → Bool} {xs run : List α}

theorem MaximalRun.isInfix (h : MaximalRun p xs run) : run <:+: xs := by
  cases h
  exact ⟨_, _, rfl⟩

theorem MaximalRun.all (h : MaximalRun p xs run) : ∀ x ∈ run, p x = true := by
  cases h
  assumption

/-- A run extends, to both sides, to a maximal one. -/
theorem exists_maximalRun (hrun : run <:+: xs) (hall : ∀ x ∈ run, p x = true) :
    ∃ longest, MaximalRun p xs longest ∧ run.length ≤ longest.length := by
  obtain ⟨before, after, rfl⟩ := hrun
  have hsplit : before ++ run ++ after = before.rdropWhile p ++
      (before.rtakeWhile p ++ run ++ after.takeWhile p) ++ after.dropWhile p := by
    simp only [List.append_assoc, List.takeWhile_append_dropWhile]
    rw [← List.append_assoc (before.rdropWhile p), List.rdropWhile_append_rtakeWhile]
  refine ⟨before.rtakeWhile p ++ run ++ after.takeWhile p, ?_, ?_⟩
  · rw [hsplit]
    refine .intro (fun x hx => ?_) (fun x hx => ?_) fun x hx => ?_
    · rw [List.append_assoc, List.mem_append, List.mem_append] at hx
      rcases hx with hx | hx | hx
      · exact List.mem_rtakeWhile_imp hx
      · exact hall x hx
      · exact List.mem_takeWhile_imp hx
    · obtain ⟨hne, rfl⟩ := List.mem_getLast?_eq_getLast hx
      exact Bool.eq_false_iff.mpr (List.rdropWhile_last_not p before hne)
    · have hhead := List.head?_dropWhile_not p after
      rw [hx] at hhead
      exact hhead
  · simp only [List.length_append]
    omega

/-- Bounding the maximal runs bounds all runs. -/
theorem forall_maximalRun_iff {k : Nat} : (∀ run, MaximalRun p xs run → run.length ≤ k) ↔
    ∀ run, run <:+: xs → (∀ x ∈ run, p x = true) → run.length ≤ k := by
  constructor
  · intro h run hrun hall
    obtain ⟨longest, hmaximal, hle⟩ := exists_maximalRun hrun hall
    exact Nat.le_trans hle (h longest hmaximal)
  · intro h run hmaximal
    exact h run hmaximal.isInfix hmaximal.all

/-- No run of any length is left if no element has the property. -/
theorem forall_maximalRun_le_zero_iff :
    (∀ run, MaximalRun p xs run → run.length ≤ 0) ↔ ∀ x ∈ xs, p x = false := by
  rw [forall_maximalRun_iff]
  constructor
  · intro h x hx
    have hsingle : [x] <:+: xs := (List.singleton_infix_iff x xs).mpr hx
    refine Bool.eq_false_iff.mpr fun hp => ?_
    exact absurd (h [x] hsingle (List.forall_mem_singleton.mpr hp)) (Nat.not_succ_le_zero 0)
  · intro h run hrun hall
    rw [Nat.le_zero, List.length_eq_zero_iff, List.eq_nil_iff_forall_not_mem]
    intro x hx
    have hfalse := h x (hrun.subset hx)
    rw [hall x hx] at hfalse
    cases hfalse

/-! ## What constraints count -/

namespace Design

variable {d : Design} {target : Target} {f : Nat} {levels : List Nat}

/-- The factor and the level that the target names exist. -/
def Knows (d : Design) : Target → Prop
  | .level factor level => ∃ f ∈ d, f.name = factor ∧ level ∈ f.levelNames
  | .factor name => ∃ f ∈ d, f.name = name

/-- The target names factor `f` and counts these of its levels, each on its own. -/
inductive Counts (d : Design) : Target → Nat → List Nat → Prop
  | level {factor level : String} {f l : Nat} : d.index? factor = some f →
      (d.factorAt f).levelNames[l]? = some level → Counts d (.level factor level) f [l]
  | factor {name : String} {f : Nat} : d.index? name = some f →
      Counts d (.factor name) f (List.range (d.factorAt f).size)

theorem Counts.lt (h : d.Counts target f levels) :
    f < d.length ∧ ∀ l ∈ levels, l < (d.factorAt f).size := by
  cases h with
  | level hindex hlevel =>
    refine ⟨(factorAt_of_index? hindex).1, List.forall_mem_singleton.mpr ?_⟩
    have hlt := (List.getElem?_eq_some_iff.mp hlevel).1
    rwa [Factor.levelNames, List.length_map] at hlt
  | factor hindex => exact ⟨(factorAt_of_index? hindex).1, fun l hl => List.mem_range.mp hl⟩

theorem exists_index?_of_mem (hd : d.Faultless) {e : Factor} (he : e ∈ d) :
    ∃ f, d.index? e.name = some f ∧ d.factorAt f = e := by
  obtain ⟨f, hf, rfl⟩ := List.mem_iff_getElem.mp he
  rw [← factorAt_eq_getElem hf]
  exact ⟨f, hd.index?_name hf, rfl⟩

theorem exists_findLevel (hd : d.Faultless) {factor level : String}
    (h : d.Knows (.level factor level)) :
    ∃ f l, d.findLevel factor level = .ok (f, l) ∧ d.Counts (.level factor level) f [l] := by
  obtain ⟨e, he, rfl, hlevel⟩ := h
  obtain ⟨f, hf, rfl⟩ := exists_index?_of_mem hd he
  obtain ⟨lv, hlv, rfl⟩ := List.mem_map.mp hlevel
  have hfind : ∃ l, (d.factorAt f).levelIndex? lv.name = some l := by
    refine Option.ne_none_iff_exists'.mp fun hnone => ?_
    exact of_decide_eq_false (List.findIdx?_eq_none_iff.mp hnone lv hlv) rfl
  obtain ⟨l, hl⟩ := hfind
  have hok : d.findLevel (d.factorAt f).name lv.name = .ok (f, l) := by
    refine Outcome.bind_eq_ok.mpr ⟨f, Block.findFactor_eq_ok.mpr hf, ?_⟩
    rw [hl]
  obtain ⟨_, lv', hlv', hname⟩ := Block.findLevel_eq_ok hok
  refine ⟨f, l, hok, .level hf ?_⟩
  rw [Factor.levelNames, List.getElem?_map, hlv', Option.map_some, hname]

theorem exists_findTarget (hd : d.Faultless) (h : d.Knows target) :
    ∃ f levels, d.findTarget target = .ok (f, levels) ∧ d.Counts target f levels := by
  cases target with
  | level factor level =>
    obtain ⟨f, l, hfind, hcounts⟩ := exists_findLevel hd h
    exact ⟨f, [l], Outcome.bind_eq_ok.mpr ⟨(f, l), hfind, rfl⟩, hcounts⟩
  | factor name =>
    obtain ⟨e, he, rfl⟩ := h
    obtain ⟨f, hf, _⟩ := exists_index?_of_mem hd he
    exact ⟨f, _, Outcome.bind_eq_ok.mpr ⟨f, Block.findFactor_eq_ok.mpr hf, rfl⟩, .factor hf⟩

end Design

namespace Block

variable {b : Block} {f l t k : Nat} {levels : List Nat} {φs : List Formula}

/-- The assignment chooses level `l` of factor `f` in the trial. -/
def levelValue (b : Block) (ν : Nat → Bool) (f l t : Nat) : Bool :=
  ν (b.variableAt t (b.dataIndex f l))

/-- What formulas say of the levels of factor `f`: none has a run of more than `k` trials among
those in which the factor applies. -/
structure Limits (b : Block) (k f : Nat) (levels : List Nat) (φs : List Formula) : Prop where
  eval_iff : ∀ ν, (∀ φ ∈ φs, φ.eval ν = true) ↔ ∀ l ∈ levels, ∀ run,
    MaximalRun (b.levelValue ν f l) (b.applyingTrials f) run → run.length ≤ k
  /-- One formula per level and run that is one trial too long. -/
  length_eq : φs.length = levels.length * ((b.applyingTrials f).length - k)
  leaves : ∀ φ ∈ φs, ∀ z ∈ φ.leaves, ∃ l ∈ levels, ∃ t ∈ b.applyingTrials f,
    z.var = b.variableAt t (b.dataIndex f l)

/-! ## Formulas -/

theorem exists_levelLiteral (hb : b.WellFormed) (hr : b.InRange)
    (hl : l < (b.design.factorAt f).size) (ht : t ∈ b.applyingTrials f) :
    ∃ z, b.levelLiteral f l t = .ok z := by
  obtain ⟨hf, ht⟩ := lt_of_mem_applyingTrials hb ht
  exact hr.exists_positive ht (hb.dataIndex_lt hf hl)

theorem exists_notThroughout (hb : b.WellFormed) (hr : b.InRange)
    (hl : l < (b.design.factorAt f).size) {run : List Nat}
    (hrun : ∀ t ∈ run, t ∈ b.applyingTrials f) : ∃ φ, b.notThroughout f l run = .ok φ := by
  have hliteral : ∀ t ∈ run, ∃ φ, (b.levelLiteral f l t).map Formula.literal = .ok φ := by
    intro t ht
    obtain ⟨z, hz⟩ := exists_levelLiteral hb hr hl (hrun t ht)
    exact ⟨.literal z, Outcome.map_eq_ok.mpr ⟨z, hz, rfl⟩⟩
  obtain ⟨φs, hφs⟩ := Outcome.exists_mapM_eq_ok.mpr hliteral
  exact ⟨_, Outcome.map_eq_ok.mpr ⟨φs, hφs, rfl⟩⟩

theorem exists_atMostInARow (hb : b.WellFormed) (hr : b.InRange) (k : Nat)
    (hlevels : ∀ l ∈ levels, l < (b.design.factorAt f).size) :
    ∃ φs, b.atMostInARow k f levels = .ok φs := by
  obtain ⟨φss, hφss⟩ :=
    Outcome.exists_mapM_eq_ok.mpr fun l hl => Outcome.exists_mapM_eq_ok.mpr fun run hrun =>
    exists_notThroughout hb hr (hlevels l hl) fun _ ht => (mem_runs_iff.mp hrun).1.subset ht
  exact ⟨_, Outcome.map_eq_ok.mpr ⟨φss, hφss, rfl⟩⟩

theorem exists_exclusion (hb : b.WellFormed) (hr : b.InRange)
    (hl : l < (b.design.factorAt f).size) :
    ∃ φs, (b.applyingTrials f).mapM (b.notAt f l) = .ok φs := by
  refine Outcome.exists_mapM_eq_ok.mpr fun t ht => ?_
  obtain ⟨z, hz⟩ := exists_levelLiteral hb hr hl ht
  exact ⟨_, Outcome.map_eq_ok.mpr ⟨z, hz, rfl⟩⟩

/-- The leaves of the formula of a run are the level's literals in its trials. -/
theorem exists_of_mem_leaves_notThroughout {run : List Nat} {φ : Formula}
    (h : b.notThroughout f l run = .ok φ) {z : Literal} (hz : z ∈ φ.leaves) :
    ∃ t ∈ run, z.var = b.variableAt t (b.dataIndex f l) := by
  obtain ⟨ψs, hψs, rfl⟩ := Outcome.map_eq_ok.mp h
  have hz : z ∈ Formula.leavesAll ψs := hz
  rw [Formula.leavesAll_eq_flatMap, List.mem_flatMap] at hz
  obtain ⟨ψ, hψ, hz⟩ := hz
  obtain ⟨t, ht, hψ⟩ := (Outcome.mem_iff_of_mapM hψs).mp hψ
  obtain ⟨y, hy, rfl⟩ := Outcome.map_eq_ok.mp hψ
  obtain rfl := List.mem_singleton.mp hz
  exact ⟨t, ht, Literal.var_of_positive hy⟩

theorem limits_atMostInARow (hb : b.WellFormed) (hr : b.InRange) (hf : f < b.design.length)
    (hlevels : ∀ l ∈ levels, l < (b.design.factorAt f).size)
    (h : b.atMostInARow k f levels = .ok φs) : b.Limits k f levels φs := by
  refine ⟨fun ν => ?_, ?_, fun φ hφ z hz => ?_⟩
  · rw [(Formula.Means.and_iff.mp (means_atMostInARow hb hr hf hlevels h)).2 ν]
    refine forall₂_congr fun l hl => ?_
    simp only [forall_maximalRun_iff, Chosen, levelValue, and_iff_right (hlevels l hl)]
  · obtain ⟨φss, hφss, rfl⟩ := Outcome.map_eq_ok.mp h
    have hlength : ∀ φs ∈ φss, φs.length = (b.applyingTrials f).length - k := by
      intro φs hφs
      obtain ⟨l, _, hφs⟩ := (Outcome.mem_iff_of_mapM hφss).mp hφs
      rw [← (Outcome.mapM_eq_ok.mp hφs).length_eq, length_runs, Nat.add_sub_add_right]
    rw [List.length_flatten, List.map_congr_left hlength, List.map_const', List.sum_replicate_nat,
      (Outcome.mapM_eq_ok.mp hφss).length_eq]
  · obtain ⟨l, hl, ψs, hψs, hφ⟩ := (Outcome.mem_iff_of_flatten h).mp hφ
    obtain ⟨run, hrun, hφ⟩ := (Outcome.mem_iff_of_mapM hψs).mp hφ
    obtain ⟨t, ht, hvar⟩ := exists_of_mem_leaves_notThroughout hφ hz
    exact ⟨l, hl, t, (mem_runs_iff.mp hrun).1.subset ht, hvar⟩

/-- What the formulas of an exclusion say. -/
theorem exclusion_iff (hb : b.WellFormed) (hr : b.InRange) (hf : f < b.design.length)
    (hl : l < (b.design.factorAt f).size) (h : (b.applyingTrials f).mapM (b.notAt f l) = .ok φs)
    (ν : Nat → Bool) :
    (∀ φ ∈ φs, φ.eval ν = true) ↔ ∀ t ∈ b.applyingTrials f, b.levelValue ν f l t = false := by
  rw [(Formula.Means.and_iff.mp (means_exclusion hb hr hf hl h)).2 ν]
  simp only [Chosen, levelValue, and_iff_right hl, Bool.not_eq_true]

theorem limits_exclusion (hb : b.WellFormed) (hr : b.InRange) (hf : f < b.design.length)
    (hl : l < (b.design.factorAt f).size) (h : (b.applyingTrials f).mapM (b.notAt f l) = .ok φs) :
    b.Limits 0 f [l] φs := by
  refine ⟨fun ν => ?_, ?_, fun φ hφ z hz => ?_⟩
  · rw [exclusion_iff hb hr hf hl h, List.forall_mem_singleton, forall_maximalRun_le_zero_iff]
  · rw [← (Outcome.mapM_eq_ok.mp h).length_eq, List.length_singleton, Nat.one_mul, Nat.sub_zero]
  · obtain ⟨t, ht, hφ⟩ := (Outcome.mem_iff_of_mapM h).mp hφ
    obtain ⟨y, hy, rfl⟩ := Outcome.map_eq_ok.mp hφ
    obtain rfl := List.mem_singleton.mp hz
    refine ⟨l, List.mem_singleton_self l, t, ht, ?_⟩
    rw [Literal.var_neg, Literal.var_of_positive hy]

/-- **Constraints bound the longest runs of levels**, under any truth assignment. An exclusion is
the bound of no trial at all: the level holds nowhere. -/
theorem requirements_bound_runs (hb : b.Accepted) (hr : b.InRange) :
    (∀ k target, b.design.Knows target → ∃ f levels φs, b.design.Counts target f levels ∧
      b.requirements (.atMostInARow k target) = .ok φs ∧ b.Limits k f levels φs) ∧
    ∀ factor level, b.design.Knows (.level factor level) → ∃ f l φs ψs,
      b.design.Counts (.level factor level) f [l] ∧
      b.requirements (.exclude factor level) = .ok φs ∧
      b.requirements (.atMostInARow 0 (.level factor level)) = .ok ψs ∧ b.Limits 0 f [l] φs ∧
      ∀ ν, ((∀ φ ∈ φs, φ.eval ν = true) ↔ ∀ t ∈ b.applyingTrials f, b.levelValue ν f l t = false) ∧
        ((∀ φ ∈ φs, φ.eval ν = true) ↔ ∀ ψ ∈ ψs, ψ.eval ν = true) := by
  have hwf := hb.wellFormed
  have hlimit : ∀ k target f levels, b.design.findTarget target = .ok (f, levels) →
      b.design.Counts target f levels →
      ∃ φs, b.requirements (.atMostInARow k target) = .ok φs ∧ b.Limits k f levels φs := by
    intro k target f levels hfind hcounts
    obtain ⟨hf, hlevels⟩ := hcounts.lt
    obtain ⟨φs, hφs⟩ := exists_atMostInARow hwf hr k hlevels
    refine ⟨φs, ?_, limits_atMostInARow hwf hr hf hlevels hφs⟩
    exact Outcome.bind_eq_ok.mpr
      ⟨_, Outcome.mapError_eq_ok.mpr hfind, Outcome.mapError_eq_ok.mpr hφs⟩
  refine ⟨fun k target hknown => ?_, fun factor level hknown => ?_⟩
  · obtain ⟨f, levels, hfind, hcounts⟩ := Design.exists_findTarget hwf.faultless hknown
    obtain ⟨φs, hφs, hlimits⟩ := hlimit k target f levels hfind hcounts
    exact ⟨f, levels, φs, hcounts, hφs, hlimits⟩
  · obtain ⟨f, l, hfind, hcounts⟩ := Design.exists_findLevel hwf.faultless hknown
    obtain ⟨hf, hlevels⟩ := hcounts.lt
    have hl := hlevels l (List.mem_singleton_self l)
    obtain ⟨φs, hφs⟩ := exists_exclusion hwf hr hl
    have hlimits := limits_exclusion hwf hr hf hl hφs
    obtain ⟨ψs, hψs, hlimits'⟩ := hlimit 0 (.level factor level) f [l]
      (Outcome.bind_eq_ok.mpr ⟨(f, l), hfind, rfl⟩) hcounts
    refine ⟨f, l, φs, ψs, hcounts, ?_, hψs, hlimits,
      fun ν => ⟨exclusion_iff hwf hr hf hl hφs ν, ?_⟩⟩
    · exact Outcome.bind_eq_ok.mpr
        ⟨_, Outcome.mapError_eq_ok.mpr hfind, Outcome.mapError_eq_ok.mpr hφs⟩
    · rw [hlimits.eval_iff, hlimits'.eval_iff]

/-- Repetitions exist in every second of six trials. That no two in a row are repetitions takes two
formulas, as the trials in between do not count. -/
theorem requirements_bound_runs_nested :
    ∃ b φs ψs, fullyCrossed .nested ["streak", "repeats"] [] = .ok b ∧
      b.requirements (.atMostInARow 1 (.level "repeats" "yes")) = .ok φs ∧ φs.length = 2 ∧
      b.requirements (.exclude "repeats" "yes") = .ok ψs ∧ ψs.length = 3 ∧
      ∀ ν, ((∀ φ ∈ φs, φ.eval ν = true) ↔
          ∀ run, MaximalRun (b.levelValue ν 2 0) [1, 3, 5] run → run.length ≤ 1) ∧
        ((∀ ψ ∈ ψs, ψ.eval ν = true) ↔ ∀ t ∈ [1, 3, 5], b.levelValue ν 2 0 t = false) := by
  have hrun : (fullyCrossed .nested ["streak", "repeats"] []).map (fun b =>
      (b.trials * b.trialSize, b.applyingTrials 2)) = .ok (30, [1, 3, 5]) := by
    decide +kernel
  obtain ⟨b, hb, hrun⟩ := Outcome.map_eq_ok.mp hrun
  obtain ⟨hsize, happlying⟩ := Prod.mk.inj hrun
  have hd : b.design = .nested := design_of_fullyCrossed hb
  have hr : b.InRange := by
    rw [InRange, hsize]
    decide
  have hknown : b.design.Knows (.level "repeats" "yes") := by
    rw [hd]
    exact ⟨_, List.mem_of_getElem? (i := 2) rfl, rfl, List.mem_cons_self⟩
  obtain ⟨hlimits, hexclusion⟩ := requirements_bound_runs ⟨_, _, _, .inr hb⟩ hr
  have hcounted : ∀ f levels, b.design.Counts (.level "repeats" "yes") f levels → f = 2 ∧
      levels = [0] := by
    intro f levels h
    rw [hd] at h
    cases h with
    | @level _ _ _ l hindex hlevel =>
      have hposition : Design.nested.index? "repeats" = some 2 := by decide
      obtain rfl := Option.some.inj (hposition.symm.trans hindex)
      have hnames : ["yes", "no"].Nodup := by decide
      have hfirst : ["yes", "no"][l]? = ["yes", "no"][0]? := hlevel
      rw [(List.getElem?_inj (List.getElem?_eq_some_iff.mp hlevel).1 hnames).mp hfirst]
      exact ⟨rfl, rfl⟩
  obtain ⟨f, levels, φs, hcounts, hφs, hone⟩ := hlimits 1 _ hknown
  obtain ⟨f', l, ψs, _, hcounts', hψs, _, hzero, hnever⟩ := hexclusion _ _ hknown
  obtain ⟨rfl, rfl⟩ := hcounted f levels hcounts
  obtain ⟨rfl, hl⟩ := hcounted f' [l] hcounts'
  obtain rfl := List.singleton_inj.mp hl
  refine ⟨b, φs, ψs, hb, hφs, ?_, hψs, ?_, fun ν => ⟨?_, ?_⟩⟩
  · rw [hone.length_eq, happlying]
    rfl
  · rw [hzero.length_eq, happlying]
    rfl
  · rw [hone.eval_iff, List.forall_mem_singleton, happlying]
  · rw [(hnever ν).1, happlying]

end Block

end Counterbalance
