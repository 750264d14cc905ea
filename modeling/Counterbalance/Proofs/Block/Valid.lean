import Counterbalance.Proofs.Block.Requirements
import Counterbalance.Proofs.Block.Sequence

/-! Valid sequences, in terms of the names that a sequence shows: derived levels follow from their
arguments, every combination of crossed levels occurs, and the constraints hold. What the formulas
of a block say of a truth assignment is that the sequence read from it is valid. -/

namespace Counterbalance.Block

variable {b : Block} {g : Nat → Bool} {s : Sequence}

/-! ## Specification -/

/-- The sequence gives factor `f` its level `l` in trial `t`. -/
def Gives (b : Block) (s : Sequence) (f t l : Nat) : Prop :=
  ∃ level, (b.design.factorAt f).levels[l]? = some level ∧
    s.get? (b.design.factorAt f).name t = some level.name

/-- No run of trials in which factor `f` applies has the level throughout and is longer than `k`. -/
def AtMost (b : Block) (s : Sequence) (k f : Nat) (level : String) : Prop :=
  ∀ run, run <:+: b.applyingTrials f →
    (∀ t ∈ run, s.get? (b.design.factorAt f).name t = some level) → run.length ≤ k

/-- The constraint holds of the sequence. -/
def Obeys (b : Block) (s : Sequence) : Constraint → Prop
  | .atMostInARow k (.level factor level) =>
    ∃ f, b.design.index? factor = some f ∧ b.AtMost s k f level
  | .atMostInARow k (.factor factor) =>
    ∃ f, b.design.index? factor = some f ∧
      ∀ level ∈ (b.design.factorAt f).levelNames, b.AtMost s k f level
  | .exclude factor level => ∀ t, s.get? factor t ≠ some level

/-- What a compiled block demands of the sequence that a model is read as. -/
structure Valid (b : Block) (fullCrossing : Bool) (s : Sequence) : Prop where
  /-- A factor has a derived level exactly if the predicate accepts the levels of the arguments. -/
  derived : ∀ f t l level, (l, level) ∈ (b.design.factorAt f).derivedLevels → b.applies f t = true →
    ∃ names : List String,
      level.arguments.mapIdx (fun i argument => s.get? argument (level.window.readTrial t i)) =
        names.map some ∧
      (s.get? (b.design.factorAt f).name t = some level.name ↔ level.predicate.accepts names = true)
  crossed : fullCrossing = true → ∀ ls, b.Combined ls →
    ∃ t ∈ b.crossedTrials, List.Forall₂ (fun f l => b.Gives s f t l) b.crossing ls
  constrained : ∀ c ∈ b.constraints, b.Obeys s c

/-! ## Names and positions of levels -/

/-- Levels of a factor differ in their names. -/
theorem WellFormed.level_inj (hb : b.WellFormed) {f l m : Nat} (hf : f < b.design.length)
    {level level' : Level} (hl : (b.design.factorAt f).levels[l]? = some level)
    (hm : (b.design.factorAt f).levels[m]? = some level') (hname : level.name = level'.name) :
    l = m := by
  have hlt : l < (b.design.factorAt f).levelNames.length := by
    rw [Factor.levelNames, List.length_map]
    exact (List.getElem?_eq_some_iff.mp hl).1
  refine (List.getElem?_inj hlt (hb.faultless.fitsAt hf).names_nodup).mp ?_
  rw [Factor.levelNames, List.getElem?_map, List.getElem?_map, hl, hm, Option.map_some,
    Option.map_some, hname]

theorem gives_iff (hb : b.WellFormed) (hs : b.Shows g s) {f t l : Nat} (hf : f < b.design.length) :
    b.Gives s f t l ↔ b.applies f t = true ∧ b.Chosen g f t l := by
  constructor
  · intro h
    obtain ⟨level, hl, hget⟩ := h
    obtain ⟨happ, m, hm, hname⟩ := (hs f hf t _).mp hget
    obtain ⟨level', hm', hsame⟩ := Option.map_eq_some_iff.mp hname
    exact ⟨happ, hb.level_inj hf hl hm' hsame.symm ▸ hm⟩
  · intro h
    obtain ⟨happ, hchosen⟩ := h
    have hl := List.getElem?_eq_getElem hchosen.1
    exact ⟨_, hl, (hs f hf t _).mpr ⟨happ, l, hchosen, by rw [hl, Option.map_some]⟩⟩

/-- Where a factor applies, the level that a sequence shows by name is the one that is chosen. -/
theorem get?_eq_name_iff (hb : b.WellFormed) (hs : b.Shows g s) {f t l : Nat}
    (hf : f < b.design.length) (happ : b.applies f t = true) {level : Level}
    (hl : (b.design.factorAt f).levels[l]? = some level) :
    s.get? (b.design.factorAt f).name t = some level.name ↔ b.Chosen g f t l := by
  have hgives := gives_iff hb hs (t := t) (l := l) hf
  rw [and_iff_right happ] at hgives
  rw [← hgives]
  constructor
  · intro hget
    exact ⟨level, hl, hget⟩
  · intro h
    obtain ⟨level', hl', hget⟩ := h
    rw [hl] at hl'
    exact Option.some.inj hl' ▸ hget

/-! ## Derived levels -/

/-- The names of the combination that is read are those that the sequence shows there. -/
theorem names_of_readAt (hb : b.WellFormed) (hs : b.Shows g s) {f t l : Nat} {w : Window}
    {level : DerivedLevel} {ds : Combination} (hw : (b.design.factorAt f).window? = some w)
    (hl : (l, level) ∈ (b.design.factorAt f).derivedLevels) (happ : b.applies f t = true)
    (hds : b.ReadAt g w t level.arguments ds) :
    level.arguments.mapIdx (fun i argument => s.get? argument (w.readTrial t i)) =
      (ds.filterMap b.levelName?).map some := by
  have hcell : ∀ i (hi : i < ds.length) (hi' : i < level.arguments.length), ∃ name,
      b.levelName? ds[i] = some name ∧ s.get? level.arguments[i] (w.readTrial t i) = some name := by
    intro i hi hi'
    have hargument := List.getElem?_eq_getElem hi'
    obtain ⟨a, m, ha, hm, hread⟩ := hds.chosen i _ hargument
    have happa := hb.applies_of_index? hw hl happ hargument ha
    obtain ⟨hlt, hname⟩ := Design.factorAt_of_index? ha
    rw [List.getElem?_eq_getElem hi, Option.some.injEq] at hread
    have hlevel := List.getElem?_eq_getElem hm.1
    refine ⟨_, ?_, hname ▸ (get?_eq_name_iff hb hs hlt happa hlevel).mpr hm⟩
    rw [hread]
    exact hb.levelName?_dataIndex hlt hlevel
  have hsome : ∀ d ∈ ds, ∃ name, b.levelName? d = some name := by
    intro d hd
    obtain ⟨i, hi, rfl⟩ := List.mem_iff_getElem.mp hd
    obtain ⟨name, hname, _⟩ := hcell i hi (hds.length_eq ▸ hi)
    exact ⟨name, hname⟩
  rw [Lists.map_some_filterMap hsome]
  refine List.ext_getElem (by simp [hds.length_eq]) fun i hi hi' => ?_
  rw [List.length_mapIdx] at hi
  rw [List.length_map] at hi'
  obtain ⟨name, hname, hget⟩ := hcell i hi' hi
  rw [List.getElem_mapIdx, List.getElem_map, hname, hget]

/-- Levels are chosen as their predicates demand exactly if the sequence shows them so. -/
theorem derived_iff (hb : b.WellFormed) (hg : b.Cells g) (hs : b.Shows g s) :
    b.Derived g ↔ ∀ f t l level, (l, level) ∈ (b.design.factorAt f).derivedLevels →
      b.applies f t = true → ∃ names : List String,
        level.arguments.mapIdx (fun i argument => s.get? argument (level.window.readTrial t i)) =
          names.map some ∧
        (s.get? (b.design.factorAt f).name t = some level.name ↔
          level.predicate.accepts names = true) := by
  have hlevel : ∀ f t l level, (l, level) ∈ (b.design.factorAt f).derivedLevels →
      b.applies f t = true → (b.design.factorAt f).window? = some level.window ∧
        (s.get? (b.design.factorAt f).name t = some level.name ↔ b.Chosen g f t l) := by
    intro f t l level hl happ
    have hf := (hb.applies_iff.mp happ).1
    have hget := get?_eq_name_iff hb hs hf happ (Factor.mem_derivedLevels.mp hl)
    exact ⟨hb.faultless.window?_eq hl, hget⟩
  constructor
  · intro hderived f t l level hl happ
    obtain ⟨hw, hget⟩ := hlevel f t l level hl happ
    obtain ⟨ds, hds, _⟩ := existsUnique_readAt hb hg hw hl happ
    refine ⟨_, names_of_readAt hb hs hw hl happ hds, ?_⟩
    rw [hget]
    exact hderived f t _ l level ds hw hl happ hds
  · intro hall f t w l level ds hw hl happ hds
    obtain ⟨hw', hget⟩ := hlevel f t l level hl happ
    obtain rfl := Option.some.inj (hw.symm.trans hw')
    obtain ⟨names, hnames, haccepts⟩ := hall f t l level hl happ
    rw [names_of_readAt hb hs hw hl happ hds] at hnames
    have hsame := (List.map_inj_right fun _ _ => Option.some.inj).mp hnames
    rw [← hget, haccepts, hsame]

/-! ## Constraints -/

theorem findFactor_eq_ok {d : Design} {name : String} {f : Nat} :
    d.findFactor name = .ok f ↔ d.index? name = some f := by
  unfold Design.findFactor
  cases d.index? name <;> simp

theorem findLevel_eq_ok {d : Design} {factor level : String} {f l : Nat}
    (h : d.findLevel factor level = .ok (f, l)) :
    d.index? factor = some f ∧ ∃ lv, (d.factorAt f).levels[l]? = some lv ∧ lv.name = level := by
  obtain ⟨f', hf, h⟩ := Outcome.bind_eq_ok.mp h
  split at h
  · rename_i l' hl
    obtain ⟨rfl, rfl⟩ := Prod.mk.inj (Except.ok.inj h)
    obtain ⟨hlt, hname, _⟩ := List.findIdx?_eq_some_iff_getElem.mp hl
    exact ⟨findFactor_eq_ok.mp hf, _, List.getElem?_eq_getElem hlt, of_decide_eq_true hname⟩
  · cases h

/-- A limit in terms of names is one in terms of choices. -/
theorem atMost_iff (hb : b.WellFormed) (hs : b.Shows g s) {k f l : Nat} {level : Level}
    (hf : f < b.design.length) (hl : (b.design.factorAt f).levels[l]? = some level) :
    b.AtMost s k f level.name ↔ ∀ run, run <:+: b.applyingTrials f →
      (∀ t ∈ run, b.Chosen g f t l) → run.length ≤ k := by
  refine forall₂_congr fun run hrun => ?_
  have hsame : (∀ t ∈ run, s.get? (b.design.factorAt f).name t = some level.name) ↔
      ∀ t ∈ run, b.Chosen g f t l := by
    refine forall₂_congr fun t ht => ?_
    exact get?_eq_name_iff hb hs hf (hb.mem_applyingTrials.mp (hrun.subset ht)) hl
  rw [hsame]

/-- What the formulas of a constraint say is that it holds of the sequence that is read. -/
theorem means_requirements (hb : b.WellFormed) (hr : b.InRange) {c : Constraint} {φs : List Formula}
    (h : b.requirements c = .ok φs) : ∃ P, (Formula.and φs).Means b.gridVariables P ∧
      ∀ ν s, b.Shows ν s → (P ν ↔ b.Obeys s c) := by
  cases c with
  | atMostInARow k target =>
    obtain ⟨⟨f, levels⟩, htarget, hφs⟩ := Outcome.bind_eq_ok.mp h
    rw [Outcome.mapError_eq_ok] at htarget hφs
    cases target with
    | level factor level =>
      obtain ⟨⟨f', l⟩, hfind, htarget⟩ := Outcome.bind_eq_ok.mp htarget
      obtain ⟨rfl, rfl⟩ := Prod.mk.inj (Except.ok.inj htarget)
      obtain ⟨hindex, lv, hl, rfl⟩ := findLevel_eq_ok hfind
      have hf := (Design.factorAt_of_index? hindex).1
      have hlt : ∀ m ∈ [l], m < (b.design.factorAt f').size := by
        intro m hm
        rw [List.mem_singleton.mp hm]
        exact (List.getElem?_eq_some_iff.mp hl).1
      refine ⟨_, means_atMostInARow hb hr hf hlt hφs, fun ν s hs => ?_⟩
      rw [List.forall_mem_singleton, ← atMost_iff hb hs hf hl]
      simp [Obeys, hindex]
    | factor factor =>
      obtain ⟨f', hfind, htarget⟩ := Outcome.bind_eq_ok.mp htarget
      obtain ⟨rfl, rfl⟩ := Prod.mk.inj (Except.ok.inj htarget)
      have hindex := findFactor_eq_ok.mp hfind
      have hf := (Design.factorAt_of_index? hindex).1
      have hlt : ∀ m ∈ List.range (b.design.factorAt f').size, m < (b.design.factorAt f').size :=
        fun m hm => List.mem_range.mp hm
      refine ⟨_, means_atMostInARow hb hr hf hlt hφs, fun ν s hs => ?_⟩
      simp only [Obeys, hindex, Option.some.injEq, exists_eq_left', List.mem_range]
      constructor
      · intro hall name hname
        obtain ⟨lv, hlv, rfl⟩ := List.mem_map.mp hname
        obtain ⟨l, hl⟩ := List.mem_iff_getElem?.mp hlv
        exact (atMost_iff hb hs hf hl).mpr (hall l (List.getElem?_eq_some_iff.mp hl).1)
      · intro hall l hlt
        have hl := List.getElem?_eq_getElem hlt
        exact (atMost_iff hb hs hf hl).mp (hall _ (List.mem_map_of_mem (List.mem_of_getElem? hl)))
  | exclude factor level =>
    obtain ⟨⟨f, l⟩, hfind, hφs⟩ := Outcome.bind_eq_ok.mp h
    rw [Outcome.mapError_eq_ok] at hfind hφs
    obtain ⟨hindex, lv, hl, rfl⟩ := findLevel_eq_ok hfind
    obtain ⟨hf, hname⟩ := Design.factorAt_of_index? hindex
    refine ⟨_, means_exclusion hb hr hf (List.getElem?_eq_some_iff.mp hl).1 hφs, fun ν s hs => ?_⟩
    constructor
    · intro hnone t hget
      rw [← hname] at hget
      have happ := ((hs f hf t _).mp hget).1
      exact hnone t (hb.mem_applyingTrials.mpr happ) ((get?_eq_name_iff hb hs hf happ hl).mp hget)
    · intro hnever t ht hchosen
      have happ := hb.mem_applyingTrials.mp ht
      exact hnever t (hname ▸ (get?_eq_name_iff hb hs hf happ hl).mpr hchosen)

/-! ## Crossing -/

/-- A combination is shown exactly where it is chosen. -/
theorem forall₂_gives_iff (hb : b.WellFormed) (hs : b.Shows g s) {t : Nat}
    (ht : t ∈ b.crossedTrials) {ls : List Nat} :
    List.Forall₂ (fun f l => b.Gives s f t l) b.crossing ls ↔
      List.Forall₂ (fun f l => b.Chosen g f t l) b.crossing ls := by
  refine Lists.forall₂_congr_left fun f hf l => ?_
  rw [gives_iff hb hs (hb.crossing_lt f hf), and_iff_right ((mem_crossedTrials.mp ht).2 f hf)]

theorem crossed_iff (hb : b.WellFormed) (hs : b.Shows g s) :
    (∀ ls, b.Combined ls →
      ∃ t ∈ b.crossedTrials, List.Forall₂ (fun f l => b.Chosen g f t l) b.crossing ls) ↔
    ∀ ls, b.Combined ls →
      ∃ t ∈ b.crossedTrials, List.Forall₂ (fun f l => b.Gives s f t l) b.crossing ls :=
  forall₂_congr fun _ _ => exists_congr fun _ => and_congr_right fun ht =>
    (forall₂_gives_iff hb hs ht).symm

end Counterbalance.Block
