import Counterbalance.Proofs.Block.Enumeration
import Counterbalance.Proofs.Block.Models

/-! Pruning loses nothing. A level whose derivation is empty is kept out of the combinations of
other levels. In a model it is false in every trial: by its definition where its factor applies, and
by the layout elsewhere. As a window only reads trials in which the arguments apply, the
combinations left out would never have held, and derived levels are what their predicates make of
all levels of the arguments. None of this needs cells that hold one level only. -/

namespace Counterbalance.Block

variable {b : Block} {options : Options} {c : Compilation} {ν : Nat → Bool}

/-- The combination takes one level of each argument, which may be any, all of them hold where a
window that ends at trial `t` reads them, and the predicate accepts their names. -/
structure Witnesses (b : Block) (ν : Nat → Bool) (t : Nat) (level : DerivedLevel)
    (ds : Combination) : Prop where
  read : b.ReadAt ν level.window t level.arguments ds
  accepted : ∃ names, ds.map b.levelName? = names.map some ∧ level.predicate.accepts names = true

/-! ## Combinations that hold -/

theorem ReadAt.map_levelName? (hb : b.WellFormed) {w : Window} {t : Nat} {arguments : List String}
    {ds : Combination} (hds : b.ReadAt ν w t arguments ds) :
    ds.map b.levelName? = (ds.filterMap b.levelName?).map some := by
  refine (Lists.map_some_filterMap fun d hd => ?_).symm
  obtain ⟨i, hi⟩ := List.mem_iff_getElem?.mp hd
  have hlt : i < arguments.length := hds.length_eq ▸ (List.getElem?_eq_some_iff.mp hi).1
  obtain ⟨a, m, ha, hm, hread⟩ := hds.chosen i _ (List.getElem?_eq_getElem hlt)
  rw [hi] at hread
  obtain rfl := Option.some.inj hread
  have hlevel := List.getElem?_eq_getElem (l := (b.design.factorAt a).levels) hm.1
  exact ⟨_, hb.levelName?_dataIndex (Design.factorAt_of_index? ha).1 hlevel⟩

theorem witnesses_iff (hb : b.WellFormed) {t : Nat} {level : DerivedLevel} {ds : Combination} :
    b.Witnesses ν t level ds ↔ b.ReadAt ν level.window t level.arguments ds ∧
      level.predicate.accepts (ds.filterMap b.levelName?) = true := by
  constructor
  · intro h
    obtain ⟨names, hnames, haccepts⟩ := h.accepted
    rw [h.read.map_levelName? hb, List.map_inj_right fun _ _ => Option.some.inj] at hnames
    exact ⟨h.read, hnames ▸ haccepts⟩
  · intro h
    obtain ⟨hread, haccepts⟩ := h
    exact ⟨hread, _, hread.map_levelName? hb, haccepts⟩

/-! ## Models -/

/-- A compilation keeps the derivations that its definitions were made from. -/
theorem derivations_of_compile {table : DerivationTable} (htable : b.derivationTable = .ok table)
    (hc : b.compile options = .ok c) : c.derivations = table.toList := by
  obtain ⟨p, s, _, rfl⟩ := exists_session_of_compile hc
  rw [Except.ok.inj (htable.symm.trans p.table_eq)]

/-- The layout forbids levels where factors do not apply, whatever it asks of the other cells. -/
theorem not_chosen_of_layoutClauses {exactlyOne : Bool} {cs : List Clause}
    (h : b.layoutClauses exactlyOne = .ok cs) (hν : Holds ν cs) {f t l : Nat}
    (hf : f < b.design.length) (ht : t < b.trials) (happ : b.applies f t = false) :
    ¬ b.Chosen ν f t l := by
  obtain ⟨hcells, hmem⟩ := layoutClauses_eq_ok h
  obtain ⟨ds, hds⟩ := hcells f hf t ht
  have hcell : Holds ν ds := fun c hc => hν c ((hmem c).mpr ⟨f, hf, t, ht, ds, hds, hc⟩)
  rw [cellClauses_eq, happ, Bool.false_and, if_neg Bool.false_ne_true] at hds
  rw [holds_cellClauses hds, happ, if_neg Bool.false_ne_true] at hcell
  exact hcell l

/-- In a model derived levels are chosen where they are supported, and only where their factors
apply. -/
theorem supported_of_model (hb : b.WellFormed) (hr : b.InRange) (hc : b.compile options = .ok c)
    (hν : c.IsModel ν) : ∃ table, b.Tabulated b.order table ∧ c.derivations = table.toList ∧
      (∀ f w p drv t, b.Listed table f w p drv → b.applies f t = true →
        (b.Chosen ν f t p.1 ↔ b.Supported ν w t drv)) ∧
      ∀ f < b.design.length, ∀ t < b.trials, b.applies f t = false → ∀ l, ¬ b.Chosen ν f t l := by
  obtain ⟨p, hp⟩ := exists_describes hb hr hc
  obtain ⟨hlayout, hformulas⟩ := p.demands_iff.mp (hp.demands ν hν)
  have ht := tabulated_of_derivationTable hb p.table_eq
  have hdefinitions := (Formula.Means.and_iff.mp (means_definitions hb hr ht p.definitions_eq)).2
  refine ⟨p.table, ht, ?_, (hdefinitions ν).mp fun φ hφ => hformulas φ ?_,
    fun f hf t htrial happ l => ?_⟩
  · exact derivations_of_compile p.table_eq hc
  · exact List.mem_append_left _ (List.mem_append_left _ hφ)
  · exact not_chosen_of_layoutClauses p.layout_eq hlayout hf htrial happ

/-- **Pruning loses nothing.** In a model of a compiled block a level with an empty derivation is
false in every trial, and where its factor applies a derived level is true exactly if some
combination of any levels of its arguments, accepted by its predicate, holds where the window reads
it. -/
theorem pruning_lossless (hb : b.Accepted) (hr : b.InRange) (hc : b.compile options = .ok c)
    (hν : c.IsModel ν) :
    (∀ drv ∈ c.derivations, drv.isEmpty = true →
      ∀ t < b.trials, ν (b.variableAt t drv.level) = false) ∧
    ∀ f t l level, (l, level) ∈ (b.design.factorAt f).derivedLevels → b.applies f t = true →
      (ν (b.variableAt t (b.dataIndex f l)) = true ↔ ∃ ds, b.Witnesses ν t level ds) := by
  have hwf := hb.wellFormed
  obtain ⟨table, ht, hlist, hsupported, hsilent⟩ := supported_of_model hwf hr hc hν
  refine ⟨fun drv hdrv hempty t htrial => ?_, fun f t l level hl happ => ?_⟩
  · obtain ⟨f, w, p, hp⟩ := (ht.mem_toList hwf).mp (hlist ▸ hdrv)
    have hf := Design.lt_of_window? hp.window
    have hnot : ¬ b.Chosen ν f t p.1 := by
      cases happ : b.applies f t with
      | false => exact hsilent f hf t htrial happ p.1
      | true =>
        rw [hsupported f w p drv t hp happ]
        intro h
        obtain ⟨ds, hds, _⟩ := h
        rw [List.isEmpty_iff.mp hempty] at hds
        cases hds
    rw [Chosen, and_iff_right (lt_of_mem_derivedLevels hp.mem), ← hp.derives.level_eq] at hnot
    exact Bool.not_eq_true _ ▸ hnot
  · have hw := hwf.faultless.window?_eq hl
    obtain ⟨drv, hp⟩ := ht.exists_listed hwf hw hl
    have hground : ∀ a, b.design.Reads f a → b.Grounded ν table a := fun a _ =>
      grounded_of_supported hwf ht hsupported a
    have hchosen : b.Chosen ν f t l ↔ ν (b.variableAt t (b.dataIndex f l)) = true :=
      and_iff_right (lt_of_mem_derivedLevels hl)
    rw [← hchosen, hsupported f _ _ drv t hp happ,
      supported_iff_exists_readAt hwf hground hw hl happ hp.derives]
    exact exists_congr fun ds => (witnesses_iff hwf).symm

/-- A model for two trials: red, then red and green at once, so that the second colour repeats the
first and does not; the rest are auxiliary variables. -/
def redThenBoth (v : Nat) : Bool :=
  v ∈ [1, 3, 8, 9, 10, 11, 13, 14, 15, 16, 17, 18, 19, 20, 23, 24, 25, 26, 28, 30, 31, 33, 34, 35,
    37, 38, 39, 40, 41, 43, 44]

/-- The hue that never holds is false in both trials, and a change of hue has something to read
although cells may hold several levels. -/
theorem pruning_lossless_hues :
    ∃ b c, fullyCrossed .hues ["color"] [] = .ok b ∧ b.compile { exactlyOne := false } = .ok c ∧
      c.IsModel redThenBoth ∧ ⟨4, []⟩ ∈ c.derivations ∧
      (∀ t < 2, redThenBoth (b.variableAt t 4) = false) ∧
      ∃ ds, b.Witnesses redThenBoth 1 ⟨"no", .transition, .notEqual, ["hue", "hue"]⟩ ds := by
  have hmodel : ((fullyCrossed .hues ["color"] []).toOption.bind fun b =>
      (b.compile { exactlyOne := false }).toOption.map fun c =>
        (c.cnf.isSatisfiedBy (signedEntries redThenBoth c.varCount),
          decide (⟨4, []⟩ ∈ c.derivations),
          b.trials, decide (b.trials * b.trialSize ≤ maxVariable), b.applies 2 1,
          redThenBoth (b.variableAt 1 (b.dataIndex 2 1)))) =
      some (true, true, 2, true, true, true) := by
    decide +kernel
  obtain ⟨b, hb, hmodel⟩ := Option.bind_eq_some_iff.mp hmodel
  obtain ⟨c, hc, hmodel⟩ := Option.map_eq_some_iff.mp hmodel
  rw [Outcome.toOption_eq_some] at hb hc
  simp only [Prod.mk.injEq, decide_eq_true_eq] at hmodel
  obtain ⟨hsat, hdrv, htrials, hr, happ, htrue⟩ := hmodel
  obtain ⟨hempty, hderived⟩ := pruning_lossless ⟨_, _, _, .inr hb⟩ hr hc hsat
  refine ⟨b, c, hb, hc, hsat, hdrv, fun t ht => hempty _ hdrv rfl t (htrials ▸ ht), ?_⟩
  refine (hderived 2 1 1 _ ?_ happ).mp htrue
  rw [design_of_fullyCrossed hb]
  exact List.mem_cons_of_mem _ List.mem_cons_self

end Counterbalance.Block
