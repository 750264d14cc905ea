import Counterbalance.Proofs.Block.Capacity

/-! Which variables the formulas of derived levels are made of. The shift of a combination, the
start of its window and the numbering of trial variables make, together, one literal per argument:
that of the level that the combination names, in the trial that the window reads, where the
argument's factor applies. -/

namespace Counterbalance

/-- Taking the trials off again gives a combination back. -/
theorem Window.mapIdx_sub_shift {w : Window} (hw : w.width ≠ 1) (n : Nat) (ds : Combination) :
    (w.shift n ds).mapIdx (fun i d => d - i * n) = ds := by
  refine List.ext_getElem? fun i => ?_
  rw [List.getElem?_mapIdx, getElem?_shift, Option.map_map]
  simp only [Function.comp_def, if_neg hw, Nat.add_sub_cancel, Option.map_id']

namespace Block

variable {b : Block} {table : DerivationTable} {level : DerivedLevel} {f l t : Nat}
  {ds : Combination}

/-! ## Specification -/

/-- The literal of level `m` of factor `a` in trial `u`, which is where the level's window, if it
ends at trial `t`, reads argument `i`. -/
structure ReadsLevel (b : Block) (level : DerivedLevel) (t i a m u : Nat) (z : Literal) : Prop where
  argument : ∃ argument, level.arguments[i]? = some argument ∧ b.design.index? argument = some a
  level_lt : m < (b.design.factorAt a).size
  trial_eq : (u : Int) =
    if level.window.width = 1 then (t : Int) else t - (level.window.width - 1) + i
  trial_lt : u < b.trials
  applies : b.applies a u = true
  positive : z.isPositive = true
  var_eq : z.var = b.variableAt u (b.dataIndex a m)
  within : 0 < z.var ∧ z.var ≤ b.gridVariables

/-- All levels of the combination hold where the window that ends at trial `t` reads them: the
formula has one literal per argument, in order. -/
def Conjoins (b : Block) (level : DerivedLevel) (t : Nat) (ds : Combination) (φ : Formula) : Prop :=
  ∃ zs : List Literal, φ = .and (zs.map .literal) ∧ zs.length = level.arguments.length ∧
    ds.length = level.arguments.length ∧
    ∀ i z, zs[i]? = some z → ∃ a m u, ds[i]? = some (b.dataIndex a m) ∧
      b.ReadsLevel level t i a m u z

/-- What the formulas of a derivation are, in all trials. -/
structure ReadsArguments (b : Block) (table : DerivationTable) (drv : Derivation) (f : Nat)
    (level : DerivedLevel) : Prop where
  none_iff : ∀ t, b.derivedFormula drv t = .ok none ↔ b.applies f t = false
  /-- The window fits where the factor applies, and the formula has one member per combination that
  was admitted before it was moved. -/
  disjunction : ∃ admitted : List Combination, admitted.Pairwise (· < ·) ∧
    (∀ ds, ds ∈ admitted ↔ b.Admits table level ds) ∧
    drv.combinations = admitted.map (level.window.shift b.trialSize) ∧
    ∀ t, b.applies f t = true → level.window.firstTrial ≤ t ∧
      ∃ φs, b.derivedFormula drv t = .ok (some (.or φs)) ∧
        List.Forall₂ (b.Conjoins level t) admitted φs

/-! ## One combination -/

/-- An element of a combination that has been moved has its literal. -/
theorem Admits.exists_readsLevel (hb : b.WellFormed) (hr : b.InRange)
    (hds : b.Admits table level ds) (hl : (l, level) ∈ (b.design.factorAt f).derivedLevels)
    (happ : b.applies f t = true) {i x : Nat}
    (hi : (level.window.shift b.trialSize ds)[i]? = some x) :
    ∃ z a m u, Literal.positive (b.variableAt (t - level.window.firstTrial) x) = .ok z ∧
      ds[i]? = some (b.dataIndex a m) ∧ b.ReadsLevel level t i a m u z := by
  have hw := hb.faultless.window?_eq hl
  rw [Window.getElem?_shift, Option.map_eq_some_iff] at hi
  obtain ⟨d, hd, rfl⟩ := hi
  obtain ⟨argument, hargument, a, ha, m, hm, rfl, _⟩ :=
    Lists.getElem?_right_of_forall₂ hds.candidates.flip hd
  have happa := hb.applies_of_index? hw hl happ hargument ha
  obtain ⟨hlt, htrial, _⟩ := hb.applies_iff.mp happa
  have hindex := hb.dataIndex_lt hlt hm
  obtain ⟨z, hz⟩ := hr.exists_positive htrial hindex
  have hvar := Literal.var_of_positive hz
  have hle : z.var ≤ b.gridVariables := hvar ▸ hr.uncut.variableAt_le htrial hindex
  exact ⟨z, a, m, _, by rwa [variableAt_moved], hd, ⟨argument, hargument, ha⟩, hm,
    (hb.faultless.admits hw hl).cast_readTrial (hb.firstTrial_le hw happ), htrial, happa,
    Literal.isPositive_of_positive hz, hvar, Nat.pos_of_ne_zero z.var_ne_zero, hle⟩

/-- A combination of literals is their conjunction. -/
theorem combinationFormula_eq {start : Nat} {c : Combination} {zs : List Literal}
    (h : List.Forall₂ (fun x z => Literal.positive (b.variableAt start x) = .ok z) c zs) :
    b.combinationFormula start c = .ok (.and (zs.map .literal)) := by
  refine Outcome.map_eq_ok.mpr ⟨zs.map .literal, Outcome.mapM_eq_ok.mpr ?_, rfl⟩
  rw [List.forall₂_map_right_iff]
  exact h.imp fun x z hz => Outcome.map_eq_ok.mpr ⟨z, hz, rfl⟩

theorem Admits.exists_combinationFormula (hb : b.WellFormed) (hr : b.InRange)
    (hds : b.Admits table level ds) (hl : (l, level) ∈ (b.design.factorAt f).derivedLevels)
    (happ : b.applies f t = true) :
    ∃ φ, b.combinationFormula (t - level.window.firstTrial)
      (level.window.shift b.trialSize ds) = .ok φ ∧ b.Conjoins level t ds φ := by
  have hliteral : ∀ x ∈ level.window.shift b.trialSize ds,
      ∃ z, Literal.positive (b.variableAt (t - level.window.firstTrial) x) = .ok z := by
    intro x hx
    obtain ⟨i, hi⟩ := List.mem_iff_getElem?.mp hx
    obtain ⟨z, _, _, _, hz, _⟩ := hds.exists_readsLevel hb hr hl happ hi
    exact ⟨z, hz⟩
  obtain ⟨zs, hzs⟩ := Outcome.exists_mapM_eq_ok.mpr hliteral
  have hpairs := Outcome.mapM_eq_ok.mp hzs
  have hlength := hpairs.length_eq
  rw [Window.length_shift] at hlength
  refine ⟨_, combinationFormula_eq hpairs, zs, rfl, ?_, hds.candidates.length_eq.symm,
    fun i z hz => ?_⟩
  · rw [← hlength, hds.candidates.length_eq]
  · obtain ⟨x, hx, hpositive⟩ := Lists.getElem?_right_of_forall₂ hpairs.flip hz
    obtain ⟨z', a, m, u, hz', hd, hreads⟩ := hds.exists_readsLevel hb hr hl happ hx
    obtain rfl := Except.ok.inj (hz'.symm.trans hpositive)
    exact ⟨a, m, u, hd, hreads⟩

/-! ## All trials -/

theorem Listed.readsArguments (hb : b.WellFormed) (hr : b.InRange) {drv : Derivation}
    (hp : b.Listed table f level.window (l, level) drv) : b.ReadsArguments table drv f level := by
  obtain ⟨admitted, hsorted, hadmitted, hmoved⟩ := hp.derives.exists_admitted hb
  have heq := hp.derives.derivedFormula_eq hb hp.window hp.mem
  have hformula : ∀ t, b.applies f t = true → ∃ φs, b.derivedFormula drv t = .ok (some (.or φs)) ∧
      List.Forall₂ (b.Conjoins level t) admitted φs := by
    intro t happ
    obtain ⟨φs, hφs, hall⟩ := Outcome.exists_mapM_of_forall fun ds hds =>
      ((hadmitted ds).mp hds).exists_combinationFormula hb hr hp.mem happ
    refine ⟨φs, ?_, hall⟩
    rw [heq, if_pos happ, hmoved]
    refine Outcome.map_eq_ok.mpr ⟨φs, ?_, rfl⟩
    rw [List.mapM_map]
    exact hφs
  refine ⟨fun t => ?_, admitted, hsorted, hadmitted, hmoved, fun t happ =>
    ⟨hb.firstTrial_le hp.window happ, hformula t happ⟩⟩
  cases happ : b.applies f t with
  | false => simp [heq, happ]
  | true =>
    obtain ⟨φs, hφs, _⟩ := hformula t happ
    simp [hφs]

/-- **The formulas of derived levels read the levels that were combined**, in the trials of the
window. -/
theorem derivedFormula_reads (hb : b.Accepted) (hr : b.InRange)
    (htable : b.derivationTable = .ok table) :
    (∀ drv ∈ table.toList, ∃ f l level, b.levelAt? drv.level = some (f, l) ∧
      (l, level) ∈ (b.design.factorAt f).derivedLevels ∧ b.ReadsArguments table drv f level) ∧
    ∀ w : Window, w.width ≠ 1 → ∀ n ds, (w.shift n ds).mapIdx (fun i d => d - i * n) = ds := by
  have hwf := hb.wellFormed
  refine ⟨fun drv hdrv => ?_, fun w hw n ds => w.mapIdx_sub_shift hw n ds⟩
  obtain ⟨f, w, ⟨l, level⟩, hp⟩ :=
    ((tabulated_of_derivationTable hwf htable).mem_toList hwf).mp hdrv
  obtain rfl := Option.some.inj (hp.window.symm.trans (hwf.faultless.window?_eq hp.mem))
  refine ⟨f, l, level, ?_, hp.mem, hp.readsArguments hwf hr⟩
  rw [hp.derives.level_eq]
  exact hwf.levelAt?_dataIndex (Design.lt_of_window? hp.window) (lt_of_mem_derivedLevels hp.mem)

/-- Whether a hue repeats is not said of the first trial. In the second, it says that both hues are
warm or that both are cold: variables 3 and 4 of the first trial, and 10 and 11 of the second. -/
theorem derivedFormula_reads_hues :
    ∃ b table drv, fullyCrossed .hues ["color"] [] = .ok b ∧ b.derivationTable = .ok table ∧
      drv ∈ table.toList ∧ drv.level = 5 ∧ b.derivedFormula drv 0 = .ok none ∧
      ∃ level admitted φs, b.derivedFormula drv 1 = .ok (some (.or φs)) ∧
        List.Forall₂ (b.Conjoins level 1) admitted φs ∧ drv.combinations = [[2, 9], [3, 10]] ∧
        admitted.map (level.window.shift 7) = drv.combinations ∧
        φs.map (fun φ => φ.leaves.map Literal.code) = [[3, 10], [4, 11]] := by
  let three : Literal := ⟨3, by decide⟩
  let four : Literal := ⟨4, by decide⟩
  let ten : Literal := ⟨10, by decide⟩
  let eleven : Literal := ⟨11, by decide⟩
  have hblock : (fullyCrossed .hues ["color"] []).map
      (fun b => (decide (b.trials * b.trialSize ≤ maxVariable), b.trialSize, b.levelAt? 5,
        b.applies 2 0, b.applies 2 1)) = .ok (true, 7, some (2, 0), false, true) := by
    decide +kernel
  have hderived : (fullyCrossed .hues ["color"] []).map (fun b =>
      (b.derivationTable.map fun table => table.get? 5,
        decide (b.derivedFormula ⟨5, [[2, 9], [3, 10]]⟩ 1 = .ok (some (.or
          [.and [.literal three, .literal ten], .and [.literal four, .literal eleven]]))))) =
      .ok (.ok (some ⟨5, [[2, 9], [3, 10]]⟩), true) := by
    decide +kernel
  obtain ⟨b, hb, hblock⟩ := Outcome.map_eq_ok.mp hblock
  simp only [hb, Except.map, Except.ok.injEq, Prod.mk.injEq, decide_eq_true_eq] at hblock hderived
  obtain ⟨hr, hsize, hlevel, hfirst, hsecond⟩ := hblock
  obtain ⟨htable, hformula⟩ := hderived
  obtain ⟨table, htable, hentry⟩ := Outcome.map_eq_ok.mp htable
  have hmem : ⟨5, [[2, 9], [3, 10]]⟩ ∈ table.toList := DerivationTable.mem_toList.mpr ⟨5, hentry⟩
  obtain ⟨f, l, level, hf, _, hreads⟩ :=
    (derivedFormula_reads ⟨_, _, _, .inr hb⟩ hr htable).1 _ hmem
  obtain ⟨rfl, rfl⟩ := Prod.mk.inj (Option.some.inj (hlevel.symm.trans hf))
  obtain ⟨admitted, _, _, hmoved, hdisjunction⟩ := hreads.disjunction
  obtain ⟨_, φs, hφs, hall⟩ := hdisjunction 1 hsecond
  rw [hsize] at hmoved
  obtain rfl := Formula.or.inj (Option.some.inj (Except.ok.inj (hformula.symm.trans hφs)))
  exact ⟨b, table, _, hb, htable, hmem, rfl, (hreads.none_iff 0).mpr hfirst, level, admitted, _,
    hφs, hall, rfl, hmoved.symm, rfl⟩

end Block

end Counterbalance
