import Counterbalance.Proofs.Block.Cells
import Counterbalance.Proofs.Block.Derivation

/-! What the definitions of derived levels say, where every cell is filled as it should be: a factor
has a derived level exactly if the level's predicate accepts the names of the levels that the
arguments have where the window reads them. The domains of arguments are pruned to levels that can
hold; this makes no difference, because under the definitions only such levels are chosen. -/

namespace Counterbalance.Block

variable {b : Block} {g : Nat → Bool}

/-! ## Windows -/

/-- An element that is moved by its place in the window stands, from the start of the window on, for
the variable in the trial that is read. -/
theorem variableAt_moved (w : Window) (t i d : Nat) :
    b.variableAt (t - w.firstTrial) (if w.width = 1 then d else d + i * b.trialSize) =
      b.variableAt (w.readTrial t i) d := by
  unfold Window.readTrial
  split
  · rename_i hone
    rw [Window.firstTrial, hone, Nat.sub_self, Nat.sub_zero]
  · rw [variableAt_add_mul]

/-- The shifted elements of a combination, at the start of a window, are the elements where the
window reads them. -/
theorem forall_mem_shift {P : Nat → Prop} {w : Window} {t : Nat} {ds : Combination} :
    (∀ x ∈ w.shift b.trialSize ds, P (b.variableAt (t - w.firstTrial) x)) ↔
      ∀ i d, ds[i]? = some d → P (b.variableAt (w.readTrial t i) d) := by
  constructor
  · intro h i d hd
    rw [← variableAt_moved]
    refine h _ (List.mem_of_getElem? (i := i) ?_)
    rw [Window.getElem?_shift, hd, Option.map_some]
  · intro h x hx
    obtain ⟨i, hi⟩ := List.mem_iff_getElem?.mp hx
    rw [Window.getElem?_shift, Option.map_eq_some_iff] at hi
    obtain ⟨d, hd, rfl⟩ := hi
    rw [variableAt_moved]
    exact h i d hd

/-- The combination of levels that the assignment gives the arguments, where a window that ends at
trial `t` reads them. -/
structure ReadAt (b : Block) (g : Nat → Bool) (w : Window) (t : Nat) (arguments : List String)
    (ds : Combination) : Prop where
  length_eq : ds.length = arguments.length
  chosen : ∀ i argument, arguments[i]? = some argument → ∃ a l, b.design.index? argument = some a ∧
    b.Chosen g a (w.readTrial t i) l ∧ ds[i]? = some (b.dataIndex a l)

variable {f t l : Nat} {w : Window} {level : DerivedLevel}

/-- Where a derived factor applies, there is one combination to read. -/
theorem existsUnique_readAt (hb : b.WellFormed) (hg : b.Cells g)
    (hw : (b.design.factorAt f).window? = some w)
    (hl : (l, level) ∈ (b.design.factorAt f).derivedLevels) (happ : b.applies f t = true) :
    ∃! ds, b.ReadAt g w t level.arguments ds := by
  have hcell : ∀ i : Fin level.arguments.length, ∃ d, ∃ a m,
      b.design.index? level.arguments[i] = some a ∧ b.Chosen g a (w.readTrial t i) m ∧
        d = b.dataIndex a m := by
    intro i
    obtain ⟨a, ha, happa⟩ := hb.applies_argument hw hl happ (List.getElem?_eq_getElem i.isLt)
    obtain ⟨m, hm, _⟩ := hg.exact a _ happa
    exact ⟨_, a, m, ha, hm, rfl⟩
  choose d hd using hcell
  refine ⟨List.ofFn d, ⟨List.length_ofFn, fun i argument hi => ?_⟩, fun ds hds => ?_⟩
  · obtain ⟨hlt, rfl⟩ := List.getElem?_eq_some_iff.mp hi
    obtain ⟨a, m, ha, hm, hdata⟩ := hd ⟨i, hlt⟩
    refine ⟨a, m, ha, hm, ?_⟩
    rw [List.getElem?_ofFn, dif_pos hlt, hdata]
  · refine List.ext_getElem (hds.length_eq.trans List.length_ofFn.symm) fun i hi _ => ?_
    have hlt : i < level.arguments.length := hds.length_eq ▸ hi
    obtain ⟨a, m, ha, hm, hread⟩ := hds.chosen i _ (List.getElem?_eq_getElem hlt)
    obtain ⟨a', m', ha', hm', hdata⟩ := hd ⟨i, hlt⟩
    obtain rfl := Option.some.inj (ha.symm.trans ha')
    have happa := hb.applies_of_index? hw hl happ (List.getElem?_eq_getElem hlt) ha
    rw [List.getElem_ofFn, hdata, ← (hg.exact a _ happa).unique hm hm']
    rw [List.getElem?_eq_getElem hi] at hread
    exact Option.some.inj hread

/-- The derived levels are chosen as their predicates demand. -/
def Derived (b : Block) (g : Nat → Bool) : Prop :=
  ∀ f t w l level ds, (b.design.factorAt f).window? = some w →
    (l, level) ∈ (b.design.factorAt f).derivedLevels → b.applies f t = true →
    b.ReadAt g w t level.arguments ds →
      (b.Chosen g f t l ↔ level.predicate.accepts (ds.filterMap b.levelName?) = true)

/-- Only levels of factor `f` that can hold are chosen. -/
def Grounded (b : Block) (g : Nat → Bool) (table : DerivationTable) (f : Nat) : Prop :=
  ∀ t l, b.applies f t = true → b.Chosen g f t l → b.dataIndex f l ∈ b.domain table f

/-! ## The formula of one level in one trial -/

/-- Some combination of the derivation holds where the window reads it. -/
def Supported (b : Block) (g : Nat → Bool) (w : Window) (t : Nat) (drv : Derivation) : Prop :=
  ∃ ds ∈ drv.combinations, ∀ x ∈ ds, g (b.variableAt (t - w.firstTrial) x) = true

theorem supported_iff_exists {drv : Derivation} {domains : List (List Nat)}
    (hdrv : drv.combinations = (b.accepted level domains).map (w.shift b.trialSize)) :
    b.Supported g w t drv ↔ ∃ ds ∈ b.accepted level domains,
      ∀ i d, ds[i]? = some d → g (b.variableAt (w.readTrial t i) d) = true := by
  unfold Supported
  rw [hdrv]
  simp only [List.mem_map, exists_exists_and_eq_and, forall_mem_shift (P := fun v => g v = true)]

/-- A combination within the domains that holds where the window reads it is the one that is read
there. -/
theorem readAt_of_domains {table : DerivationTable} {domains : List (List Nat)}
    (hdomains : List.Forall₂
      (fun argument domain => ∃ a, b.design.index? argument = some a ∧ domain = b.domain table a)
      level.arguments domains)
    {ds : Combination} (hds : List.Forall₂ (fun i domain => i ∈ domain) ds domains)
    (hholds : ∀ i d, ds[i]? = some d → g (b.variableAt (w.readTrial t i) d) = true) :
    b.ReadAt g w t level.arguments ds := by
  refine ⟨hds.length_eq.trans hdomains.length_eq.symm, fun i argument hi => ?_⟩
  obtain ⟨domain, hdomain, a, ha, rfl⟩ := Lists.getElem?_right_of_forall₂ hdomains hi
  obtain ⟨d, hd, hmem⟩ := Lists.getElem?_right_of_forall₂ hds.flip hdomain
  obtain ⟨m, hm, rfl, _⟩ := mem_domain.mp hmem
  exact ⟨a, m, ha, ⟨hm, hholds i _ hd⟩, hd⟩

theorem ReadAt.holds {ds : Combination} (hds : b.ReadAt g w t level.arguments ds) :
    ∀ i d, ds[i]? = some d → g (b.variableAt (w.readTrial t i) d) = true := by
  intro i d hd
  have hlt : i < level.arguments.length := hds.length_eq ▸ (List.getElem?_eq_some_iff.mp hd).1
  obtain ⟨a, m, _, hm, hread⟩ := hds.chosen i _ (List.getElem?_eq_getElem hlt)
  rw [hd] at hread
  obtain rfl := Option.some.inj hread
  exact hm.2

/-- What is read lies within the domains, if only levels of the arguments that can hold are
chosen. -/
theorem ReadAt.mem_domains (hb : b.WellFormed) {table : DerivationTable}
    (hground : ∀ a, b.design.Reads f a → b.Grounded g table a)
    (hw : (b.design.factorAt f).window? = some w)
    (hl : (l, level) ∈ (b.design.factorAt f).derivedLevels) (happ : b.applies f t = true)
    {domains : List (List Nat)}
    (hdomains : List.Forall₂
      (fun argument domain => ∃ a, b.design.index? argument = some a ∧ domain = b.domain table a)
      level.arguments domains) {ds : Combination} (hds : b.ReadAt g w t level.arguments ds) :
    List.Forall₂ (fun i domain => i ∈ domain) ds domains := by
  have hlength := hds.length_eq.trans hdomains.length_eq
  refine Lists.forall₂_of_getElem? hlength fun i d domain hd hdomain => ?_
  obtain ⟨argument, hargument, a, ha, rfl⟩ := Lists.getElem?_right_of_forall₂ hdomains.flip hdomain
  obtain ⟨a', m, ha', hm, hread⟩ := hds.chosen i argument hargument
  obtain rfl := Option.some.inj (ha.symm.trans ha')
  rw [hd] at hread
  obtain rfl := Option.some.inj hread
  have hreads := Design.reads_of_argument hl (List.mem_of_getElem? hargument) ha
  exact hground a hreads _ m (hb.applies_of_index? hw hl happ hargument ha) hm

/-- If only levels of the arguments that can hold are chosen, a derivation is supported exactly if
the predicate accepts something that is read. Which levels the other ones are makes no
difference. -/
theorem supported_iff_exists_readAt (hb : b.WellFormed) {table : DerivationTable}
    (hground : ∀ a, b.design.Reads f a → b.Grounded g table a)
    (hw : (b.design.factorAt f).window? = some w)
    (hl : (l, level) ∈ (b.design.factorAt f).derivedLevels) (happ : b.applies f t = true)
    {drv : Derivation} (hdrv : b.Derives table f l w level drv) :
    b.Supported g w t drv ↔ ∃ ds, b.ReadAt g w t level.arguments ds ∧
      level.predicate.accepts (ds.filterMap b.levelName?) = true := by
  obtain ⟨_, domains, hdomains, rfl⟩ := hdrv
  rw [supported_iff_exists rfl]
  constructor
  · intro h
    obtain ⟨ds, hds, hholds⟩ := h
    obtain ⟨hmem, haccepts⟩ := mem_accepted.mp hds
    exact ⟨ds, readAt_of_domains hdomains hmem hholds, haccepts⟩
  · intro h
    obtain ⟨ds, hds, haccepts⟩ := h
    exact ⟨ds, mem_accepted.mpr ⟨hds.mem_domains hb hground hw hl happ hdomains, haccepts⟩,
      hds.holds⟩

/-- Where the cells are filled as they should be, there is one combination to accept. -/
theorem supported_iff (hb : b.WellFormed) (hg : b.Cells g) {table : DerivationTable}
    (hground : ∀ a, b.design.Reads f a → b.Grounded g table a)
    (hw : (b.design.factorAt f).window? = some w)
    (hl : (l, level) ∈ (b.design.factorAt f).derivedLevels) (happ : b.applies f t = true)
    {drv : Derivation} (hdrv : b.Derives table f l w level drv) {ds : Combination}
    (hds : b.ReadAt g w t level.arguments ds) :
    b.Supported g w t drv ↔ level.predicate.accepts (ds.filterMap b.levelName?) = true := by
  rw [supported_iff_exists_readAt hb hground hw hl happ hdrv]
  constructor
  · intro h
    obtain ⟨ds', hds', haccepts⟩ := h
    rwa [(existsUnique_readAt hb hg hw hl happ).unique hds hds']
  · intro haccepts
    exact ⟨ds, hds, haccepts⟩

/-- What holds of all trial variables holds of those that a window reads. -/
theorem forall_variableAt_of_derives (hb : b.WellFormed) {P : Nat → Prop}
    (hP : ∀ u < b.trials, ∀ d < b.trialSize, P (b.variableAt u d)) {table : DerivationTable}
    (hw : (b.design.factorAt f).window? = some w)
    (hl : (l, level) ∈ (b.design.factorAt f).derivedLevels) (happ : b.applies f t = true)
    {drv : Derivation} (hdrv : b.Derives table f l w level drv) :
    ∀ ds ∈ drv.combinations, ∀ x ∈ ds, P (b.variableAt (t - w.firstTrial) x) := by
  obtain ⟨_, domains, hdomains, rfl⟩ := hdrv
  intro ds hds
  obtain ⟨ds', hds', rfl⟩ := List.mem_map.mp hds
  rw [forall_mem_shift]
  intro i d hd
  obtain ⟨domain, hdomain, hmem⟩ := Lists.getElem?_right_of_forall₂ (mem_accepted.mp hds').1 hd
  obtain ⟨argument, hargument, a, ha, rfl⟩ := Lists.getElem?_right_of_forall₂ hdomains.flip hdomain
  obtain ⟨m, hm, rfl, _⟩ := mem_domain.mp hmem
  obtain ⟨hlt, htrial, _⟩ := hb.applies_iff.mp (hb.applies_of_index? hw hl happ hargument ha)
  exact hP _ htrial _ (hb.dataIndex_lt hlt hm)

theorem means_combinationFormula {n start : Nat} {ds : Combination} {φ : Formula}
    (h : b.combinationFormula start ds = .ok φ) (hn : ∀ x ∈ ds, b.variableAt start x ≤ n) :
    φ.Means n fun ν => ∀ x ∈ ds, ν (b.variableAt start x) = true := by
  obtain ⟨φs, hφs, rfl⟩ := Outcome.map_eq_ok.mp h
  refine Formula.Means.and (Outcome.forall₂_of_mapM hφs fun x hx ψ hψ => ?_)
  obtain ⟨z, hz, rfl⟩ := Outcome.map_eq_ok.mp hψ
  exact Formula.Means.literal hz (hn x hx)

/-- The formula of a derivation is a disjunction over its combinations, wherever its factor
applies. -/
theorem Derives.derivedFormula_eq (hb : b.WellFormed) {table : DerivationTable}
    (hw : (b.design.factorAt f).window? = some w)
    (hl : (l, level) ∈ (b.design.factorAt f).derivedLevels) {drv : Derivation}
    (hdrv : b.Derives table f l w level drv) (t : Nat) :
    b.derivedFormula drv t = if b.applies f t then
      (drv.combinations.mapM (b.combinationFormula (t - w.firstTrial))).map fun φs => some (.or φs)
      else .ok none := by
  have hlevel := hb.levelAt?_dataIndex (Design.lt_of_window? hw) (lt_of_mem_derivedLevels hl)
  simp only [derivedFormula, hdrv.level_eq, hlevel, hw]

/-- The definition of a level in a trial says that the level is chosen exactly if it is
supported. -/
theorem means_derivedDefinition (hb : b.WellFormed) (hr : b.InRange) {table : DerivationTable}
    (hw : (b.design.factorAt f).window? = some w)
    (hl : (l, level) ∈ (b.design.factorAt f).derivedLevels) (happ : b.applies f t = true)
    {drv : Derivation} (hdrv : b.Derives table f l w level drv) {φ? : Option Formula}
    (h : b.derivedDefinition drv t = .ok φ?) :
    ∃ φ, φ? = some φ ∧
      φ.Means b.gridVariables fun ν => b.Chosen ν f t l ↔ b.Supported ν w t drv := by
  obtain ⟨hf, ht, _⟩ := hb.applies_iff.mp happ
  have hlt := lt_of_mem_derivedLevels hl
  have hindex := hdrv.level_eq
  obtain ⟨body?, hbody, h⟩ := Outcome.bind_eq_ok.mp h
  rw [hdrv.derivedFormula_eq hb hw hl, if_pos happ] at hbody
  obtain ⟨φs, hφs, rfl⟩ := Outcome.map_eq_ok.mp hbody
  obtain ⟨own, hown, h⟩ := Outcome.bind_eq_ok.mp h
  obtain rfl := Except.ok.inj h
  refine ⟨_, rfl, Formula.Means.iff ?_ ?_⟩
  · obtain ⟨z, hz, rfl⟩ := Outcome.map_eq_ok.mp hown
    rw [hindex] at hz
    have hle := hr.uncut.variableAt_le ht (hb.dataIndex_lt hf hlt)
    exact (Formula.Means.literal hz hle).congr fun ν => (and_iff_right hlt).symm
  · have hle := forall_variableAt_of_derives hb (P := (· ≤ b.gridVariables))
      (fun u hu d hd => hr.uncut.variableAt_le hu hd) hw hl happ hdrv
    exact Formula.Means.or (Outcome.forall₂_of_mapM hφs fun ds hds ψ hψ =>
      means_combinationFormula hψ (hle ds hds))

/-! ## All definitions -/

/-- The formulas of one derivation, one per trial in which its factor applies. -/
theorem definitionsOf_eq (hb : b.WellFormed) {drv : Derivation} (hf : f < b.design.length)
    (hl : l < (b.design.factorAt f).size) (hlevel : drv.level = b.dataIndex f l) :
    b.definitionsOf drv = ((b.applyingTrials f).mapM (b.derivedDefinition drv)).map
      (List.filterMap id) := by
  unfold definitionsOf
  rw [hlevel, hb.levelAt?_dataIndex hf hl]

theorem Listed.definitionsOf_eq_ok (hb : b.WellFormed) {table : DerivationTable}
    {p : Nat × DerivedLevel} {drv : Derivation} (hp : b.Listed table f w p drv)
    {φs : List Formula} (h : b.definitionsOf drv = .ok φs) :
    ∃ φs?, (b.applyingTrials f).mapM (b.derivedDefinition drv) = .ok φs? ∧
      φs = φs?.filterMap id := by
  rw [definitionsOf_eq hb (Design.lt_of_window? hp.window) (lt_of_mem_derivedLevels hp.mem)
    hp.derives.level_eq] at h
  obtain ⟨φs?, hφs, rfl⟩ := Outcome.map_eq_ok.mp h
  exact ⟨φs?, hφs, rfl⟩

/-- The formulas of the definitions: one per derivation and trial in which its factor applies. -/
theorem mem_definitions (hb : b.WellFormed) {table : DerivationTable}
    (ht : b.Tabulated b.order table) {φs : List Formula} (h : b.definitions table = .ok φs)
    {φ : Formula} :
    φ ∈ φs ↔ ∃ f w p drv t, b.Listed table f w p drv ∧ b.applies f t = true ∧
      b.derivedDefinition drv t = .ok (some φ) := by
  rw [Outcome.mem_iff_of_flatten h]
  constructor
  · intro h
    obtain ⟨drv, hdrv, ψs, hψs, hφ⟩ := h
    obtain ⟨f, w, p, hp⟩ := (ht.mem_toList hb).mp hdrv
    obtain ⟨φs?, hφs, rfl⟩ := hp.definitionsOf_eq_ok hb hψs
    obtain ⟨φ?, hφ?, hsome⟩ := List.mem_filterMap.mp hφ
    obtain ⟨t, htrial, ht⟩ := (Outcome.mem_iff_of_mapM hφs).mp hφ?
    rw [show φ? = some φ from hsome] at ht
    exact ⟨f, w, p, drv, t, hp, hb.mem_applyingTrials.mp htrial, ht⟩
  · intro h
    obtain ⟨f, w, p, drv, t, hp, happ, hφ⟩ := h
    have hdrv := (ht.mem_toList hb).mpr ⟨f, w, p, hp⟩
    obtain ⟨ψs, hψs⟩ := Outcome.exists_ok_of_flatten h hdrv
    obtain ⟨φs?, hφs, rfl⟩ := hp.definitionsOf_eq_ok hb hψs
    refine ⟨drv, hdrv, _, hψs, List.mem_filterMap.mpr ⟨some φ, ?_, rfl⟩⟩
    exact (Outcome.mem_iff_of_mapM hφs).mpr ⟨t, hb.mem_applyingTrials.mpr happ, hφ⟩

/-- Every derivation has its formula in every trial in which its factor applies. -/
theorem exists_derivedDefinition (hb : b.WellFormed) {table : DerivationTable}
    (ht : b.Tabulated b.order table) {φs : List Formula} (h : b.definitions table = .ok φs)
    {p : Nat × DerivedLevel} {drv : Derivation} (hp : b.Listed table f w p drv)
    (happ : b.applies f t = true) : ∃ φ?, b.derivedDefinition drv t = .ok φ? := by
  obtain ⟨ψs, hψs⟩ := Outcome.exists_ok_of_flatten h ((ht.mem_toList hb).mpr ⟨f, w, p, hp⟩)
  obtain ⟨φs?, hφs, _⟩ := hp.definitionsOf_eq_ok hb hψs
  exact Outcome.exists_ok_of_mapM hφs (hb.mem_applyingTrials.mpr happ)

/-- The definitions say that derived levels are chosen exactly if they are supported. -/
theorem means_definitions (hb : b.WellFormed) (hr : b.InRange) {table : DerivationTable}
    (ht : b.Tabulated b.order table) {φs : List Formula} (h : b.definitions table = .ok φs) :
    (Formula.and φs).Means b.gridVariables fun ν => ∀ f w p drv t, b.Listed table f w p drv →
      b.applies f t = true → (b.Chosen ν f t p.1 ↔ b.Supported ν w t drv) := by
  refine Formula.Means.and_iff.mpr ⟨fun φ hφ => ?_, fun ν => ⟨fun hall => ?_, fun hall φ hφ => ?_⟩⟩
  · obtain ⟨f, w, p, drv, t, hp, happ, hdef⟩ := (mem_definitions hb ht h).mp hφ
    obtain ⟨ψ, hψ, hmeans⟩ := means_derivedDefinition hb hr hp.window hp.mem happ hp.derives hdef
    exact Option.some.inj hψ ▸ hmeans.within
  · intro f w p drv t hp happ
    obtain ⟨φ?, hdef⟩ := exists_derivedDefinition hb ht h hp happ
    obtain ⟨φ, rfl, hmeans⟩ := means_derivedDefinition hb hr hp.window hp.mem happ hp.derives hdef
    have hφ : φ ∈ φs := (mem_definitions hb ht h).mpr ⟨f, w, p, drv, t, hp, happ, hdef⟩
    exact (hmeans.eval_iff ν).mp (hall φ hφ)
  · obtain ⟨f, w, p, drv, t, hp, happ, hdef⟩ := (mem_definitions hb ht h).mp hφ
    obtain ⟨ψ, hψ, hmeans⟩ := means_derivedDefinition hb hr hp.window hp.mem happ hp.derives hdef
    obtain rfl := Option.some.inj hψ
    exact (hmeans.eval_iff ν).mpr (hall f w p drv t hp happ)

/-! ## Pruned domains -/

/-- A level with a derivation of some combination is in the domain of its factor, and so is every
level of a simple factor. -/
theorem mem_domain_of_listed (hb : b.WellFormed) {table : DerivationTable}
    (ht : b.Tabulated b.order table) (hl : l < (b.design.factorAt f).size)
    (h : ∀ w p drv, p.1 = l → b.Listed table f w p drv → drv.combinations ≠ []) :
    b.dataIndex f l ∈ b.domain table f := by
  refine mem_domain.mpr ⟨l, hl, rfl, fun hderived => ?_⟩
  obtain ⟨w, hw⟩ := Option.isSome_iff_exists.mp hderived
  obtain ⟨level, hlevel⟩ := (hb.faultless.fitsAt (Design.lt_of_window? hw)).derived w hw l hl
  obtain ⟨drv, hdrv⟩ := ht.exists_listed hb hw hlevel
  exact ⟨drv, hdrv.get?_eq, h w _ drv rfl hdrv⟩

/-- Supported levels can hold. -/
theorem grounded_of_supported (hb : b.WellFormed) {table : DerivationTable}
    (ht : b.Tabulated b.order table)
    (h : ∀ f w p drv t, b.Listed table f w p drv → b.applies f t = true →
      (b.Chosen g f t p.1 ↔ b.Supported g w t drv)) (f : Nat) : b.Grounded g table f := by
  intro t l happ hchosen
  refine mem_domain_of_listed hb ht hchosen.1 fun w p drv hl hp hempty => ?_
  obtain ⟨ds, hds, _⟩ := (h f w p drv t hp happ).mp (hl ▸ hchosen)
  rw [hempty] at hds
  cases hds

/-- Levels chosen as the predicates demand can hold: the combination that is read is accepted, and
lies within the domains by induction along the arguments. -/
theorem grounded_of_derived (hb : b.WellFormed) (hg : b.Cells g) {table : DerivationTable}
    (ht : b.Tabulated b.order table) (h : b.Derived g) : ∀ f ∈ b.order, b.Grounded g table f := by
  refine hb.ordered.induct fun f hf ih t l happ hchosen => ?_
  refine mem_domain_of_listed hb ht hchosen.1 fun w p drv hl hp hempty => ?_
  obtain ⟨ds, hds, _⟩ := existsUnique_readAt hb hg hp.window hp.mem happ
  have haccepts := (h f t w p.1 p.2 ds hp.window hp.mem happ hds).mp (hl ▸ hchosen)
  obtain ⟨ds', hds', _⟩ :=
    (supported_iff hb hg ih hp.window hp.mem happ hp.derives hds).mpr haccepts
  rw [hempty] at hds'
  cases hds'

/-- **Pruning the domains makes no difference.** Where the cells are filled as they should be,
derived levels are supported exactly if they are chosen as their predicates demand. -/
theorem supported_iff_derived (hb : b.WellFormed) (hg : b.Cells g) {table : DerivationTable}
    (ht : b.Tabulated b.order table) :
    (∀ f w p drv t, b.Listed table f w p drv → b.applies f t = true →
      (b.Chosen g f t p.1 ↔ b.Supported g w t drv)) ↔ b.Derived g := by
  constructor
  · intro hall f t w l level ds hw hl happ hds
    obtain ⟨drv, hp⟩ := ht.exists_listed hb hw hl
    have hground : ∀ a, b.design.Reads f a → b.Grounded g table a :=
      fun a _ => grounded_of_supported hb ht hall a
    exact (hall f w _ drv t hp happ).trans (supported_iff hb hg hground hw hl happ hp.derives hds)
  · intro hderived f w p drv t hp happ
    obtain ⟨ds, hds, _⟩ := existsUnique_readAt hb hg hp.window hp.mem happ
    have hf := hb.mem_order f (Design.lt_of_window? hp.window)
    have hground : ∀ a, b.design.Reads f a → b.Grounded g table a := fun a ha =>
      grounded_of_derived hb hg ht hderived a (hb.ordered.mem_of_reads hf ha)
    rw [supported_iff hb hg hground hp.window hp.mem happ hp.derives hds]
    exact hderived f t w p.1 p.2 ds hp.window hp.mem happ hds

end Counterbalance.Block
