import Mathlib.Data.Nat.Choose.Basic
import Counterbalance.Proofs.Block.Capacity
import Counterbalance.Proofs.Block.Correspondence
import Counterbalance.Proofs.Block.Models
import Counterbalance.Proofs.Logic.Freshness

/-! The books of a compilation. Its variables are the trial variables and one auxiliary variable per
emission, and each of them is mentioned: trial variables by the layout, auxiliary variables by the
clauses that define them. How many clauses and formulas there are is told by the sizes of the
factors, the trials in which they apply, the crossing and the constraints. -/

namespace Counterbalance

/-- The variable occurs in a clause. -/
def Cnf.Mentions (c : Cnf) (v : Nat) : Prop := ∃ d ∈ c.toList, ∃ l ∈ d, l.var = v

/-- Derived levels are listed in the order of their positions. -/
theorem Factor.pairwise_derivedLevels (f : Factor) :
    f.derivedLevels.Pairwise fun p q => p.1 < q.1 := by
  have hpositions : f.levels.zipIdx.Pairwise fun x y => x.2 < y.2 := by
    rw [← List.pairwise_map (f := Prod.snd) (R := (· < ·)), List.zipIdx_map_snd]
    exact List.pairwise_lt_range'
  rw [derivedLevels, List.pairwise_filterMap]
  refine hpositions.imp fun {x y} hxy p hp q hq => ?_
  obtain ⟨_, _, rfl⟩ := Option.map_eq_some_iff.mp hp
  obtain ⟨_, _, rfl⟩ := Option.map_eq_some_iff.mp hq
  exact hxy

namespace Session

variable {s s₁ s' : Session} {es ds : List Emission} {m n : Nat}

/-! ## Assertions -/

/-- The second session comes from the first by asserting `n` formulas with these emissions. -/
structure Asserted (s : Session) (n : Nat) (es : List Emission) (s' : Session) : Prop where
  ids_eq : es.map Emission.id = List.range' (s.supply.last + 1) es.length
  last_eq : s'.supply.last = s.supply.last + es.length
  formulas_eq : s'.stats.formulas = s.stats.formulas + n
  last_le : s.supply.last ≤ maxVariable → s'.supply.last ≤ maxVariable
  accounted : ∀ {memoize past}, Accounted memoize past s → Accounted memoize (past ++ es) s'
  keeps : ∀ d ∈ s.cnf.toList, d ∈ s'.cnf.toList
  written : ∀ e ∈ es, ∀ d ∈ e.clauses, d ∈ s'.cnf.toList

theorem Asserted.refl (s : Session) : s.Asserted 0 [] s where
  ids_eq := rfl
  last_eq := rfl
  formulas_eq := rfl
  last_le := id
  accounted := fun h => by rwa [List.append_nil]
  keeps := fun _ => id
  written := nofun

theorem Asserted.trans (h : s.Asserted m ds s₁) (h' : s₁.Asserted n es s') :
    s.Asserted (m + n) (ds ++ es) s' where
  ids_eq := by
    rw [List.map_append, h.ids_eq, h'.ids_eq, h.last_eq, List.length_append, Nat.add_right_comm,
      List.range'_append_1]
  last_eq := by rw [h'.last_eq, h.last_eq, List.length_append, Nat.add_assoc]
  formulas_eq := by rw [h'.formulas_eq, h.formulas_eq, Nat.add_assoc]
  last_le := fun hle => h'.last_le (h.last_le hle)
  accounted := fun hs => by
    rw [← List.append_assoc]
    exact h'.accounted (h.accounted hs)
  keeps := fun d hd => h'.keeps d (h.keeps d hd)
  written :=
    List.forall_mem_append.mpr ⟨fun e he d hd => h'.keeps d (h.written e he d hd), h'.written⟩

theorem exists_asserted_of_assert {f : Formula} (h : s.assert f = .ok s') :
    ∃ es, s.Asserted 1 es s' := by
  obtain ⟨z, s₁, he, rfl⟩ := assert_eq_ok.mp h
  obtain ⟨es, hes⟩ := exists_emits_of_encode he
  have hemitted := hes.emitted
  have hcnf :
      (s₁.addClause [z]).cnf.toList = s.cnf.toList ++ es.flatMap Emission.clauses ++ [[z]] := by
    rw [← hemitted.cnf_eq]
    exact Cnf.toList_push _ _
  refine ⟨es, hemitted.ids_eq, hemitted.last_eq, hemitted.formulas_eq, hemitted.last_le,
    fun hs => ?_, fun d hd => ?_, fun e he d hd => ?_⟩
  · exact (hs.counted.emitted hemitted).addClauses [[z]]
  · rw [hcnf]
    exact List.mem_append_left _ (List.mem_append_left _ hd)
  · rw [hcnf]
    exact List.mem_append_left _ (List.mem_append_right _ (List.mem_flatMap.mpr ⟨e, he, hd⟩))

theorem exists_asserted_of_assertAll {φs : List Formula} (h : s.assertAll φs = .ok s') :
    ∃ es, s.Asserted φs.length es s' := by
  induction φs generalizing s with
  | nil =>
    obtain rfl := Except.ok.inj h
    exact ⟨[], Asserted.refl s⟩
  | cons φ φs ih =>
    rw [assertAll, List.foldlM_cons] at h
    obtain ⟨s₁, hφ, h⟩ := Outcome.bind_eq_ok.mp h
    obtain ⟨ds, hds⟩ := exists_asserted_of_assert hφ
    obtain ⟨es, hes⟩ := ih h
    refine ⟨ds ++ es, ?_⟩
    rw [List.length_cons, Nat.add_comm]
    exact hds.trans hes

/-- The variables that assertions draw are mentioned by the clauses that define them. -/
theorem Asserted.mentions (h : s.Asserted n es s') {v : Nat} (hlt : s.supply.last < v)
    (hle : v ≤ s'.supply.last) : s'.cnf.Mentions v := by
  have hmem : v ∈ es.map Emission.id := by
    rw [h.ids_eq, List.mem_range'_1]
    have := h.last_eq
    omega
  obtain ⟨e, he, rfl⟩ := List.mem_map.mp hmem
  obtain ⟨d, hd, l, hl, hvar⟩ := e.gate.exists_output_mem e.output
  exact ⟨d, h.written e he d hd, l, hl, hvar⟩

end Session

namespace Block

variable {b : Block} {options : Options} {c : Compilation}

/-! ## Layout -/

theorem length_pairwiseExclusive (ls : List Literal) :
    (pairwiseExclusive ls).length = ls.length.choose 2 := by
  induction ls with
  | nil => rfl
  | cons l ls ih =>
    rw [pairwiseExclusive, List.length_append, List.length_map, ih, List.length_cons,
      Nat.choose_succ_succ, Nat.choose_one_right]

/-- The number of clauses of a cell: one that demands a level and one for each two levels, where the
factor applies, and one for each level where it does not. -/
def cellSize (b : Block) (f t : Nat) : Nat :=
  let n := (b.design.factorAt f).size
  if b.applies f t then 1 + n * (n - 1) / 2 else n

theorem length_cellClauses {f t : Nat} {cs : List Clause} (h : b.cellClauses true f t = .ok cs) :
    cs.length = b.cellSize f t := by
  obtain ⟨ls, hls, rfl⟩ := cellClauses_eq_ok.mp h
  have hlength : ls.length = (b.design.factorAt f).size := by
    rw [← (Outcome.mapM_eq_ok.mp hls).length_eq, List.length_range]
  unfold cellSize
  split
  · rw [List.length_cons, length_pairwiseExclusive, hlength, Nat.choose_two_right, Nat.add_comm]
  · rw [List.length_map, hlength]

theorem length_layoutClauses {cs : List Clause} (h : b.layoutClauses true = .ok cs) :
    cs.length = ((List.range b.design.length).map fun f =>
      ((List.range b.trials).map (b.cellSize f)).sum).sum :=
  Outcome.length_of_flatten h fun _ _ _ hcells =>
    Outcome.length_of_flatten hcells fun _ _ _ => length_cellClauses

/-- The layout mentions all trial variables. -/
theorem mentions_layoutClauses (hb : b.WellFormed) {cs : List Clause}
    (h : b.layoutClauses true = .ok cs) {v : Nat} (hpos : 0 < v) (hle : v ≤ b.gridVariables) :
    ∃ d ∈ cs, ∃ l ∈ d, l.var = v := by
  have hr := inRange_of_layoutClauses hb h
  obtain ⟨t, ht, i, hi, rfl⟩ := hr.uncut.exists_variableAt_eq hpos hle
  obtain ⟨f, m, hf, hm, rfl⟩ := hb.exists_dataIndex_eq hi
  obtain ⟨hcells, hmem⟩ := layoutClauses_eq_ok h
  obtain ⟨ds, hds⟩ := hcells f hf t ht
  have hcell : ∀ d ∈ ds, d ∈ cs := fun d hd => (hmem d).mpr ⟨f, hf, t, ht, ds, hds, hd⟩
  obtain ⟨ls, hls, rfl⟩ := cellClauses_eq_ok.mp hds
  obtain ⟨x, hx, hlit⟩ :=
    Lists.exists_right_of_mem (Outcome.mapM_eq_ok.mp hls) (List.mem_range.mpr hm)
  have hvar : x.var = b.variableAt t (b.dataIndex f m) := Literal.var_of_positive hlit
  split at hcell
  · exact ⟨ls, hcell ls List.mem_cons_self, x, hx, hvar⟩
  · refine ⟨[-x], hcell _ (List.mem_map.mpr ⟨x, hx, rfl⟩), -x, List.mem_cons_self, ?_⟩
    rw [Literal.var_neg, hvar]

/-! ## Formulas -/

theorem length_crossingPart {full : Bool} {φs : List Formula} (h : b.crossingPart full = .ok φs) :
    φs.length = if full then b.crossingSize else 0 := by
  unfold crossingPart at h
  split at h
  · rw [crossingFormulas_eq_mapM] at h
    rw [if_pos ‹_›, ← (Outcome.mapM_eq_ok.mp h).length_eq, length_product_dataIndices]
  · rw [if_neg ‹_›, ← Except.ok.inj h, List.length_nil]

/-- A derivation has one definition per trial in which its factor applies. -/
theorem length_definitionsOf (hb : b.WellFormed) (hr : b.InRange) {table : DerivationTable}
    (ht : b.Tabulated b.order table) {drv : Derivation} (hdrv : drv ∈ table.toList)
    {φs : List Formula} (h : b.definitionsOf drv = .ok φs) :
    φs.length = (b.definedTrials drv).length := by
  obtain ⟨f, w, p, hp⟩ := (ht.mem_toList hb).mp hdrv
  obtain ⟨φs?, hφs, rfl⟩ := hp.definitionsOf_eq_ok hb h
  have hall : List.Forall₂
      (fun φ? (t : Nat) => ∃ φ, id φ? = some φ ∧ b.derivedDefinition drv t = .ok (some φ))
      φs? (b.applyingTrials f) := by
    refine (Outcome.forall₂_of_mapM hφs fun t ht φ? hφ? => ?_).flip
    obtain ⟨φ, rfl, _⟩ :=
      means_derivedDefinition hb hr hp.window hp.mem (hb.mem_applyingTrials.mp ht) hp.derives hφ?
    exact ⟨φ, rfl, hφ?⟩
  rw [(Lists.forall₂_filterMap hall).length_eq, hp.definedTrials_eq hb]

/-- The data indices of all derived levels, factor by factor. -/
def derivedIndices (b : Block) : List Nat :=
  (List.range b.design.length).flatMap fun f => (b.design.factorAt f).derivedLevels.map fun p =>
    b.dataIndex f p.1

theorem nodup_derivedIndices (hb : b.WellFormed) : b.derivedIndices.Nodup := by
  rw [derivedIndices, List.nodup_flatMap]
  constructor
  · intro f _
    refine List.pairwise_map.mpr
      ((b.design.factorAt f).pairwise_derivedLevels.imp fun hlt heq => ?_)
    exact Nat.ne_of_lt hlt (Nat.add_left_cancel heq)
  · refine List.nodup_range.imp_of_mem fun {f g} hf hg hne i hi hi' => ?_
    obtain ⟨p, hp, rfl⟩ := List.mem_map.mp hi
    obtain ⟨q, hq, heq⟩ := List.mem_map.mp hi'
    exact hne (hb.dataIndex_inj (List.mem_range.mp hf) (lt_of_mem_derivedLevels hp)
      (List.mem_range.mp hg) (lt_of_mem_derivedLevels hq) heq.symm).1

/-- The table has the derivations of all derived levels. -/
theorem Exact.perm_derivedIndices (hb : b.WellFormed) {table : DerivationTable}
    (h : b.Exact table) : (table.toList.map Derivation.level).Perm b.derivedIndices := by
  have hnodup : (table.toList.map Derivation.level).Nodup :=
    List.pairwise_map.mpr ((DerivationTable.pairwise_toList h.level_eq).imp Nat.ne_of_lt)
  refine (List.perm_ext_iff_of_nodup hnodup (nodup_derivedIndices hb)).mpr fun i => ?_
  have hlisted : i ∈ table.toList.map Derivation.level ↔ ∃ drv, table.get? i = some drv := by
    rw [List.mem_map]
    constructor
    · rintro ⟨drv, hdrv, rfl⟩
      obtain ⟨j, hj⟩ := DerivationTable.mem_toList.mp hdrv
      exact ⟨drv, h.level_eq j drv hj ▸ hj⟩
    · rintro ⟨drv, hi⟩
      exact ⟨drv, DerivationTable.mem_toList.mpr ⟨i, hi⟩, h.level_eq i drv hi⟩
  rw [hlisted, h.exists_iff, derivedIndices, List.mem_flatMap]
  refine exists_congr fun f => ?_
  rw [List.mem_map, List.mem_range]
  constructor
  · rintro ⟨p, hp, rfl⟩
    exact ⟨Design.lt_of_window? (hb.faultless.window?_eq hp), p, hp, rfl⟩
  · rintro ⟨_, p, hp, rfl⟩
    exact ⟨p, hp, rfl⟩

/-- There is one definition per derived level and trial in which its factor applies. -/
theorem length_definitions (hb : b.WellFormed) (hr : b.InRange) {table : DerivationTable}
    (ht : b.Tabulated b.order table) {φs : List Formula} (h : b.definitions table = .ok φs) :
    φs.length = ((List.range b.design.length).map fun f =>
      ((b.design.factorAt f).derivedLevels.map fun _ => (b.applyingTrials f).length).sum).sum := by
  let trials : Nat → Nat := fun i => (b.definedTrials ⟨i, []⟩).length
  have hlevels : ∀ f ∈ List.range b.design.length, ∀ p ∈ (b.design.factorAt f).derivedLevels,
      trials (b.dataIndex f p.1) = (b.applyingTrials f).length := by
    intro f hf p hp
    show (b.definedTrials ⟨b.dataIndex f p.1, []⟩).length = _
    rw [definedTrials, hb.levelAt?_dataIndex (List.mem_range.mp hf) (lt_of_mem_derivedLevels hp)]
  calc φs.length
      = (table.toList.map fun drv => trials drv.level).sum :=
        Outcome.length_of_flatten h fun drv hdrv ψs hψs => length_definitionsOf hb hr ht hdrv hψs
    _ = (b.derivedIndices.map trials).sum := by
        rw [← ((ht.exact hb).perm_derivedIndices hb).map trials |>.sum_eq, List.map_map]
        rfl
    _ = _ := by
        rw [derivedIndices, List.map_flatMap, List.flatMap_def, List.sum_flatten, List.map_map]
        refine congrArg List.sum (List.map_congr_left fun f hf => ?_)
        rw [Function.comp_apply, List.map_map]
        exact congrArg List.sum (List.map_congr_left (hlevels f hf))

/-! ## The books -/

/-- What the numbers of a compilation say. -/
structure Accounts (b : Block) (options : Options) (c : Compilation) : Prop where
  mentions_iff : ∀ v, c.cnf.Mentions v ↔ 0 < v ∧ v ≤ c.varCount
  varCount_eq : c.varCount = b.gridVariables + c.stats.encoding.auxiliaries
  clauses_eq : c.stats.encoding.clauses = c.cnf.size
  formulas_eq : c.stats.encoding.formulas =
    c.stats.derivedFormulas + c.stats.crossingFormulas + c.stats.constraintFormulas
  /-- One formula per derived level and trial in which its factor applies. -/
  derivedFormulas_eq : c.stats.derivedFormulas = ((List.range b.design.length).map fun f =>
    ((b.design.factorAt f).derivedLevels.map fun _ => (b.applyingTrials f).length).sum).sum
  crossingFormulas_eq : c.stats.crossingFormulas =
    if options.fullCrossing then b.crossingSize else 0
  constraintFormulas_eq : ∃ φss, b.constraints.mapM b.requirements = .ok φss ∧
    c.stats.constraintFormulas = (φss.map List.length).sum
  layoutClauses_eq : c.stats.layoutClauses = ((List.range b.design.length).map fun f =>
    ((List.range b.trials).map (b.cellSize f)).sum).sum

namespace Parts

variable (p : b.Parts options)

/-! Before the first formula there are the trial variables and the clauses of the layout. -/

theorem last_session : p.session.supply.last = b.gridVariables := by
  rw [session, Session.supply_addClauses]
  rfl

theorem formulas_session : p.session.stats.formulas = 0 := by
  rw [session, Session.addClauses_eq]
  rfl

theorem toList_session : p.session.cnf.toList = p.layout := by
  rw [session, Session.addClauses_eq]
  simp [Session.start, Cnf.toList]

theorem accounted_session : Session.Accounted options.memoize [] p.session :=
  (Session.Accounted.start ⟨b.gridVariables⟩ options.memoize).addClauses p.layout

/-- The variables of a compilation are all mentioned, and no others are. -/
theorem mentions_iff (hb : b.WellFormed) (hexact : options.exactlyOne = true) {s : Session}
    {es : List Emission} (hs : p.session.assertAll p.formulas = .ok s)
    (hasserted : p.session.Asserted p.formulas.length es s) (v : Nat) :
    s.cnf.Mentions v ↔ 0 < v ∧ v ≤ s.supply.last := by
  constructor
  · rintro ⟨d, hd, l, hl, rfl⟩
    obtain ⟨rs, hrun⟩ := p.exists_run hs
    obtain ⟨ds, hds, hwithin, _⟩ :=
      (Session.follows_of_start hrun (p.literals_le hb hexact)).emitted
    rw [show s.cnf.toList = [] ++ ds from hds, List.nil_append] at hd
    exact ⟨Nat.pos_of_ne_zero l.var_ne_zero, hwithin d hd l hl⟩
  · rintro ⟨hpos, hle⟩
    by_cases hv : v ≤ b.gridVariables
    · obtain ⟨d, hd, hl⟩ := mentions_layoutClauses hb (hexact ▸ p.layout_eq) hpos hv
      exact ⟨d, hasserted.keeps d (p.toList_session.symm ▸ hd), hl⟩
    · exact hasserted.mentions (p.last_session.symm ▸ Nat.lt_of_not_le hv) hle

end Parts

/-- **The books of a compilation balance**, with or without sharing and full crossing. -/
theorem compile_accounts (hb : b.Accepted) (hexact : options.exactlyOne = true)
    (hc : b.compile options = .ok c) : b.Accounts options c := by
  have hwf := hb.wellFormed
  have hr := inRange_of_compile hwf hexact hc
  obtain ⟨p, s, hs, rfl⟩ := exists_session_of_compile hc
  have ht := tabulated_of_derivationTable hwf p.table_eq
  obtain ⟨es, hasserted⟩ := Session.exists_asserted_of_assertAll hs
  have haccounted := hasserted.accounted p.accounted_session
  have hlast : s.supply.last = b.gridVariables + s.stats.auxiliaries := by
    rw [hasserted.last_eq, p.last_session, haccounted.auxiliaries_eq, List.nil_append]
  have hformulas : s.stats.formulas =
      p.definitions.length + p.crossing.length + p.requirements.flatten.length := by
    rw [hasserted.formulas_eq, p.formulas_session, Nat.zero_add, Parts.formulas, List.length_append,
      List.length_append]
  exact ⟨p.mentions_iff hwf hexact hs hasserted, hlast, haccounted.clauses_eq, hformulas,
    length_definitions hwf hr ht p.definitions_eq, length_crossingPart p.crossing_eq,
    ⟨_, p.requirements_eq, List.length_flatten⟩, length_layoutClauses (hexact ▸ p.layout_eq)⟩

/-- Five trials of two colours and their repetitions, of which the first trial has none; no colour
may come three times in a row. -/
theorem compile_accounts_repeats :
    ∃ b c, fullyCrossed .colorRepeats ["color", "repeats"]
      [.atMostInARow 2 (.factor "color")] = .ok b ∧
      b.compile {} = .ok c ∧ c.varCount = 84 ∧ c.stats = ⟨20, 8, 4, 6, ⟨18, 64, 246, 0⟩⟩ ∧
      b.Accounts {} c := by
  have hcompiles : ((fullyCrossed .colorRepeats ["color", "repeats"]
      [.atMostInARow 2 (.factor "color")]).toOption.bind fun b =>
        (b.compile {}).toOption.map fun c =>
        (c.varCount, c.stats)) = some (84, ⟨20, 8, 4, 6, ⟨18, 64, 246, 0⟩⟩) := by
    decide +kernel
  obtain ⟨b, hb, hcompiles⟩ := Option.bind_eq_some_iff.mp hcompiles
  obtain ⟨c, hc, hnumbers⟩ := Option.map_eq_some_iff.mp hcompiles
  rw [Outcome.toOption_eq_some] at hb hc
  obtain ⟨hcount, hstats⟩ := Prod.mk.inj hnumbers
  exact ⟨b, c, hb, hc, hcount, hstats, compile_accounts ⟨_, _, _, .inr hb⟩ rfl hc⟩

end Block

end Counterbalance
