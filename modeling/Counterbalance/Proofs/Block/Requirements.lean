import Counterbalance.Proofs.Block.Definitions

/-! What the formulas of the crossing and of the constraints say. A combination of crossed levels
has to occur in one of the trials in which all crossed factors apply; a limit on repetition forbids
the runs that are one trial too long, and so all longer ones. -/

namespace Counterbalance

/-! ## Runs -/

theorem mem_runs_iff {α : Type} {n : Nat} {xs r : List α} :
    r ∈ runs n xs ↔ r <:+: xs ∧ r.length = n := by
  constructor
  · intro h
    refine ⟨?_, length_of_mem_runs h⟩
    rw [runs, firstRuns_eq_map] at h
    obtain ⟨i, _, rfl⟩ := List.mem_map.mp h
    exact (List.take_prefix n _).isInfix.trans (List.drop_suffix i xs).isInfix
  · intro h
    obtain ⟨⟨before, after, hxs⟩, hlength⟩ := h
    rw [runs, firstRuns_eq_map, List.mem_map]
    refine ⟨before.length, List.mem_range.mpr ?_, ?_⟩
    · rw [← hxs]
      simp only [List.length_append]
      omega
    · rw [← hxs, List.append_assoc, List.drop_left, ← hlength, List.take_left]

/-- No run of `k + 1` elements has the property throughout exactly if no longer one has it
either. -/
theorem forall_runs_iff {α : Type} {k : Nat} {xs : List α} {p : α → Prop} :
    (∀ r ∈ runs (k + 1) xs, ¬ ∀ x ∈ r, p x) ↔ ∀ r, r <:+: xs → (∀ x ∈ r, p x) → r.length ≤ k := by
  constructor
  · intro h r hr hall
    by_contra hlong
    have hlength : (r.take (k + 1)).length = k + 1 := by
      rw [List.length_take]
      omega
    have hpart : r.take (k + 1) <:+: xs := (List.take_prefix (k + 1) r).isInfix.trans hr
    refine h _ (mem_runs_iff.mpr ⟨hpart, hlength⟩) fun x hx => ?_
    exact hall x (List.mem_of_mem_take hx)
  · intro h r hr hall
    obtain ⟨hpart, hlength⟩ := mem_runs_iff.mp hr
    have := h r hpart hall
    omega

namespace Block

variable {b : Block} {f l t : Nat}

/-! ## Levels in trials -/

theorem means_levelLiteral (hb : b.WellFormed) (hr : b.InRange) (hf : f < b.design.length)
    (hl : l < (b.design.factorAt f).size) (ht : t < b.trials) {x : Literal}
    (h : b.levelLiteral f l t = .ok x) :
    (Formula.literal x).Means b.gridVariables fun ν => b.Chosen ν f t l := by
  have hle := hr.uncut.variableAt_le ht (hb.dataIndex_lt hf hl)
  exact (Formula.Means.literal h hle).congr fun ν => (and_iff_right hl).symm

theorem means_notAt (hb : b.WellFormed) (hr : b.InRange) (hf : f < b.design.length)
    (hl : l < (b.design.factorAt f).size) (ht : t < b.trials) {φ : Formula}
    (h : b.notAt f l t = .ok φ) : φ.Means b.gridVariables fun ν => ¬ b.Chosen ν f t l := by
  obtain ⟨x, hx, rfl⟩ := Outcome.map_eq_ok.mp h
  have hle := hr.uncut.variableAt_le ht (hb.dataIndex_lt hf hl)
  exact (Formula.Means.neg_literal hx hle).congr fun ν => not_congr (and_iff_right hl).symm

theorem means_notThroughout (hb : b.WellFormed) (hr : b.InRange) (hf : f < b.design.length)
    (hl : l < (b.design.factorAt f).size) {run : List Nat} (hrun : ∀ t ∈ run, t < b.trials)
    {φ : Formula} (h : b.notThroughout f l run = .ok φ) :
    φ.Means b.gridVariables fun ν => ¬ ∀ t ∈ run, b.Chosen ν f t l := by
  obtain ⟨φs, hφs, rfl⟩ := Outcome.map_eq_ok.mp h
  refine Formula.Means.not (Formula.Means.and (Outcome.forall₂_of_mapM hφs fun t ht ψ hψ => ?_))
  obtain ⟨x, hx, rfl⟩ := Outcome.map_eq_ok.mp hψ
  exact means_levelLiteral hb hr hf hl (hrun t ht) hx

/-! ## Constraints -/

theorem lt_of_mem_applyingTrials (hb : b.WellFormed) (ht : t ∈ b.applyingTrials f) :
    f < b.design.length ∧ t < b.trials := by
  obtain ⟨hf, ht, _⟩ := hb.applies_iff.mp (hb.mem_applyingTrials.mp ht)
  exact ⟨hf, ht⟩

theorem means_atMostInARow (hb : b.WellFormed) (hr : b.InRange) {k : Nat} {levels : List Nat}
    (hf : f < b.design.length) (hlevels : ∀ l ∈ levels, l < (b.design.factorAt f).size)
    {φs : List Formula} (h : b.atMostInARow k f levels = .ok φs) :
    (Formula.and φs).Means b.gridVariables fun ν => ∀ l ∈ levels,
      ∀ run, run <:+: b.applyingTrials f → (∀ t ∈ run, b.Chosen ν f t l) → run.length ≤ k := by
  obtain ⟨φss, hφss, rfl⟩ := Outcome.map_eq_ok.mp h
  refine Formula.Means.and_flatten (Outcome.forall₂_of_mapM hφss fun l hl ψs hψs => ?_)
  have hruns : ∀ run ∈ runs (k + 1) (b.applyingTrials f), ∀ t ∈ run, t < b.trials := by
    intro run hrun t ht
    have hpart := (mem_runs_iff.mp hrun).1
    exact (lt_of_mem_applyingTrials hb (hpart.subset ht)).2
  have hmeans := Formula.Means.and (Outcome.forall₂_of_mapM hψs fun run hrun ψ hψ =>
    means_notThroughout hb hr hf (hlevels l hl) (hruns run hrun) hψ)
  exact hmeans.congr fun ν => forall_runs_iff

theorem means_exclusion (hb : b.WellFormed) (hr : b.InRange) (hf : f < b.design.length)
    (hl : l < (b.design.factorAt f).size) {φs : List Formula}
    (h : (b.applyingTrials f).mapM (b.notAt f l) = .ok φs) :
    (Formula.and φs).Means b.gridVariables fun ν => ∀ t ∈ b.applyingTrials f,
      ¬ b.Chosen ν f t l := by
  refine Formula.Means.and (Outcome.forall₂_of_mapM h fun t ht φ hφ => ?_)
  exact means_notAt hb hr hf hl (lt_of_mem_applyingTrials hb ht).2 hφ

/-! ## Crossing -/

/-- A choice of one level per crossed factor. -/
def Combined (b : Block) (ls : List Nat) : Prop :=
  List.Forall₂ (fun f l => l < (b.design.factorAt f).size) b.crossing ls

theorem mem_product_dataIndices {crossing : List Nat} {c : Combination} :
    c ∈ product (crossing.map b.dataIndices) ↔
      ∃ ls, List.Forall₂ (fun f l => l < (b.design.factorAt f).size) crossing ls ∧
        c = List.zipWith b.dataIndex crossing ls := by
  induction crossing generalizing c with
  | nil => simp [product]
  | cons f crossing ih =>
    cases c with
    | nil =>
      refine iff_of_false (by simp [product]) fun h => ?_
      obtain ⟨ls, hls, hc⟩ := h
      cases hls
      cases hc
    | cons d c =>
      rw [List.map_cons, mem_product_cons, ih, dataIndices, List.mem_map]
      simp only [List.mem_range, List.forall₂_cons_left_iff]
      constructor
      · intro h
        obtain ⟨⟨l, hl, hd⟩, ls, hls, hc⟩ := h
        exact ⟨l :: ls, ⟨l, ls, hl, hls, rfl⟩, by rw [List.zipWith_cons_cons, hd, hc]⟩
      · intro h
        obtain ⟨_, ⟨l, ls, hl, hls, hcons⟩, hc⟩ := h
        rw [hcons, List.zipWith_cons_cons, List.cons.injEq] at hc
        exact ⟨⟨l, hl, hc.1.symm⟩, ls, hls, hc.2⟩

theorem lt_of_mem_product_dataIndices (hb : b.WellFormed) {c : Combination}
    (hc : c ∈ product (b.crossing.map b.dataIndices)) : ∀ d ∈ c, d < b.trialSize := by
  intro d hd
  have hindices := mem_product.mp hc
  rw [List.forall₂_map_right_iff] at hindices
  obtain ⟨f, hf, hindex⟩ := Lists.exists_right_of_mem hindices hd
  obtain ⟨l, hl, rfl⟩ := List.mem_map.mp hindex
  exact hb.dataIndex_lt (hb.crossing_lt f hf) (List.mem_range.mp hl)

theorem crossingFormulas_eq_mapM :
    b.crossingFormulas = (product (b.crossing.map b.dataIndices)).mapM
      (b.occurs b.crossedTrials) := by
  rw [crossingFormulas, Odometer.readings_eq_product]

/-- The crossing demands that every combination is chosen in some trial. -/
theorem means_crossingFormulas (hb : b.WellFormed) (hr : b.InRange) {φs : List Formula}
    (h : b.crossingFormulas = .ok φs) :
    (Formula.and φs).Means b.gridVariables fun ν => ∀ ls, b.Combined ls →
      ∃ t ∈ b.crossedTrials, List.Forall₂ (fun f l => b.Chosen ν f t l) b.crossing ls := by
  have hbound : ∀ c ∈ product (b.crossing.map b.dataIndices), ∀ t ∈ b.crossedTrials, ∀ d ∈ c,
      b.variableAt t d ≤ b.gridVariables := by
    intro c hc t ht d hd
    exact hr.uncut.variableAt_le (mem_crossedTrials.mp ht).1
      (lt_of_mem_product_dataIndices hb hc d hd)
  rw [crossingFormulas_eq_mapM] at h
  have hmeans := Formula.Means.and (Outcome.forall₂_of_mapM h fun c hc φ hφ => by
    obtain ⟨ψs, hψs, rfl⟩ := Outcome.map_eq_ok.mp hφ
    exact Formula.Means.or (Outcome.forall₂_of_mapM hψs fun t ht ψ hψ =>
      means_combinationFormula hψ (hbound c hc t ht)))
  refine hmeans.congr fun ν => ?_
  have hchosen : ∀ ls, b.Combined ls → ∀ t, (∀ d ∈ List.zipWith b.dataIndex b.crossing ls,
      ν (b.variableAt t d) = true) ↔ List.Forall₂ (fun f l => b.Chosen ν f t l) b.crossing ls :=
    fun ls hls t => Lists.forall_mem_zipWith (P := fun d => ν (b.variableAt t d) = true) hls
  constructor
  · intro hall ls hls
    obtain ⟨t, ht, hholds⟩ := hall _ (mem_product_dataIndices.mpr ⟨ls, hls, rfl⟩)
    exact ⟨t, ht, (hchosen ls hls t).mp hholds⟩
  · intro hall c hc
    obtain ⟨ls, hls, rfl⟩ := mem_product_dataIndices.mp hc
    obtain ⟨t, ht, hholds⟩ := hall ls hls
    exact ⟨t, ht, (hchosen ls hls t).mpr hholds⟩

end Block

end Counterbalance
