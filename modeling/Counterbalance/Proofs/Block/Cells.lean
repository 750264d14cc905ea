import Counterbalance.Block.Compilation
import Counterbalance.Proofs.Block.Layout
import Counterbalance.Proofs.Logic.Statement

/-! The cells of a block, one per factor and trial. The clauses of the layout say of a truth
assignment that it chooses one level in every cell whose factor applies, and none in the others.
That they can be written down at all means that no trial variable is out of range. -/

namespace Counterbalance.Block

variable {b : Block} {g : Nat → Bool}

/-- The assignment gives factor `f` level `l` in trial `t`. -/
def Chosen (b : Block) (g : Nat → Bool) (f t l : Nat) : Prop :=
  l < (b.design.factorAt f).size ∧ g (b.variableAt t (b.dataIndex f l)) = true

/-- One level where a factor applies, and no level where it does not. -/
structure Cells (b : Block) (g : Nat → Bool) : Prop where
  exact : ∀ f t, b.applies f t = true → ∃! l, b.Chosen g f t l
  silent : ∀ f t l, f < b.design.length → t < b.trials → b.applies f t = false → ¬ b.Chosen g f t l

/-- The truth assignment under which the variables of the chosen levels are true and no others. -/
noncomputable def choosing (b : Block) (P : Nat → Nat → Nat → Prop) (v : Nat) : Bool :=
  open Classical in decide (∃ f t l, P f t l ∧ v = b.variableAt t (b.dataIndex f l))

theorem chosen_choosing_iff (hb : b.WellFormed) (hr : b.InRange) {P : Nat → Nat → Nat → Prop}
    (hP : ∀ f t l, P f t l → f < b.design.length ∧ t < b.trials ∧ l < (b.design.factorAt f).size)
    {f t l : Nat} (hf : f < b.design.length) (ht : t < b.trials) :
    b.Chosen (b.choosing P) f t l ↔ P f t l := by
  simp only [Chosen, choosing, decide_eq_true_eq]
  constructor
  · intro h
    obtain ⟨hl, g, u, m, hchosen, hvar⟩ := h
    obtain ⟨hg, hu, hm⟩ := hP g u m hchosen
    obtain ⟨rfl, hindex⟩ :=
      hr.uncut.variableAt_inj ht (hb.dataIndex_lt hf hl) hu (hb.dataIndex_lt hg hm) hvar
    obtain ⟨rfl, rfl⟩ := hb.dataIndex_inj hf hl hg hm hindex
    exact hchosen
  · intro h
    exact ⟨(hP f t l h).2.2, f, t, l, h, rfl⟩

/-- Truth assignments with the same choices are the same on the trial variables. -/
theorem eq_of_chosen_iff (hb : b.WellFormed) (hr : b.InRange) {ν μ : Nat → Bool}
    (h : ∀ f < b.design.length, ∀ t < b.trials, ∀ l, b.Chosen ν f t l ↔ b.Chosen μ f t l) :
    ∀ v, 0 < v → v ≤ b.gridVariables → ν v = μ v := by
  intro v hpos hle
  obtain ⟨t, ht, d, hd, rfl⟩ := hr.uncut.exists_variableAt_eq hpos hle
  obtain ⟨f, l, hf, hl, rfl⟩ := hb.exists_dataIndex_eq hd
  have hsame := h f hf t ht l
  rw [Chosen, Chosen, and_iff_right hl, and_iff_right hl] at hsame
  exact Bool.eq_iff_iff.mpr hsame

theorem chosen_congr (hb : b.WellFormed) (hr : b.InRange) {ν μ : Nat → Bool}
    (h : ∀ v, 0 < v → v ≤ b.gridVariables → ν v = μ v) {f t l : Nat} (hf : f < b.design.length)
    (ht : t < b.trials) : b.Chosen ν f t l ↔ b.Chosen μ f t l := by
  refine and_congr_right fun hl => ?_
  have hd := hb.dataIndex_lt hf hl
  rw [h _ (hr.uncut.variableAt_pos ht hd) (hr.uncut.variableAt_le ht hd)]

/-- Filled cells are the same if they are the same where factors apply. -/
theorem Cells.eq_of_chosen_iff (hb : b.WellFormed) (hr : b.InRange) {ν μ : Nat → Bool}
    (hν : b.Cells ν) (hμ : b.Cells μ)
    (h : ∀ f t l, b.applies f t = true → (b.Chosen ν f t l ↔ b.Chosen μ f t l)) :
    ∀ v, 0 < v → v ≤ b.gridVariables → ν v = μ v := by
  refine Block.eq_of_chosen_iff hb hr fun f hf t ht l => ?_
  cases happ : b.applies f t with
  | true => exact h f t l happ
  | false => exact iff_of_false (hν.silent f t l hf ht happ) (hμ.silent f t l hf ht happ)

theorem Cells.chosen_iff_eq (hg : b.Cells g) {f t l m : Nat} (happ : b.applies f t = true)
    (hm : b.Chosen g f t m) : b.Chosen g f t l ↔ l = m := by
  constructor
  · intro hl
    exact (hg.exact f t happ).unique hl hm
  · intro hl
    exact hl ▸ hm

/-! ## Lists of literals -/

theorem eval_clause_iff {c : Clause} : c.eval g = true ↔ ∃ l ∈ c, l.eval g = true :=
  List.any_eq_true

theorem holds_pairwiseExclusive {ls : List Literal} :
    Holds g (pairwiseExclusive ls) ↔
      ls.Pairwise fun l m => ¬ (l.eval g = true ∧ m.eval g = true) := by
  induction ls with
  | nil => simp [pairwiseExclusive]
  | cons l ls ih =>
    have hhead : Holds g (ls.map fun m => [-l, -m]) ↔
        ∀ m ∈ ls, ¬ (l.eval g = true ∧ m.eval g = true) := by
      rw [Holds, List.forall_mem_map]
      refine forall₂_congr fun m _ => ?_
      simp [Clause.eval, imp_iff_not_or]
    rw [pairwiseExclusive, holds_append, hhead, ih, List.pairwise_cons]

theorem var_of_mem_pairwiseExclusive {ls : List Literal} {c : Clause}
    (hc : c ∈ pairwiseExclusive ls) {x : Literal} (hx : x ∈ c) : ∃ y ∈ ls, x.var = y.var := by
  induction ls with
  | nil => cases hc
  | cons l ls ih =>
    rw [pairwiseExclusive, List.mem_append, List.mem_map] at hc
    rcases hc with ⟨m, hm, rfl⟩ | hc
    · rcases List.mem_pair.mp hx with rfl | rfl
      · exact ⟨l, List.mem_cons_self, Literal.var_neg l⟩
      · exact ⟨m, List.mem_cons_of_mem l hm, Literal.var_neg m⟩
    · obtain ⟨y, hy, hvar⟩ := ih hc
      exact ⟨y, List.mem_cons_of_mem l hy, hvar⟩

/-- One of the literals holds, and no two of them do. -/
theorem holds_exactlyOne_iff {p : Nat → Bool} {n : Nat} {ls : List Literal}
    (h : List.Forall₂ (fun i l => Literal.eval g l = p i) (List.range n) ls) :
    Holds g (ls :: pairwiseExclusive ls) ↔ ∃! i, i < n ∧ p i = true := by
  have hcons : Holds g (ls :: pairwiseExclusive ls) ↔
      Clause.eval g ls = true ∧ Holds g (pairwiseExclusive ls) := List.forall_mem_cons
  have hlength : ls.length = n := by rw [← h.length_eq, List.length_range]
  have heval : ∀ i (hi : i < ls.length), ls[i].eval g = p i := by
    intro i hi
    have := (List.forall₂_iff_get.mp h).2 i (by rwa [List.length_range, ← hlength]) hi
    simpa using this
  rw [hcons, eval_clause_iff, holds_pairwiseExclusive]
  constructor
  · intro h
    obtain ⟨⟨l, hl, htrue⟩, hpair⟩ := h
    obtain ⟨i, hi, rfl⟩ := List.mem_iff_getElem.mp hl
    rw [heval i hi] at htrue
    refine ⟨i, ⟨hlength ▸ hi, htrue⟩, fun j ⟨hj, hpj⟩ => ?_⟩
    rw [← hlength] at hj
    have hapart := List.pairwise_iff_getElem.mp hpair
    by_contra hne
    rcases Nat.lt_or_gt_of_ne hne with hlt | hgt
    · exact hapart j i hj hi hlt ⟨(heval j hj).trans hpj, (heval i hi).trans htrue⟩
    · exact hapart i j hi hj hgt ⟨(heval i hi).trans htrue, (heval j hj).trans hpj⟩
  · intro h
    obtain ⟨i, ⟨hi, hpi⟩, huniq⟩ := h
    rw [← hlength] at hi
    refine ⟨⟨ls[i], List.getElem_mem hi, (heval i hi).trans hpi⟩, ?_⟩
    rw [List.pairwise_iff_getElem]
    intro j k hj hk hlt hboth
    obtain ⟨hpj, hpk⟩ := hboth
    rw [heval j hj] at hpj
    rw [heval k hk] at hpk
    have hj' := huniq j ⟨hlength ▸ hj, hpj⟩
    have hk' := huniq k ⟨hlength ▸ hk, hpk⟩
    omega

/-! ## One cell -/

theorem chosen_iff_of_levelLiteral {f t l : Nat} {x : Literal} (hl : l < (b.design.factorAt f).size)
    (h : b.levelLiteral f l t = .ok x) : b.Chosen g f t l ↔ x.eval g = true := by
  rw [Chosen, and_iff_right hl, Literal.eval_of_positive h]

/-- The literals of a cell, one per level. -/
def cellLiterals (b : Block) (f t : Nat) : Except LiteralError (List Literal) :=
  (List.range (b.design.factorAt f).size).mapM fun l => b.levelLiteral f l t

theorem cellClauses_eq_ok {f t : Nat} {cs : List Clause} : b.cellClauses true f t = .ok cs ↔
    ∃ ls, b.cellLiterals f t = .ok ls ∧
      cs = if b.applies f t then ls :: pairwiseExclusive ls else ls.map fun l => [-l] := by
  unfold cellClauses cellLiterals
  rw [Bool.not_true, Bool.and_false, if_neg Bool.false_ne_true, Outcome.bind_eq_ok]
  refine exists_congr fun ls => and_congr_right fun _ => ?_
  split
  · rw [Except.ok.injEq, eq_comm]
  · rw [Except.ok.injEq, eq_comm]

/-- Unless exactly one level is asked for, the cells of factors that apply have no clauses. -/
theorem cellClauses_eq (exactlyOne : Bool) (f t : Nat) : b.cellClauses exactlyOne f t =
    if b.applies f t && !exactlyOne then .ok [] else b.cellClauses true f t := by
  unfold cellClauses
  cases exactlyOne <;> cases b.applies f t <;> rfl

/-- The clauses of a cell say what is chosen in it. -/
theorem holds_cellClauses {f t : Nat} {cs : List Clause} (h : b.cellClauses true f t = .ok cs) :
    Holds g cs ↔ if b.applies f t then ∃! l, b.Chosen g f t l else ∀ l, ¬ b.Chosen g f t l := by
  obtain ⟨ls, hls, rfl⟩ := cellClauses_eq_ok.mp h
  split
  · refine holds_exactlyOne_iff (n := (b.design.factorAt f).size)
      (p := fun l => g (b.variableAt t (b.dataIndex f l))) ?_
    exact (Outcome.mapM_eq_ok.mp hls).imp fun l x hx => Literal.eval_of_positive hx g
  · have hneg : Holds g (ls.map fun l => [-l]) ↔ ∀ x ∈ ls, ¬ x.eval g = true := by
      simp [Holds, Clause.eval]
    rw [hneg]
    constructor
    · intro hall l hchosen
      obtain ⟨x, hx⟩ := Outcome.exists_ok_of_mapM hls (List.mem_range.mpr hchosen.1)
      have hmem := (Outcome.mem_iff_of_mapM hls).mpr ⟨l, List.mem_range.mpr hchosen.1, hx⟩
      exact hall x hmem ((chosen_iff_of_levelLiteral hchosen.1 hx).mp hchosen)
    · intro hnone x hx htrue
      obtain ⟨l, hl, hlit⟩ := (Outcome.mem_iff_of_mapM hls).mp hx
      exact hnone l ((chosen_iff_of_levelLiteral (List.mem_range.mp hl) hlit).mpr htrue)

/-- The clauses of a cell mention the variables of its levels only. -/
theorem var_of_mem_cellClauses {exactlyOne : Bool} {f t : Nat} {cs : List Clause}
    (h : b.cellClauses exactlyOne f t = .ok cs) {c : Clause} (hc : c ∈ cs) {x : Literal}
    (hx : x ∈ c) : ∃ l < (b.design.factorAt f).size, x.var = b.variableAt t (b.dataIndex f l) := by
  rw [cellClauses_eq] at h
  split at h
  · obtain rfl := Except.ok.inj h
    cases hc
  obtain ⟨ls, hls, rfl⟩ := cellClauses_eq_ok.mp h
  have hvar :
      ∀ y ∈ ls, ∃ l < (b.design.factorAt f).size, y.var = b.variableAt t (b.dataIndex f l) := by
    intro y hy
    obtain ⟨l, hl, hlit⟩ := (Outcome.mem_iff_of_mapM hls).mp hy
    exact ⟨l, List.mem_range.mp hl, Literal.var_of_positive hlit⟩
  split at hc
  · rcases List.mem_cons.mp hc with rfl | hc
    · exact hvar x hx
    · obtain ⟨y, hy, hsame⟩ := var_of_mem_pairwiseExclusive hc hx
      rw [hsame]
      exact hvar y hy
  · obtain ⟨y, hy, rfl⟩ := List.mem_map.mp hc
    rw [List.mem_singleton.mp hx, Literal.var_neg]
    exact hvar y hy

/-! ## All cells -/

theorem layoutClauses_eq_ok {exactlyOne : Bool} {cs : List Clause}
    (h : b.layoutClauses exactlyOne = .ok cs) :
    (∀ f < b.design.length, ∀ t < b.trials, ∃ ds, b.cellClauses exactlyOne f t = .ok ds) ∧
    ∀ c, c ∈ cs ↔ ∃ f < b.design.length, ∃ t < b.trials, ∃ ds,
      b.cellClauses exactlyOne f t = .ok ds ∧ c ∈ ds := by
  refine ⟨fun f hf t ht => ?_, fun c => ?_⟩
  · obtain ⟨es, hes⟩ := Outcome.exists_ok_of_flatten h (List.mem_range.mpr hf)
    exact Outcome.exists_ok_of_flatten hes (List.mem_range.mpr ht)
  · rw [Outcome.mem_iff_of_flatten h]
    simp only [List.mem_range]
    refine exists_congr fun f => and_congr_right fun hf => ?_
    constructor
    · intro h
      obtain ⟨es, hes, hc⟩ := h
      simpa only [List.mem_range] using (Outcome.mem_iff_of_flatten hes).mp hc
    · intro hcell
      obtain ⟨es, hes⟩ := Outcome.exists_ok_of_flatten h (List.mem_range.mpr hf)
      refine ⟨es, hes, (Outcome.mem_iff_of_flatten hes).mpr ?_⟩
      simpa only [List.mem_range] using hcell

/-- **The clauses of the layout say that the cells are filled as they should be.** -/
theorem holds_layoutClauses (hb : b.WellFormed) {cs : List Clause}
    (h : b.layoutClauses true = .ok cs) : Holds g cs ↔ b.Cells g := by
  obtain ⟨hcells, hmem⟩ := layoutClauses_eq_ok h
  constructor
  · intro hholds
    have hcell : ∀ f < b.design.length, ∀ t < b.trials,
        if b.applies f t then ∃! l, b.Chosen g f t l else ∀ l, ¬ b.Chosen g f t l := by
      intro f hf t ht
      obtain ⟨ds, hds⟩ := hcells f hf t ht
      exact (holds_cellClauses hds).mp fun c hc =>
        hholds c ((hmem c).mpr ⟨f, hf, t, ht, ds, hds, hc⟩)
    refine ⟨fun f t happ => ?_, fun f t l hf ht happ => ?_⟩
    · obtain ⟨hf, ht, _⟩ := hb.applies_iff.mp happ
      simpa only [happ, if_true] using hcell f hf t ht
    · have hnone := hcell f hf t ht
      rw [happ, if_neg Bool.false_ne_true] at hnone
      exact hnone l
  · intro hall c hc
    obtain ⟨f, hf, t, ht, ds, hds, hc⟩ := (hmem c).mp hc
    refine (holds_cellClauses hds).mpr ?_ c hc
    split
    · rename_i happ
      exact hall.exact f t happ
    · rename_i happ
      exact fun l => hall.silent f t l hf ht (Bool.not_eq_true _ ▸ happ)

/-- The last variable is among those of the layout, so all are in range. -/
theorem inRange_of_layoutClauses (hb : b.WellFormed) {cs : List Clause}
    (h : b.layoutClauses true = .ok cs) : b.InRange := by
  by_contra hout
  have hlarge : maxVariable < b.trials * b.trialSize := Nat.lt_of_not_le hout
  have hsize : 0 < b.trialSize := Nat.pos_of_mul_pos_left (Nat.zero_lt_of_lt hlarge)
  -- the first variable that is too large for a literal
  have ht : maxVariable / b.trialSize < b.trials := Nat.div_lt_of_lt_mul (Nat.mul_comm .. ▸ hlarge)
  obtain ⟨f, l, hf, hl, hindex⟩ := hb.exists_dataIndex_eq (Nat.mod_lt maxVariable hsize)
  obtain ⟨ds, hds⟩ := (layoutClauses_eq_ok h).1 f hf _ ht
  obtain ⟨ls, hls, _⟩ := cellClauses_eq_ok.mp hds
  obtain ⟨x, hx⟩ := Outcome.exists_ok_of_mapM hls (List.mem_range.mpr hl)
  obtain ⟨_, _, hle⟩ := Literal.code_of_positive hx
  rw [← hindex, variableAt, Nat.div_add_mod'] at hle
  exact absurd hle (by decide)

theorem within_layoutClauses (hb : b.WellFormed) (hr : b.InRange) {exactlyOne : Bool}
    {cs : List Clause} (h : b.layoutClauses exactlyOne = .ok cs) :
    ∀ c ∈ cs, c.Within b.gridVariables := by
  intro c hc x hx
  obtain ⟨f, hf, t, ht, ds, hds, hc⟩ := ((layoutClauses_eq_ok h).2 c).mp hc
  obtain ⟨l, hl, hvar⟩ := var_of_mem_cellClauses hds hc hx
  rw [hvar]
  exact hr.uncut.variableAt_le ht (hb.dataIndex_lt hf hl)

end Counterbalance.Block
