import Mathlib.Data.Set.Function
import Mathlib.Data.Set.Prod
import Mathlib.Order.Interval.Set.Defs
import Counterbalance.Proofs.Block.Layout

/-! How levels and trials are numbered. The data indices of the factors follow each other in
declaration order and fill a trial, so that levels and data indices name each other; the variables
of the trials follow each other and fill the trial variables. -/

namespace Counterbalance

namespace Layout

/-! ## Runs of data indices -/

theorem length_ownersFrom (position : Nat) (d : Design) :
    (ownersFrom position d).length = (d.map Factor.size).sum := by
  induction d generalizing position with
  | nil => rfl
  | cons f rest ih => simp [ownersFrom, ih]

theorem start_length (d : Design) : start d d.length = (d.map Factor.size).sum := by
  rw [start, List.take_length]

theorem start_succ {d : Design} {f : Nat} (h : f < d.length) :
    start d (f + 1) = start d f + (d.factorAt f).size := by
  rw [start, List.take_succ_eq_append_getElem h, List.map_append, List.sum_append,
    Design.factorAt_eq_getElem h]
  simp [start]

/-- The runs of the first factors fill the indices before the run of the next one. -/
theorem flatMap_range'_start {d : Design} {n : Nat} (h : n ≤ d.length) :
    ((List.range n).flatMap fun f => List.range' (start d f) (d.factorAt f).size) =
      List.range (start d n) := by
  induction n with
  | zero => rfl
  | succ n ih =>
    have hrun := List.range'_append_1 (s := 0) (m := start d n) (n := (d.factorAt n).size)
    rw [Nat.zero_add, ← List.range_eq_range', ← List.range_eq_range'] at hrun
    rw [List.range_succ, List.flatMap_append, ih (Nat.le_of_succ_le h), List.flatMap_singleton,
      start_succ h, hrun]

end Layout

namespace Block

variable {b : Block}

/-- The levels of the design: a factor and a level of it. -/
def levels (b : Block) : Set (Nat × Nat) :=
  {p | p.1 < b.design.length ∧ p.2 < (b.design.factorAt p.1).size}

/-- The data indices number the levels without gaps, each factor's in a row, in declaration
order. -/
structure Tiled (b : Block) : Prop where
  bijOn_dataIndex : Set.BijOn (fun p => b.dataIndex p.1 p.2) b.levels (Set.Iio b.trialSize)
  levelAt?_eq_some_iff : ∀ i p, b.levelAt? i = some p ↔ p ∈ b.levels ∧ b.dataIndex p.1 p.2 = i
  levelAt?_eq_none_iff : ∀ i, b.levelAt? i = none ↔ b.trialSize ≤ i
  trialSize_eq : b.trialSize = (b.design.map Factor.size).sum
  dataIndices_eq :
    ∀ f < b.design.length, b.dataIndices f = List.range' (b.offset f) (b.design.factorAt f).size
  flatMap_dataIndices : (List.range b.design.length).flatMap b.dataIndices = List.range b.trialSize

namespace WellFormed

theorem offset_eq (hb : b.WellFormed) {f : Nat} (hf : f < b.design.length) :
    b.offset f = Layout.start b.design f := hb.dataIndex_eq hf (l := 0)

theorem trialSize_eq (hb : b.WellFormed) : b.trialSize = (b.design.map Factor.size).sum := by
  rw [trialSize, hb.layout_eq]
  exact List.size_toArray.trans (Layout.length_ownersFrom 0 b.design)

theorem dataIndices_eq (hb : b.WellFormed) {f : Nat} (hf : f < b.design.length) :
    b.dataIndices f = List.range' (Layout.start b.design f) (b.design.factorAt f).size := by
  rw [dataIndices, List.range'_eq_map_range]
  exact List.map_congr_left fun l _ => hb.dataIndex_eq hf

theorem flatMap_dataIndices (hb : b.WellFormed) :
    (List.range b.design.length).flatMap b.dataIndices = List.range b.trialSize := by
  rw [hb.trialSize_eq, ← Layout.start_length, ← Layout.flatMap_range'_start (Nat.le_refl _)]
  exact List.flatMap_congr fun f hf => hb.dataIndices_eq (List.mem_range.mp hf)

theorem tiled (hb : b.WellFormed) : b.Tiled where
  bijOn_dataIndex := by
    refine ⟨fun p hp => hb.dataIndex_lt hp.1 hp.2, fun p hp q hq h => ?_, fun i hi => ?_⟩
    · obtain ⟨hfactor, hlevel⟩ := hb.dataIndex_inj hp.1 hp.2 hq.1 hq.2 h
      exact Prod.ext hfactor hlevel
    · obtain ⟨f, l, hf, hl, rfl⟩ := hb.exists_dataIndex_eq hi
      exact ⟨(f, l), ⟨hf, hl⟩, rfl⟩
  levelAt?_eq_some_iff := fun i p => by
    rw [hb.levelAt?_eq_some_iff, eq_comm]
    exact and_assoc.symm
  levelAt?_eq_none_iff := fun i => Array.getElem?_eq_none_iff
  trialSize_eq := hb.trialSize_eq
  dataIndices_eq := fun f hf => by rw [hb.dataIndices_eq hf, hb.offset_eq hf]
  flatMap_dataIndices := hb.flatMap_dataIndices

end WellFormed

/-! ## Runs of variables -/

theorem Uncut.bijOn_variableAt (h : b.Uncut) :
    Set.BijOn (fun p : Nat × Nat => b.variableAt p.1 p.2) (Set.Iio b.trials ×ˢ Set.Iio b.trialSize)
      (Set.Icc 1 b.gridVariables) := by
  refine ⟨fun p hp => ⟨h.variableAt_pos hp.1 hp.2, h.variableAt_le hp.1 hp.2⟩,
    fun p hp q hq hvar => ?_, fun v hv => ?_⟩
  · obtain ⟨htrial, hindex⟩ := h.variableAt_inj hp.1 hp.2 hq.1 hq.2 hvar
    exact Prod.ext htrial hindex
  · obtain ⟨t, ht, d, hd, rfl⟩ := h.exists_variableAt_eq hv.1 hv.2
    exact ⟨(t, d), ⟨ht, hd⟩, rfl⟩

/-- **Numberings are bijections.** Data indices number the levels of the design, and if 32 bits
suffice, variables number the data indices of all trials. A data index that is moved by whole trials
is read that many trials later. -/
theorem numbering_bijective (hb : b.Accepted) :
    b.Tiled ∧
      (b.trials * b.trialSize < words32 →
        Set.BijOn (fun p : Nat × Nat => b.variableAt p.1 p.2)
          (Set.Iio b.trials ×ˢ Set.Iio b.trialSize)
          (Set.Icc 1 b.gridVariables)) ∧
      ∀ t i d, b.variableAt t (d + i * b.trialSize) = b.variableAt (t + i) d :=
  ⟨hb.wellFormed.tiled, Uncut.bijOn_variableAt, variableAt_add_mul⟩

/-- Factors of two levels, one and one in two trials: the last level has data index 3, and the eight
variables of the trials are all different. -/
theorem numbering_bijective_offbeat :
    ∃ b, fullyCrossed .offbeat ["color"] [] = .ok b ∧ b.trials * b.trialSize = 8 ∧
      b.dataIndex 2 0 = 3 ∧ b.Tiled ∧
      Set.BijOn (fun p : Nat × Nat => b.variableAt p.1 p.2)
        (Set.Iio b.trials ×ˢ Set.Iio b.trialSize)
        (Set.Icc 1 b.gridVariables) ∧
      ∀ t i d, b.variableAt t (d + i * b.trialSize) = b.variableAt (t + i) d := by
  have hrun : ((fullyCrossed .offbeat ["color"] []).toOption.map fun b =>
      (b.trials * b.trialSize, b.dataIndex 2 0)) = some (8, 3) := by
    decide +kernel
  obtain ⟨b, hb, hrun⟩ := Option.map_eq_some_iff.mp hrun
  rw [Outcome.toOption_eq_some] at hb
  obtain ⟨hsize, hlast⟩ := Prod.mk.inj hrun
  obtain ⟨htiled, hvariables, hmoved⟩ := numbering_bijective ⟨_, _, _, .inr hb⟩
  exact ⟨b, hb, hsize, hlast, htiled, hvariables (hsize ▸ by decide), hmoved⟩

end Block

end Counterbalance
