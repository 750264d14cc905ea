import Counterbalance.Block.Sequence
import Counterbalance.Proofs.Block.Cells
import Counterbalance.Proofs.Logic.Models

/-! Reading sequences. A truth assignment, written as one signed entry per variable, can be read
exactly if it chooses one level in every cell whose factor applies; the sequence then shows the
chosen levels. -/

namespace Counterbalance

namespace Block

variable {b : Block} {ν : Nat → Bool} {n : Nat}

theorem misorderedEntry?_signedEntries (ν : Nat → Bool) (n : Nat) :
    misorderedEntry? (signedEntries ν n) = none := by
  unfold misorderedEntry?
  rw [Option.map_eq_none_iff, List.find?_eq_none]
  intro p hmem
  obtain ⟨entry, i⟩ := p
  rw [List.mem_zipIdx_iff_getElem?, Array.getElem?_toList, signedEntries, Array.getElem?_ofFn]
    at hmem
  split at hmem
  · have hentry := Option.some.inj hmem
    simp only [ne_eq, decide_not, Bool.not_eq_true', decide_eq_false_iff_not, not_not] at hentry ⊢
    split at hentry <;> omega
  · cases hmem

/-! ## Cells -/

/-- Entries are read as the assignment says that they were written from. -/
theorem isChosen_signedEntries (hb : b.WellFormed) (hr : b.InRange) (hn : b.gridVariables ≤ n)
    {f t l : Nat} (hf : f < b.design.length) (ht : t < b.trials)
    (hl : l < (b.design.factorAt f).size) :
    b.isChosen (signedEntries ν n) f t l = ν (b.variableAt t (b.dataIndex f l)) := by
  have hd := hb.dataIndex_lt hf hl
  exact valuation_signedEntries (hr.uncut.variableAt_pos ht hd)
    (Nat.le_trans (hr.uncut.variableAt_le ht hd) hn)

theorem filter_isChosen_eq_singleton (hb : b.WellFormed) (hr : b.InRange) (hn : b.gridVariables ≤ n)
    {f t l : Nat} (hf : f < b.design.length) (ht : t < b.trials) :
    (List.range (b.design.factorAt f).size).filter (b.isChosen (signedEntries ν n) f t) = [l] ↔
      b.Chosen ν f t l ∧ ∀ m, b.Chosen ν f t m → m = l := by
  have hchosen : ∀ m, m < (b.design.factorAt f).size ∧
      b.isChosen (signedEntries ν n) f t m = true ↔ b.Chosen ν f t m := by
    intro m
    refine and_congr_right fun hm => ?_
    rw [isChosen_signedEntries hb hr hn hf ht hm]
  rw [Lists.filter_range_eq_singleton]
  simp only [hchosen]

/-- What a cell is read as. -/
theorem decodeCell_eq_ok (hb : b.WellFormed) (hr : b.InRange) (hn : b.gridVariables ≤ n) {f t : Nat}
    (hf : f < b.design.length) (ht : t < b.trials) {name? : Option String} :
    b.decodeCell (signedEntries ν n) f t = .ok name? ↔
      if b.applies f t then
        ∃ l, (b.Chosen ν f t l ∧ ∀ m, b.Chosen ν f t m → m = l) ∧
          name? = ((b.design.factorAt f).levels[l]?).map Level.name
      else name? = none := by
  unfold decodeCell
  split
  · simp only [← filter_isChosen_eq_singleton hb hr hn hf ht]
    split
    · rename_i l hl
      rw [Except.ok.injEq, hl]
      grind
    · rename_i hne
      refine iff_of_false nofun fun ⟨l, hl, _⟩ => hne l hl
  · rw [Except.ok.injEq, eq_comm]

/-! ## Sequences -/

/-- The sequence shows the levels that the assignment chooses, and nothing where a factor does not
apply. -/
def Shows (b : Block) (ν : Nat → Bool) (s : Sequence) : Prop :=
  ∀ f < b.design.length, ∀ t name, s.get? (b.design.factorAt f).name t = some name ↔
    b.applies f t = true ∧
      ∃ l, b.Chosen ν f t l ∧ ((b.design.factorAt f).levels[l]?).map Level.name = some name

theorem decode_signedEntries_eq_ok (hn : b.gridVariables ≤ n) {s : Sequence} :
    b.decode (signedEntries ν n) = .ok s ↔
      ∃ columns,
        (List.range b.design.length).mapM (b.decodeColumn (signedEntries ν n)) = .ok columns ∧
        s = ⟨columns, b.trials⟩ := by
  rw [decode, size_signedEntries, if_neg (Nat.not_lt.mpr hn), misorderedEntry?_signedEntries]
  show (_ >>= _ = _) ↔ _
  rw [Outcome.bind_eq_ok]
  simp only [Except.ok.injEq, eq_comm]

theorem decodeColumn_eq_ok {entries : Array Int} {f : Nat} {column : Column} :
    b.decodeColumn entries f = .ok column ↔
      ∃ levels, (List.range b.trials).mapM (b.decodeCell entries f) = .ok levels ∧
        column = ⟨(b.design.factorAt f).name, levels.toArray⟩ := by
  rw [decodeColumn, Outcome.bind_eq_ok]
  simp only [Except.ok.injEq, eq_comm]

/-- The column of a factor is found by the factor's name. -/
theorem column?_of_decode (hb : b.WellFormed) (hn : b.gridVariables ≤ n) {s : Sequence}
    (h : b.decode (signedEntries ν n) = .ok s) {f : Nat} (hf : f < b.design.length) :
    ∃ column, s.column? (b.design.factorAt f).name = some column ∧
      b.decodeColumn (signedEntries ν n) f = .ok column := by
  obtain ⟨columns, hcolumns, rfl⟩ := (decode_signedEntries_eq_ok hn).mp h
  obtain ⟨column, hcolumn⟩ := Outcome.exists_ok_of_mapM hcolumns (List.mem_range.mpr hf)
  refine ⟨column, Lists.find?_eq_some_of_unique ?_ ?_ fun other hother hname => ?_, hcolumn⟩
  · exact (Outcome.mem_iff_of_mapM hcolumns).mpr ⟨f, List.mem_range.mpr hf, hcolumn⟩
  · obtain ⟨_, _, rfl⟩ := decodeColumn_eq_ok.mp hcolumn
    exact decide_eq_true rfl
  · obtain ⟨g, hg, hdecode⟩ := (Outcome.mem_iff_of_mapM hcolumns).mp hother
    have hsame : (b.design.factorAt g).name = (b.design.factorAt f).name := by
      obtain ⟨_, _, rfl⟩ := decodeColumn_eq_ok.mp hdecode
      exact of_decide_eq_true hname
    have hindex := hb.faultless.index?_name (List.mem_range.mp hg)
    rw [hsame, hb.faultless.index?_name hf] at hindex
    obtain rfl := Option.some.inj hindex
    rw [hcolumn] at hdecode
    exact (Except.ok.inj hdecode).symm

/-- What is read from a truth assignment depends on its choices in the cells whose factors apply. -/
theorem decode_congr (hb : b.WellFormed) (hr : b.InRange) {μ : Nat → Bool} {m : Nat}
    (hn : b.gridVariables ≤ n) (hm : b.gridVariables ≤ m)
    (h : ∀ f t l, b.applies f t = true → (b.Chosen ν f t l ↔ b.Chosen μ f t l)) :
    b.decode (signedEntries ν n) = b.decode (signedEntries μ m) := by
  have hcell : ∀ f < b.design.length, ∀ t < b.trials,
      b.decodeCell (signedEntries ν n) f t = b.decodeCell (signedEntries μ m) f t := by
    intro f hf t ht
    unfold decodeCell
    split
    · rename_i happ
      have hfilter :
          (List.range (b.design.factorAt f).size).filter (b.isChosen (signedEntries ν n) f t) =
          (List.range (b.design.factorAt f).size).filter (b.isChosen (signedEntries μ m) f t) := by
        refine List.filter_congr fun l hl => ?_
        have hl := List.mem_range.mp hl
        rw [isChosen_signedEntries hb hr hn hf ht hl, isChosen_signedEntries hb hr hm hf ht hl]
        have hsame := h f t l happ
        rw [Chosen, Chosen, and_iff_right hl, and_iff_right hl] at hsame
        exact Bool.eq_iff_iff.mpr hsame
      simp only [hfilter]
    · rfl
  have hcolumns : (List.range b.design.length).mapM (b.decodeColumn (signedEntries ν n)) =
      (List.range b.design.length).mapM (b.decodeColumn (signedEntries μ m)) := by
    refine Outcome.mapM_congr fun f hf => ?_
    rw [decodeColumn, decodeColumn,
      Outcome.mapM_congr fun t ht => hcell f (List.mem_range.mp hf) t (List.mem_range.mp ht)]
  rw [decode, decode, size_signedEntries, size_signedEntries, if_neg (Nat.not_lt.mpr hn),
    if_neg (Nat.not_lt.mpr hm), misorderedEntry?_signedEntries, misorderedEntry?_signedEntries]
  simp only [hcolumns]

/-- Assignments that agree on the trial variables are read alike. -/
theorem decode_eq_of_agree (hb : b.WellFormed) (hr : b.InRange) {μ : Nat → Bool} {m : Nat}
    (hn : b.gridVariables ≤ n) (hm : b.gridVariables ≤ m)
    (h : ∀ v, 0 < v → v ≤ b.gridVariables → ν v = μ v) :
    b.decode (signedEntries ν n) = b.decode (signedEntries μ m) := by
  refine decode_congr hb hr hn hm fun f t l happ => ?_
  obtain ⟨hf, ht, _⟩ := hb.applies_iff.mp happ
  exact chosen_congr hb hr h hf ht

/-- **What is decoded is what was chosen.** -/
theorem shows_of_decode (hb : b.WellFormed) (hr : b.InRange) (hn : b.gridVariables ≤ n)
    {s : Sequence} (h : b.decode (signedEntries ν n) = .ok s) : b.Shows ν s := by
  intro f hf t name
  obtain ⟨column, hcolumn, hdecode⟩ := column?_of_decode hb hn h hf
  obtain ⟨levels, hlevels, rfl⟩ := decodeColumn_eq_ok.mp hdecode
  have hlength : levels.length = b.trials := by
    rw [← (Outcome.mapM_eq_ok.mp hlevels).length_eq, List.length_range]
  have hget : s.get? (b.design.factorAt f).name t = (levels[t]?).join := by
    rw [Sequence.get?, hcolumn]
    cases ht : levels[t]? with
    | none => simp [ht]
    | some name? => cases name? <;> simp [ht]
  rw [hget, Option.join_eq_some_iff]
  by_cases ht : t < b.trials
  · have hrange : (List.range b.trials)[t]? = some t := List.getElem?_range ht
    obtain ⟨cell, hcell?, hcell⟩ :=
      Lists.getElem?_right_of_forall₂ (Outcome.mapM_eq_ok.mp hlevels) hrange
    rw [hcell?, Option.some.injEq]
    have hspec := (decodeCell_eq_ok hb hr hn hf ht).mp hcell
    split at hspec
    · rename_i happ
      obtain ⟨l, ⟨hl, huniq⟩, hname⟩ := hspec
      rw [hname, and_iff_right happ]
      constructor
      · intro hlevel
        exact ⟨l, hl, hlevel⟩
      · intro h
        obtain ⟨m, hm, hlevel⟩ := h
        rw [← huniq m hm, hlevel]
    · rename_i happ
      rw [hspec]
      exact iff_of_false nofun fun h => happ h.1
  · rw [List.getElem?_eq_none (by omega)]
    exact iff_of_false nofun fun ⟨happ, _⟩ => ht (hb.applies_iff.mp happ).2.1

/-- **Decoding succeeds exactly if one level is chosen wherever a factor applies.** -/
theorem exists_decode_iff (hb : b.WellFormed) (hr : b.InRange) (hn : b.gridVariables ≤ n) :
    (∃ s, b.decode (signedEntries ν n) = .ok s) ↔
      ∀ f t, b.applies f t = true → ∃! l, b.Chosen ν f t l := by
  have hcolumn : ∀ f, (∃ column, b.decodeColumn (signedEntries ν n) f = .ok column) ↔
      ∀ t < b.trials, ∃ name?, b.decodeCell (signedEntries ν n) f t = .ok name? := by
    intro f
    have hcells :
        (∃ names, (List.range b.trials).mapM (b.decodeCell (signedEntries ν n) f) = .ok names) ↔
        ∀ t ∈ List.range b.trials, ∃ name?, b.decodeCell (signedEntries ν n) f t = .ok name? :=
      Outcome.exists_mapM_eq_ok
    simp only [List.mem_range] at hcells
    rw [← hcells]
    simp only [decodeColumn_eq_ok]
    grind
  have hdecode : (∃ s, b.decode (signedEntries ν n) = .ok s) ↔
      ∀ f < b.design.length,
        ∀ t < b.trials, ∃ name?, b.decodeCell (signedEntries ν n) f t = .ok name? := by
    have hcolumns : (∃ columns,
        (List.range b.design.length).mapM (b.decodeColumn (signedEntries ν n)) = .ok columns) ↔
        ∀ f ∈ List.range b.design.length,
          ∃ column, b.decodeColumn (signedEntries ν n) f = .ok column :=
      Outcome.exists_mapM_eq_ok
    simp only [List.mem_range, hcolumn] at hcolumns
    rw [← hcolumns]
    simp only [decode_signedEntries_eq_ok hn]
    grind
  rw [hdecode]
  constructor
  · intro h f t happ
    obtain ⟨hf, ht, _⟩ := hb.applies_iff.mp happ
    obtain ⟨name?, hcell⟩ := h f hf t ht
    rw [decodeCell_eq_ok hb hr hn hf ht, if_pos happ] at hcell
    obtain ⟨l, hl, _⟩ := hcell
    exact ⟨l, hl⟩
  · intro h f hf t ht
    by_cases happ : b.applies f t = true
    · obtain ⟨l, hl⟩ := h f t happ
      exact ⟨_, (decodeCell_eq_ok hb hr hn hf ht).mpr (by rw [if_pos happ]; exact ⟨l, hl, rfl⟩)⟩
    · exact ⟨none, (decodeCell_eq_ok hb hr hn hf ht).mpr (if_neg happ ▸ rfl)⟩

end Block

end Counterbalance
