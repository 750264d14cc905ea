import Counterbalance.Block.LevelFormula
import Counterbalance.Proofs.Block.Accepted

/-! Where levels and variables stand. Data indices number the levels of a trial without gaps or
overlaps, and variables number the data indices of all trials, as long as 32 bits suffice for
them. -/

namespace Counterbalance

/-! ## Data indices -/

namespace Layout

/-- The number of levels of the factors before `f`. -/
def start (d : Design) (f : Nat) : Nat := ((d.take f).map Factor.size).sum

theorem start_zero (d : Design) : start d 0 = 0 := rfl

theorem start_cons_succ (e : Factor) (rest : Design) (f : Nat) :
    start (e :: rest) (f + 1) = e.size + start rest f := by
  simp [start]

theorem getElem?_offsetsFrom {d : Design} {next f : Nat} (h : f < d.length) :
    (offsetsFrom next d)[f]? = some (next + start d f) := by
  induction d generalizing next f with
  | nil => cases h
  | cons e rest ih =>
    cases f with
    | zero => simp [offsetsFrom, start_zero]
    | succ f =>
      rw [offsetsFrom, List.getElem?_cons_succ, ih (Nat.lt_of_succ_lt_succ h), start_cons_succ]
      rw [Nat.add_assoc]

/-- Every index below the number of levels is owned by the one level that it is the index of. -/
theorem getElem?_ownersFrom {d : Design} {position i : Nat} {owner : Nat × Nat} :
    (ownersFrom position d)[i]? = some owner ↔
      ∃ f l, owner = (position + f, l) ∧ f < d.length ∧ l < (d.factorAt f).size ∧
        i = start d f + l := by
  induction d generalizing position i with
  | nil => simp [ownersFrom]
  | cons e rest ih =>
    rw [ownersFrom, List.getElem?_append, List.length_map, List.length_range]
    split
    · rename_i hi
      rw [List.getElem?_map, List.getElem?_range hi, Option.map_some, Option.some.injEq]
      constructor
      · intro h
        exact ⟨0, i, h.symm, Nat.succ_pos _, hi, (Nat.zero_add i).symm⟩
      · intro h
        obtain ⟨f, l, howner, _, _, hl⟩ := h
        cases f with
        | zero =>
          rw [start_zero, Nat.zero_add] at hl
          rw [howner, hl, Nat.add_zero]
        | succ f =>
          rw [start_cons_succ] at hl
          omega
    · rename_i hi
      rw [ih]
      constructor
      · intro h
        obtain ⟨f, l, howner, hf, hl, hindex⟩ := h
        refine ⟨f + 1, l, ?_, Nat.succ_lt_succ hf, hl, ?_⟩
        · rw [howner, Nat.add_assoc, Nat.add_comm 1]
        · rw [start_cons_succ]
          omega
      · intro h
        obtain ⟨f, l, howner, hf, hl, hindex⟩ := h
        cases f with
        | zero =>
          have hsize : l < e.size := hl
          rw [start_zero] at hindex
          omega
        | succ f =>
          rw [start_cons_succ] at hindex
          refine ⟨f, l, ?_, Nat.lt_of_succ_lt_succ hf, hl, by omega⟩
          rw [howner, Nat.add_assoc, Nat.add_comm 1]

end Layout

namespace Block

variable {b : Block}

namespace WellFormed

theorem dataIndex_eq (hb : b.WellFormed) {f l : Nat} (hf : f < b.design.length) :
    b.dataIndex f l = Layout.start b.design f + l := by
  have hfrom : (Layout.offsetsFrom 0 b.design)[f]? = some (0 + Layout.start b.design f) :=
    Layout.getElem?_offsetsFrom hf
  have hoffset : b.layout.offsets[f]? = some (0 + Layout.start b.design f) := by
    rw [hb.layout_eq]
    simpa [Layout.ofDesign] using hfrom
  rw [dataIndex, offset, hoffset, Option.getD_some, Nat.zero_add]

/-- Data indices and levels name each other. -/
theorem levelAt?_eq_some_iff (hb : b.WellFormed) {i f l : Nat} :
    b.levelAt? i = some (f, l) ↔
      f < b.design.length ∧ l < (b.design.factorAt f).size ∧ i = b.dataIndex f l := by
  have howner : b.levelAt? i = (Layout.ownersFrom 0 b.design)[i]? := by
    rw [levelAt?, hb.layout_eq]
    simp [Layout.ofDesign]
  rw [howner, Layout.getElem?_ownersFrom]
  constructor
  · intro h
    obtain ⟨g, m, howner, hg, hm, hindex⟩ := h
    rw [Nat.zero_add] at howner
    obtain ⟨rfl, rfl⟩ := Prod.mk.inj howner
    exact ⟨hg, hm, hindex.trans (hb.dataIndex_eq hg).symm⟩
  · intro h
    obtain ⟨hf, hl, hindex⟩ := h
    exact ⟨f, l, by rw [Nat.zero_add], hf, hl, hindex.trans (hb.dataIndex_eq hf)⟩

theorem levelAt?_dataIndex (hb : b.WellFormed) {f l : Nat} (hf : f < b.design.length)
    (hl : l < (b.design.factorAt f).size) : b.levelAt? (b.dataIndex f l) = some (f, l) :=
  hb.levelAt?_eq_some_iff.mpr ⟨hf, hl, rfl⟩

theorem dataIndex_lt (hb : b.WellFormed) {f l : Nat} (hf : f < b.design.length)
    (hl : l < (b.design.factorAt f).size) : b.dataIndex f l < b.trialSize := by
  have h := hb.levelAt?_dataIndex hf hl
  exact (Array.getElem?_eq_some_iff.mp h).1

/-- Different levels have different data indices. -/
theorem dataIndex_inj (hb : b.WellFormed) {f g l m : Nat} (hf : f < b.design.length)
    (hl : l < (b.design.factorAt f).size) (hg : g < b.design.length)
    (hm : m < (b.design.factorAt g).size) (h : b.dataIndex f l = b.dataIndex g m) :
    f = g ∧ l = m := by
  have hlevel := hb.levelAt?_dataIndex hf hl
  rw [h, hb.levelAt?_dataIndex hg hm] at hlevel
  exact Prod.mk.inj (Option.some.inj hlevel.symm)

theorem exists_dataIndex_eq (hb : b.WellFormed) {i : Nat} (hi : i < b.trialSize) :
    ∃ f l, f < b.design.length ∧ l < (b.design.factorAt f).size ∧ i = b.dataIndex f l := by
  have h : b.levelAt? i = some b.layout.owners[i] := Array.getElem?_eq_getElem hi
  exact ⟨_, _, hb.levelAt?_eq_some_iff.mp h⟩

theorem levelName?_dataIndex (hb : b.WellFormed) {f l : Nat} {level : Level}
    (hf : f < b.design.length) (hl : (b.design.factorAt f).levels[l]? = some level) :
    b.levelName? (b.dataIndex f l) = some level.name := by
  rw [levelName?, hb.levelAt?_dataIndex hf (List.getElem?_eq_some_iff.mp hl).1]
  simp [hl]

end WellFormed

/-! ## Variables -/

/-- Moving the trial or the data index by whole trials comes to the same. -/
theorem variableAt_add_mul (t i d : Nat) :
    b.variableAt t (d + i * b.trialSize) = b.variableAt (t + i) d := by
  rw [variableAt, variableAt, Nat.add_mul]
  congr 1
  omega

/-- No trial variable is cut to 32 bits. -/
def Uncut (b : Block) : Prop := b.trials * b.trialSize < words32

/-- All trial variables are in the range of literals. -/
def InRange (b : Block) : Prop := b.trials * b.trialSize ≤ maxVariable

theorem InRange.uncut (hr : b.InRange) : b.Uncut := Nat.lt_of_le_of_lt hr (by decide)

theorem position_lt {t d : Nat} (ht : t < b.trials) (hd : d < b.trialSize) :
    t * b.trialSize + d < b.trials * b.trialSize := by
  have hle : t * b.trialSize + b.trialSize ≤ b.trials * b.trialSize := by
    rw [← Nat.succ_mul]
    exact Nat.mul_le_mul_right _ ht
  omega

/-- A number of whole trials and a data index are told apart in their sum. -/
theorem eq_of_add_mul_eq {n k k' d e : Nat} (hd : d < n) (he : e < n) (h : d + k * n = e + k' * n) :
    k = k' ∧ d = e := by
  have hpos : 0 < n := Nat.zero_lt_of_lt hd
  have hquotient := congrArg (· / n) h
  have hremainder := congrArg (· % n) h
  simp only [Nat.add_mul_div_right _ _ hpos, Nat.div_eq_of_lt hd, Nat.div_eq_of_lt he, Nat.zero_add]
    at hquotient
  simp only [Nat.add_mul_mod_self_right, Nat.mod_eq_of_lt hd, Nat.mod_eq_of_lt he] at hremainder
  exact ⟨hquotient, hremainder⟩

namespace Uncut

theorem gridVariables_eq (h : b.Uncut) : b.gridVariables = b.trials * b.trialSize :=
  Nat.mod_eq_of_lt h

theorem variableAt_eq (h : b.Uncut) {t d : Nat} (ht : t < b.trials) (hd : d < b.trialSize) :
    b.variableAt t d = t * b.trialSize + d + 1 :=
  Nat.mod_eq_of_lt (Nat.lt_of_le_of_lt (position_lt ht hd) h)

theorem variableAt_le (h : b.Uncut) {t d : Nat} (ht : t < b.trials) (hd : d < b.trialSize) :
    b.variableAt t d ≤ b.gridVariables := by
  rw [h.variableAt_eq ht hd, h.gridVariables_eq]
  exact position_lt ht hd

theorem variableAt_pos (h : b.Uncut) {t d : Nat} (ht : t < b.trials) (hd : d < b.trialSize) :
    0 < b.variableAt t d := by
  rw [h.variableAt_eq ht hd]
  exact Nat.succ_pos _

/-- Different trials or data indices have different variables. -/
theorem variableAt_inj (h : b.Uncut) {t u d e : Nat} (ht : t < b.trials) (hd : d < b.trialSize)
    (hu : u < b.trials) (he : e < b.trialSize) (hvar : b.variableAt t d = b.variableAt u e) :
    t = u ∧ d = e := by
  rw [h.variableAt_eq ht hd, h.variableAt_eq hu he] at hvar
  refine eq_of_add_mul_eq hd he ?_
  omega

/-- Every trial variable belongs to a trial and a data index. -/
theorem exists_variableAt_eq (h : b.Uncut) {v : Nat} (hpos : 0 < v) (hle : v ≤ b.gridVariables) :
    ∃ t < b.trials, ∃ d < b.trialSize, v = b.variableAt t d := by
  rw [h.gridVariables_eq] at hle
  have hsize : 0 < b.trialSize := Nat.pos_of_mul_pos_left (Nat.lt_of_lt_of_le hpos hle)
  have hlt : v - 1 < b.trialSize * b.trials := by
    rw [Nat.mul_comm]
    omega
  have ht : (v - 1) / b.trialSize < b.trials := Nat.div_lt_of_lt_mul hlt
  have hd : (v - 1) % b.trialSize < b.trialSize := Nat.mod_lt _ hsize
  refine ⟨_, ht, _, hd, ?_⟩
  rw [h.variableAt_eq ht hd, Nat.div_add_mod']
  omega

end Uncut

end Block

end Counterbalance
