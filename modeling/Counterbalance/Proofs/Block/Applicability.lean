import Mathlib.Data.List.Nodup
import Counterbalance.Block.Basic
import Counterbalance.Proofs.Design.Faultless
import Counterbalance.Proofs.Design.Order

/-! When factors apply, by recursion along the factors that they read and without a number of
trials. The table of a block says the same below its number of trials, in whatever dependency order
it is filled, so that a longer table only adds trials. -/

namespace Counterbalance

namespace Window

variable {w : Window} {n i t : Nat}

/-- A window reads no trial after the one that it ends at. -/
theorem Admits.readTrial_le (hw : w.Admits n) (hi : i < n) (ht : w.firstTrial ≤ t) :
    w.readTrial t i ≤ t := by
  unfold readTrial
  split
  · exact Nat.le_refl t
  · have hwidth := hw.arguments_eq (by have := hw.width_pos; omega)
    simp only [firstTrial] at ht ⊢
    omega

/-- The trial that is read, counted from the trial that the window ends at. -/
theorem Admits.cast_readTrial (hw : w.Admits n) (ht : w.firstTrial ≤ t) :
    (w.readTrial t i : Int) = if w.width = 1 then (t : Int) else t - (w.width - 1) + i := by
  have hwidth : 0 < w.width := hw.width_pos
  simp only [readTrial, firstTrial] at ht ⊢
  split
  · rfl
  · omega

theorem readTrial_add (p : Nat) (ht : w.firstTrial ≤ t) :
    w.readTrial (t + p) i = w.readTrial t i + p := by
  unfold readTrial
  split
  · rfl
  · omega

theorem sub_firstTrial_le_readTrial : t - w.firstTrial ≤ w.readTrial t i := by
  unfold readTrial
  split
  · exact Nat.sub_le t _
  · exact Nat.le_add_right _ i

end Window

namespace Design

variable {d : Design}

/-- Factor `f` has a value in trial `t`: it is simple, or its window can end at `t` and all
arguments have values where the window reads them. -/
inductive Applies (d : Design) : Nat → Nat → Prop
  | simple {f t : Nat} : (d.factorAt f).window? = none → Applies d f t
  | derived {f t : Nat} {w : Window} : (d.factorAt f).window? = some w → w.firstTrial ≤ t →
      (t - w.firstTrial) % w.stride = 0 →
      (∀ l level (i : Nat) argument, (l, level) ∈ (d.factorAt f).derivedLevels →
        level.arguments[i]? = some argument → d.index? argument ≠ none) →
      (∀ l level (i : Nat) argument a, (l, level) ∈ (d.factorAt f).derivedLevels →
        level.arguments[i]? = some argument → d.index? argument = some a →
        Applies d a (w.readTrial t i)) → Applies d f t

/-- What a derived factor needs to apply. -/
theorem applies_derived_iff {f t : Nat} {w : Window} (hw : (d.factorAt f).window? = some w) :
    d.Applies f t ↔ w.firstTrial ≤ t ∧ (t - w.firstTrial) % w.stride = 0 ∧
      ∀ l level (i : Nat) argument, (l, level) ∈ (d.factorAt f).derivedLevels →
        level.arguments[i]? = some argument →
        ∃ a, d.index? argument = some a ∧ d.Applies a (w.readTrial t i) := by
  constructor
  · intro h
    cases h with
    | simple hnone => rw [hw] at hnone; cases hnone
    | derived hw' hfirst hstride hnames hargs =>
      obtain rfl := Option.some.inj (hw.symm.trans hw')
      refine ⟨hfirst, hstride, fun l level i argument hl hi => ?_⟩
      obtain ⟨a, ha⟩ := Option.ne_none_iff_exists'.mp (hnames l level i argument hl hi)
      exact ⟨a, ha, hargs l level i argument a hl hi ha⟩
  · rintro ⟨hfirst, hstride, hargs⟩
    refine .derived hw hfirst hstride (fun l level i argument hl hi hnone => ?_)
      (fun l level i argument a hl hi ha => ?_)
    · obtain ⟨a, ha, _⟩ := hargs l level i argument hl hi
      rw [hnone] at ha
      cases ha
    · obtain ⟨a', ha', happ⟩ := hargs l level i argument hl hi
      rw [ha] at ha'
      exact Option.some.inj ha' ▸ happ

/-! ## Tables -/

theorem applicability_snoc (order : List Nat) (f trials : Nat) :
    d.applicability (order ++ [f]) trials =
      (d.applicability order trials).setIfInBounds f
        (Array.ofFn fun t : Fin trials =>
          d.appliesAt (d.applicability order trials) (d.factorAt f) t) := by
  rw [applicability, List.foldl_append]
  rfl

theorem size_applicability {order : List Nat} (h : d.Ordered order) (trials : Nat) :
    (d.applicability order trials).size = d.length := by
  induction h with
  | nil => simp [applicability]
  | snoc _ _ _ _ ih => rw [applicability_snoc, Array.size_setIfInBounds, ih]

/-- A table that is right about the arguments of a factor tells where the factor applies. -/
theorem appliesAt_iff (hd : d.Faultless) {table : Applicability} {f t trials : Nat}
    (ht : t < trials)
    (htable : ∀ a, d.Reads f a → ∀ t < trials, table.get a t = true ↔ d.Applies a t) :
    d.appliesAt table (d.factorAt f) t = true ↔ d.Applies f t := by
  unfold appliesAt
  cases hw : (d.factorAt f).window? with
  | none => exact iff_of_true rfl (.simple hw)
  | some w =>
    rw [applies_derived_iff hw]
    simp only [Bool.and_eq_true, decide_eq_true_eq, List.all_eq_true, Prod.forall,
      List.mem_zipIdx_iff_getElem?, and_assoc]
    refine and_congr_right fun hfirst => and_congr_right fun _ => ?_
    refine forall_congr' fun l => forall_congr' fun level => ?_
    constructor
    · intro h i argument hl hi
      have hget := h hl argument i hi
      split at hget
      · cases hget
      · rename_i a ha
        refine ⟨a, ha, ?_⟩
        have hlt := (List.getElem?_eq_some_iff.mp hi).1
        have hread := (hd.admits hw hl).readTrial_le hlt hfirst
        exact (htable a (reads_of_argument hl (List.mem_of_getElem? hi) ha) _
          (Nat.lt_of_le_of_lt hread ht)).mp hget
    · intro h hl argument i hi
      obtain ⟨a, ha, happ⟩ := h i argument hl hi
      have hlt := (List.getElem?_eq_some_iff.mp hi).1
      have hread := (hd.admits hw hl).readTrial_le hlt hfirst
      rw [ha]
      exact (htable a (reads_of_argument hl (List.mem_of_getElem? hi) ha) _
        (Nat.lt_of_le_of_lt hread ht)).mpr happ

/-- **The table tells when factors apply**, below its number of trials. -/
theorem get_applicability_iff (hd : d.Faultless) {order : List Nat} (h : d.Ordered order)
    {trials f t : Nat} :
    (d.applicability order trials).get f t = true ↔ f ∈ order ∧ t < trials ∧ d.Applies f t := by
  induction h generalizing f t with
  | nil =>
    have hget : (d.applicability [] trials).get f t = false := by
      rw [applicability, List.foldl_nil, Applicability.get, Array.getElem?_replicate]
      split <;> rfl
    simp [hget]
  | @snoc order g hord hlt hnew hargs ih =>
    rw [applicability_snoc, Applicability.get_setIfInBounds_ofFn (by rwa [size_applicability hord])]
    by_cases hf : f = g
    · subst hf
      rw [if_pos rfl, Bool.and_eq_true, decide_eq_true_eq]
      simp only [List.mem_append, List.mem_singleton, or_true, true_and]
      refine and_congr_right fun ht => appliesAt_iff hd ht fun a hreads t ht => ?_
      rw [ih]
      simp [hreads.mem hargs, ht]
    · rw [if_neg hf, ih]
      simp [hf]

theorem row_applicability {order : List Nat} (h : d.Ordered order) (trials : Nat) {f : Nat}
    (hf : f ∈ order) :
    ∃ row : Array Bool, (d.applicability order trials)[f]? = some row ∧ row.size = trials := by
  induction h with
  | nil => cases hf
  | @snoc order g hord hlt hnew hargs ih =>
    rw [applicability_snoc, Array.getElem?_setIfInBounds, size_applicability hord]
    by_cases hfg : g = f
    · rw [if_pos hfg, if_pos hlt]
      exact ⟨_, rfl, Array.size_ofFn⟩
    · rw [if_neg hfg]
      exact ih (by simpa [Ne.symm hfg] using hf)

/-- Cut to its first trials, a table is the table of these trials. -/
theorem cut_applicability (hd : d.Faultless) {order : List Nat} (h : d.Ordered order)
    (hall : ∀ f < d.length, f ∈ order) {trials longer : Nat} (hle : trials ≤ longer) :
    (d.applicability order longer).cut trials = d.applicability order trials := by
  refine Array.ext_getElem? fun f => ?_
  rw [Applicability.cut, Array.getElem?_map]
  by_cases hf : f < d.length
  · obtain ⟨row, hrow, hsize⟩ := row_applicability h longer (hall f hf)
    obtain ⟨row', hrow', hsize'⟩ := row_applicability h trials (hall f hf)
    rw [hrow, hrow', Option.map_some, Option.some.injEq]
    refine Array.ext (by simp [hsize, hsize', hle]) fun t ht ht' => ?_
    have hlong : t < row.size := by omega
    have hcell : (d.applicability order longer).get f t = row[t] := by
      simp [Applicability.get, hrow, hlong]
    have hcell' : (d.applicability order trials).get f t = row'[t] := by
      simp [Applicability.get, hrow', ht']
    have htake : (row.take trials)[t] = row[t] := by simp
    rw [htake, ← hcell, ← hcell', Bool.eq_iff_iff, get_applicability_iff hd h,
      get_applicability_iff hd h, and_congr_right_iff]
    exact fun _ => and_congr_left fun _ => ⟨fun _ => hsize' ▸ ht', fun _ => hsize ▸ hlong⟩
  · rw [Array.getElem?_eq_none (by rw [size_applicability h]; omega),
      Array.getElem?_eq_none (by rw [size_applicability h]; omega), Option.map_none]

end Design

end Counterbalance
