import Counterbalance.Proofs.Block.Applicability
import Counterbalance.Proofs.Design.Cycle

/-! How blocks are made, taken apart. Both ways first check the design, order its factors and look
up the crossed ones. One then compares the trials in which all crossed factors apply with the
combinations, the other one searches for the trial that the last combination needs. -/

namespace Counterbalance

/-- The error depends on the number of trials. -/
def DesignError.OfTrials : DesignError → Prop
  | .noTrials => True
  | .crossingNeverApplies => True
  | .tooFewTrials _ _ => True
  | _ => False

namespace Design

variable {d : Design}

theorem resolveCrossing_eq_ok {names : List String} {crossing : List Nat} :
    d.resolveCrossing names = .ok crossing ↔
      List.Forall₂ (fun name f => d.index? name = some f) names crossing ∧ crossing ≠ [] := by
  rw [resolveCrossing, Outcome.bind_eq_ok]
  simp only [Outcome.mapM_eq_ok]
  constructor
  · rintro ⟨cs, hcs, h⟩
    split at h
    · cases h
    · rename_i hne
      obtain rfl := Except.ok.inj h
      refine ⟨hcs.imp fun name f hf => ?_, hne⟩
      split at hf
      · rename_i g hg
        exact Except.ok.inj hf ▸ hg
      · cases hf
  · rintro ⟨hcs, hne⟩
    exact ⟨crossing, hcs.imp fun name f hf => by rw [hf], if_neg hne⟩

/-- Different names are resolved to different factors. -/
theorem nodup_of_resolveCrossing {names : List String} {crossing : List Nat}
    (h : d.resolveCrossing names = .ok crossing) (hnames : names.Nodup) : crossing.Nodup := by
  have hall : List.Forall₂ (· = ·) names (crossing.map fun f => (d.factorAt f).name) := by
    rw [List.forall₂_map_right_iff]
    exact (resolveCrossing_eq_ok.mp h).1.imp fun name f hf => (factorAt_of_index? hf).2.symm
  rw [List.forall₂_eq_eq_eq] at hall
  exact List.Nodup.of_map _ (hall ▸ hnames)

theorem prepare_eq_ok {names : List String} {order crossing : List Nat} :
    d.prepare names = .ok (order, crossing) ↔
      d.Faultless ∧ d.dependencyOrder = .ok order ∧ d.resolveCrossing names = .ok crossing := by
  rw [← fault?_eq_none_iff, prepare]
  cases d.fault? with
  | some e => simp
  | none =>
    simp only [Outcome.bind_eq_ok, Except.ok.injEq, Prod.mk.injEq, true_and]
    constructor
    · rintro ⟨o, ho, c, hc, rfl, rfl⟩
      exact ⟨ho, hc⟩
    · rintro ⟨ho, hc⟩
      exact ⟨order, ho, crossing, hc, rfl, rfl⟩

/-! ## Errors of the preparation -/

theorem OfTrials.not_of_fault? {e : DesignError} (h : d.fault? = some e) : ¬ e.OfTrials := by
  rcases fault?_cases h with ⟨_, f, _, _, hf⟩ | ⟨_, _, _, _, _, _, _, rfl⟩
  · rcases Factor.fault?_cases hf with ⟨rfl, _⟩ | ⟨rfl, _⟩ | ⟨_, rfl, _⟩ | ⟨rfl, _⟩ | hf
    · exact id
    · exact id
    · exact id
    · exact id
    · rcases Factor.windowFault?_cases hf with ⟨rfl, _⟩ | ⟨_, _, _, rfl, _⟩ <;> exact id
  · exact id

theorem OfTrials.not_of_raised {e : DesignError} (h : d.Raised e) : ¬ e.OfTrials := by
  cases h <;> exact id

/-- The preparation does not depend on the number of trials, and neither do its errors. -/
theorem OfTrials.not_of_prepare {names : List String} {e : DesignError}
    (h : d.prepare names = .error e) : ¬ e.OfTrials := by
  rw [prepare] at h
  split at h
  · rename_i e' he
    exact Except.error.inj h ▸ not_of_fault? he
  · rcases Outcome.bind_eq_error.mp h with h | ⟨order, _, h⟩
    · exact not_of_raised (raised_of_dependencyOrder h)
    · rcases Outcome.bind_eq_error.mp h with h | ⟨crossing, _, h⟩
      · rcases Outcome.bind_eq_error.mp h with h | ⟨cs, _, h⟩
        · obtain ⟨name, _, h⟩ := Outcome.exists_error_of_mapM h
          split at h
          · cases h
          · cases h; exact id
        · split at h <;> cases h
          exact id
      · cases h

/-- What both ways to make a block establish about a design and the names of the crossed factors. -/
structure Prepared (d : Design) (order crossing : List Nat) : Prop where
  faultless : d.Faultless
  ordered : d.Ordered order
  mem_order : ∀ f < d.length, f ∈ order
  crossing_lt : ∀ f ∈ crossing, f < d.length
  crossing_ne : crossing ≠ []

theorem prepared_of_prepare {names : List String} {order crossing : List Nat}
    (h : d.prepare names = .ok (order, crossing)) : d.Prepared order crossing := by
  obtain ⟨hd, ho, hc⟩ := prepare_eq_ok.mp h
  obtain ⟨hord, hall⟩ := ordered_of_dependencyOrder ho
  obtain ⟨hnames, hne⟩ := resolveCrossing_eq_ok.mp hc
  refine ⟨hd, hord, hall, fun f hf => ?_, hne⟩
  obtain ⟨name, _, hindex⟩ := Lists.exists_left_of_mem hnames hf
  exact (factorAt_of_index? hindex).1

theorem Prepared.combinations_pos {order crossing : List Nat} (h : d.Prepared order crossing) :
    0 < d.combinations crossing := by
  have hsize : ∀ f ∈ crossing, 0 < (d.factorAt f).size := fun f hf =>
    List.length_pos_iff.mpr (h.faultless.fitsAt (h.crossing_lt f hf)).nonempty
  clear h
  induction crossing with
  | nil => exact Nat.one_pos
  | cons f fs ih =>
    rw [List.forall_mem_cons] at hsize
    exact Nat.mul_pos hsize.1 (ih hsize.2)

theorem Prepared.mem_crossedTrials {order crossing : List Nat} (h : d.Prepared order crossing)
    {trials t : Nat} : t ∈ (d.applicability order trials).crossedTrials crossing trials ↔
      t < trials ∧ ∀ f ∈ crossing, d.Applies f t := by
  simp only [Applicability.crossedTrials, List.mem_filter, List.mem_range, List.all_eq_true,
    get_applicability_iff h.faultless h.ordered]
  refine and_congr_right fun ht => forall₂_congr fun f hf => ?_
  simp [ht, h.mem_order f (h.crossing_lt f hf)]

end Design

namespace Block

variable {d : Design} {names : List String} {constraints : List Constraint} {b : Block}

theorem ofTrials_eq_ok {trials : Nat} : ofTrials d names trials constraints = .ok b ↔
    trials ≠ 0 ∧ ∃ order crossing, d.prepare names = .ok (order, crossing) ∧
      ((d.applicability order trials).crossedTrials crossing trials).length ≠ 0 ∧
      d.combinations crossing ≤
        ((d.applicability order trials).crossedTrials crossing trials).length ∧
      b = assemble d order crossing constraints trials (d.applicability order trials) := by
  unfold ofTrials
  split
  · rename_i hzero
    exact ⟨nofun, fun h => absurd hzero h.1⟩
  · rename_i hpos
    rw [Outcome.bind_eq_ok]
    constructor
    · rintro ⟨⟨order, crossing⟩, hprep, h⟩
      simp only at h
      split at h
      · cases h
      · rename_i hany
        split at h
        · cases h
        · rename_i hfew
          exact ⟨hpos, order, crossing, hprep, hany, Nat.le_of_not_lt hfew, (Except.ok.inj h).symm⟩
    · rintro ⟨_, order, crossing, hprep, hany, hfew, rfl⟩
      refine ⟨(order, crossing), hprep, ?_⟩
      simp only
      rw [if_neg hany, if_neg (Nat.not_lt.mpr hfew)]

theorem fullyCrossed_eq_ok : fullyCrossed d names constraints = .ok b ↔
    ∃ order crossing last, d.prepare names = .ok (order, crossing) ∧
      ((d.applicability order (d.horizon (d.combinations crossing))).crossedTrials crossing
        (d.horizon (d.combinations crossing)))[d.combinations crossing - 1]? = some last ∧
      b = assemble d order crossing constraints (last + 1)
        ((d.applicability order (d.horizon (d.combinations crossing))).cut (last + 1)) := by
  rw [fullyCrossed, Outcome.bind_eq_ok]
  constructor
  · rintro ⟨⟨order, crossing⟩, hprep, h⟩
    simp only at h
    split at h
    · cases h
    · rename_i last hlast
      exact ⟨order, crossing, last, hprep, hlast, (Except.ok.inj h).symm⟩
  · rintro ⟨order, crossing, last, hprep, hlast, rfl⟩
    refine ⟨(order, crossing), hprep, ?_⟩
    simp only [hlast]

theorem design_of_ofTrials {trials : Nat} (h : ofTrials d names trials constraints = .ok b) :
    b.design = d := by
  obtain ⟨_, _, _, _, _, _, rfl⟩ := ofTrials_eq_ok.mp h
  rfl

theorem design_of_fullyCrossed (h : fullyCrossed d names constraints = .ok b) : b.design = d := by
  obtain ⟨_, _, _, _, _, rfl⟩ := fullyCrossed_eq_ok.mp h
  rfl

end Block

end Counterbalance
