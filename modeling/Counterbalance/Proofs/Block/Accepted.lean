import Counterbalance.Proofs.Block.Sizing

/-! Accepted blocks: what both ways to make a block establish, whatever the design. Their
applicability tables tell where factors apply, and every combination of crossed levels has a trial
of its own to occur in. -/

namespace Counterbalance.Block

/-- One of the two ways to make blocks makes this one. -/
def Accepted (b : Block) : Prop :=
  ∃ d names constraints, (∃ trials, ofTrials d names trials constraints = .ok b) ∨
    fullyCrossed d names constraints = .ok b

/-- What is known of accepted blocks. -/
structure WellFormed (b : Block) : Prop extends b.design.Prepared b.order b.crossing where
  trials_pos : 0 < b.trials
  layout_eq : b.layout = .ofDesign b.design
  applicability_eq : b.applicability = b.design.applicability b.order b.trials
  crossingSize_le : b.crossingSize ≤ b.crossedTrials.length

variable {b : Block}

theorem mem_crossedTrials {t : Nat} :
    t ∈ b.crossedTrials ↔ t < b.trials ∧ ∀ f ∈ b.crossing, b.applies f t = true := by
  rw [crossedTrials, Applicability.crossedTrials, List.mem_filter, List.mem_range, List.all_eq_true]
  rfl

theorem Accepted.wellFormed (h : b.Accepted) : b.WellFormed := by
  obtain ⟨d, names, constraints, h⟩ := h
  have htrials : ∃ trials, ofTrials d names trials constraints = .ok b := by
    rcases h with h | h
    · exact h
    · exact ⟨b.trials, ofTrials_of_fullyCrossed h⟩
  obtain ⟨trials, h⟩ := htrials
  obtain ⟨hpos, order, crossing, hprep, _, hle, rfl⟩ := ofTrials_eq_ok.mp h
  exact ⟨Design.prepared_of_prepare hprep, Nat.pos_of_ne_zero hpos, rfl, rfl, hle⟩

namespace WellFormed

theorem applies_iff (hb : b.WellFormed) {f t : Nat} :
    b.applies f t = true ↔ f < b.design.length ∧ t < b.trials ∧ b.design.Applies f t := by
  rw [applies, hb.applicability_eq, Design.get_applicability_iff hb.faultless hb.ordered]
  exact and_congr_left fun _ => ⟨hb.ordered.lt f, hb.mem_order f⟩

theorem mem_applyingTrials (hb : b.WellFormed) {f t : Nat} :
    t ∈ b.applyingTrials f ↔ b.applies f t = true := by
  rw [applyingTrials, List.mem_filter, List.mem_range, and_iff_right_iff_imp]
  exact fun h => (hb.applies_iff.mp h).2.1

theorem firstTrial_le (hb : b.WellFormed) {f t : Nat} {w : Window}
    (hw : (b.design.factorAt f).window? = some w) (happ : b.applies f t = true) :
    w.firstTrial ≤ t :=
  ((Design.applies_derived_iff hw).mp (hb.applies_iff.mp happ).2.2).1

/-- Where a derived factor applies, its arguments apply where they are read, which is not later. -/
theorem applies_argument (hb : b.WellFormed) {f t l i : Nat} {w : Window} {level : DerivedLevel}
    {argument : String} (hw : (b.design.factorAt f).window? = some w)
    (hl : (l, level) ∈ (b.design.factorAt f).derivedLevels) (happ : b.applies f t = true)
    (hi : level.arguments[i]? = some argument) :
    ∃ a, b.design.index? argument = some a ∧ b.applies a (w.readTrial t i) = true := by
  obtain ⟨hf, ht, happ⟩ := hb.applies_iff.mp happ
  obtain ⟨hfirst, _, hreads⟩ := (Design.applies_derived_iff hw).mp happ
  obtain ⟨a, ha, happa⟩ := hreads l level i argument hl hi
  have hread : w.readTrial t i ≤ t :=
    (hb.faultless.admits hw hl).readTrial_le (List.getElem?_eq_some_iff.mp hi).1 hfirst
  exact ⟨a, ha, hb.applies_iff.mpr
    ⟨(Design.factorAt_of_index? ha).1, Nat.lt_of_le_of_lt hread ht, happa⟩⟩

/-- An argument that names factor `a` has this one apply where it is read. -/
theorem applies_of_index? (hb : b.WellFormed) {f t l i a : Nat} {w : Window} {level : DerivedLevel}
    {argument : String} (hw : (b.design.factorAt f).window? = some w)
    (hl : (l, level) ∈ (b.design.factorAt f).derivedLevels) (happ : b.applies f t = true)
    (hi : level.arguments[i]? = some argument) (ha : b.design.index? argument = some a) :
    b.applies a (w.readTrial t i) = true := by
  obtain ⟨a', ha', happa⟩ := hb.applies_argument hw hl happ hi
  exact Option.some.inj (ha'.symm.trans ha) ▸ happa

end WellFormed

end Counterbalance.Block
