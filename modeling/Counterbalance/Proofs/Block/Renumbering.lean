import Counterbalance.Proofs.Block.Enumeration
import Counterbalance.Proofs.Block.Sizing
import Counterbalance.Proofs.Design.Renumbering

/-! Blocks of designs that declare the same factors in another order. Positions, data indices, the
walk along the arguments and the order in which derivations are found all change; what is accepted,
where a factor applies and what the derivations say by names do not. -/

namespace Counterbalance

namespace Design

variable {d d' : Design} {f f' t : Nat} {names : List String}

/-! ## Trials -/

theorem Twins.applies (h : d.Perm d') (hd' : d'.Faultless) (ht : d.Twins d' f f')
    (happ : d.Applies f t) : d'.Applies f' t := by
  induction happ generalizing f' with
  | simple hw => exact .simple (ht.same ▸ hw)
  | @derived f t w hw hfirst hstride hnames _ ih =>
    refine (applies_derived_iff (ht.same ▸ hw)).mpr
      ⟨hfirst, hstride, fun l level i argument hl hi => ?_⟩
    rw [← ht.same] at hl
    obtain ⟨a, ha⟩ := Option.ne_none_iff_exists'.mp (hnames l level i argument hl hi)
    obtain ⟨a', ha', hta⟩ := exists_twin_of_index? h hd' ha
    exact ⟨a', ha', ih l level i argument a hl hi ha hta⟩

theorem Twins.applies_iff (h : d.Perm d') (hd : d.Faultless) (ht : d.Twins d' f f') :
    d.Applies f t ↔ d'.Applies f' t :=
  ⟨ht.applies h (hd.of_perm h), ht.symm.applies h.symm hd⟩

theorem combinations_eq_of_twins {crossing crossing' : List Nat}
    (ht : List.Forall₂ (d.Twins d') crossing crossing') :
    d.combinations crossing = d'.combinations crossing' := by
  induction ht with
  | nil => rfl
  | @cons f f' fs fs' hf _ ih =>
    show (d.factorAt f).size * d.combinations fs = (d'.factorAt f').size * d'.combinations fs'
    rw [ih, hf.same]

theorem horizon_eq_of_perm (h : d.Perm d') (combinations : Nat) :
    d.horizon combinations = d'.horizon combinations := by
  have hwindows := h.filterMap Factor.window?
  have hlead : d.lead = d'.lead := by
    refine hwindows.foldr_eq' (fun v _ w _ n => ?_) 0
    omega
  have hperiod : d.period = d'.period := by
    refine hwindows.foldr_eq' (fun v _ w _ n => ?_) 1
    exact Nat.mul_left_comm _ _ _
  rw [horizon, horizon, hlead, hperiod]

theorem exists_prepare_of_perm (h : d.Perm d') {order crossing : List Nat}
    (hprep : d.prepare names = .ok (order, crossing)) :
    ∃ order' crossing', d'.prepare names = .ok (order', crossing') ∧
      List.Forall₂ (d.Twins d') crossing crossing' := by
  obtain ⟨hd, horder, hcrossing⟩ := prepare_eq_ok.mp hprep
  have hd' := hd.of_perm h
  obtain ⟨order', horder'⟩ := exists_dependencyOrder_of_perm h hd horder
  obtain ⟨hnames, hne⟩ := resolveCrossing_eq_ok.mp hcrossing
  have htwins :
      ∃ crossing', List.Forall₂ (fun name f' => d'.index? name = some f') names crossing' ∧
      List.Forall₂ (d.Twins d') crossing crossing' := by
    clear hcrossing hprep hne
    induction hnames with
    | nil => exact ⟨[], .nil, .nil⟩
    | cons hf _ ih =>
      obtain ⟨crossing', hnames', htwins⟩ := ih
      obtain ⟨f', hf', ht⟩ := exists_twin_of_index? h hd' hf
      exact ⟨f' :: crossing', .cons hf' hnames', .cons ht htwins⟩
  obtain ⟨crossing', hnames', htwins⟩ := htwins
  have hne' : crossing' ≠ [] := by
    intro hnil
    rw [hnil, List.forall₂_nil_right_iff] at htwins
    exact hne htwins
  exact ⟨order', crossing',
    prepare_eq_ok.mpr ⟨hd', horder', resolveCrossing_eq_ok.mpr ⟨hnames', hne'⟩⟩, htwins⟩

theorem crossedTrials_eq_of_twins (h : d.Perm d') {order order' crossing crossing' : List Nat}
    (hp : d.Prepared order crossing) (hp' : d'.Prepared order' crossing')
    (ht : List.Forall₂ (d.Twins d') crossing crossing') (trials : Nat) :
    (d.applicability order trials).crossedTrials crossing trials =
      (d'.applicability order' trials).crossedTrials crossing' trials := by
  classical
  rw [hp.crossedTrials_eq_filter, hp'.crossedTrials_eq_filter]
  refine List.filter_congr fun t _ =>
    decide_eq_decide.mpr ⟨fun htog f' hf' => ?_, fun htog f hf => ?_⟩
  · obtain ⟨f, hf, htwin⟩ := Lists.exists_left_of_mem ht hf'
    exact (htwin.applies_iff h hp.faultless).mp (htog f hf)
  · obtain ⟨f', hf', htwin⟩ := Lists.exists_right_of_mem ht hf
    exact (htwin.applies_iff h hp.faultless).mpr (htog f' hf')

end Design

namespace Block

variable {d d' : Design} {b b' : Block} {names : List String} {constraints : List Constraint}

/-! ## Construction -/

/-- Blocks of as many trials whose crossings have the same factors. -/
structure Matches (b b' : Block) : Prop where
  perm : b.design.Perm b'.design
  trials_eq : b'.trials = b.trials
  crossing : List.Forall₂ (b.design.Twins b'.design) b.crossing b'.crossing

theorem exists_ofTrials_of_perm (h : d.Perm d') {trials : Nat}
    (hb : ofTrials d names trials constraints = .ok b) :
    ∃ b', ofTrials d' names trials constraints = .ok b' ∧ b.Matches b' := by
  obtain ⟨hpos, order, crossing, hprep, hany, hfew, rfl⟩ := ofTrials_eq_ok.mp hb
  obtain ⟨order', crossing', hprep', htwins⟩ := Design.exists_prepare_of_perm h hprep
  have hp := Design.prepared_of_prepare hprep
  have hp' := Design.prepared_of_prepare hprep'
  rw [Design.crossedTrials_eq_of_twins h hp hp' htwins] at hany hfew
  rw [Design.combinations_eq_of_twins htwins] at hfew
  exact ⟨_, ofTrials_eq_ok.mpr ⟨hpos, order', crossing', hprep', hany, hfew, rfl⟩, h, rfl, htwins⟩

theorem exists_fullyCrossed_of_perm (h : d.Perm d')
    (hb : fullyCrossed d names constraints = .ok b) :
    ∃ b', fullyCrossed d' names constraints = .ok b' ∧ b.Matches b' := by
  obtain ⟨order, crossing, last, hprep, hlast, rfl⟩ := fullyCrossed_eq_ok.mp hb
  obtain ⟨order', crossing', hprep', htwins⟩ := Design.exists_prepare_of_perm h hprep
  have hp := Design.prepared_of_prepare hprep
  have hp' := Design.prepared_of_prepare hprep'
  rw [Design.crossedTrials_eq_of_twins h hp hp' htwins, Design.combinations_eq_of_twins htwins,
    Design.horizon_eq_of_perm h] at hlast
  exact ⟨_, fullyCrossed_eq_ok.mpr ⟨order', crossing', last, hprep', hlast, rfl⟩, h, rfl, htwins⟩

theorem Matches.applies_eq (h : b.Matches b') (hb : b.WellFormed) (hb' : b'.WellFormed) {f f' : Nat}
    (ht : b.design.Twins b'.design f f') (t : Nat) : b'.applies f' t = b.applies f t := by
  rw [Bool.eq_iff_iff, hb.applies_iff, hb'.applies_iff, h.trials_eq,
    ht.applies_iff h.perm hb.faultless, iff_true_intro ht.lt, iff_true_intro ht.lt']

end Block

end Counterbalance
