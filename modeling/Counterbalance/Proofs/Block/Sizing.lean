import Mathlib.Algebra.BigOperators.Group.List.Lemmas
import Mathlib.Algebra.Order.BigOperators.Group.List
import Mathlib.Algebra.Order.BigOperators.GroupWithZero.List
import Mathlib.Algebra.Order.Ring.Nat
import Counterbalance.Proofs.Block.Construction

/-! The size of fully crossed blocks. Where factors apply is periodic in the product of all strides,
from the sum of all leads on, and what applies once applies again a period later. So if all crossed
factors ever apply together, they do so once in every period after the lead, which is why the search
up to the horizon finds the trial of the last combination. -/

namespace Counterbalance

namespace Design

variable {d : Design}

/-! ## Periods -/

theorem period_eq_prod (d : Design) :
    d.period = ((d.filterMap Factor.window?).map Window.stride).prod := by
  rw [period, List.prod, List.foldr_map]

theorem stride_dvd_period {f : Nat} {w : Window} (hw : (d.factorAt f).window? = some w) :
    w.stride ∣ d.period := by
  rw [period_eq_prod]
  exact List.dvd_prod (List.mem_map_of_mem (List.mem_filterMap.mpr
    ⟨_, factorAt_mem (lt_of_window? hw), hw⟩))

theorem Faultless.period_pos (hd : d.Faultless) : 0 < d.period := by
  rw [period_eq_prod]
  refine List.prod_pos fun n hn => ?_
  obtain ⟨w, hw, rfl⟩ := List.mem_map.mp hn
  obtain ⟨f, hf, hw⟩ := List.mem_filterMap.mp hw
  obtain ⟨level, hl, _⟩ := Factor.window?_eq_some_iff.mp hw
  exact ((hd.fits f hf).window w hw _ hl).2.stride_pos

/-- What applies once applies again a period later. -/
theorem Applies.add_period {f t : Nat} (h : d.Applies f t) : d.Applies f (t + d.period) := by
  induction h with
  | simple hw => exact .simple hw
  | @derived f t w hw hfirst hstride hnames hargs ih =>
    refine .derived hw (Nat.le_add_right_of_le hfirst) ?_ hnames
      fun l level i argument a hl hi ha => ?_
    · obtain ⟨k, hk⟩ := stride_dvd_period hw
      rw [Nat.sub_add_comm hfirst, hk, Nat.add_mul_mod_self_left, hstride]
    · rw [Window.readTrial_add _ hfirst]
      exact ih l level i argument a hl hi ha

/-- The leads of the factors in the list. -/
def leads (d : Design) (order : List Nat) : Nat :=
  (order.map fun f => ((d.factorAt f).window?.map Window.firstTrial).getD 0).sum

theorem leads_range (d : Design) : d.leads (List.range d.length) = d.lead := by
  have hmap : ∀ e : Design, (e.map fun f => (f.window?.map Window.firstTrial).getD 0).sum =
      e.lead := by
    intro e
    induction e with
    | nil => rfl
    | cons f rest ih =>
      rw [List.map_cons, List.sum_cons, ih, lead, lead, List.filterMap_cons]
      cases f.window? <;> simp
  rw [← hmap, leads]
  congr 1
  refine List.ext_getElem (by simp) fun i hi hi' => ?_
  simp [factorAt_eq_getElem (d := d) (f := i) (by simpa using hi')]

theorem leads_eq_lead {order : List Nat} (h : d.Ordered order) (hall : ∀ f < d.length, f ∈ order) :
    d.leads order = d.lead := by
  rw [← leads_range, leads, leads, ((h.perm_range hall).map _).sum_eq]

/-- After the leads of all factors that come up to it in the order, a factor only applies where it
applies a period later. -/
theorem Ordered.applies_of_add_period {order : List Nat} (h : d.Ordered order) {f t : Nat}
    (hf : f ∈ order) (ht : d.leads order ≤ t) (happ : d.Applies f (t + d.period)) :
    d.Applies f t := by
  induction h generalizing f t with
  | nil => cases hf
  | @snoc order g hord hlt hnew hargs ih =>
    have hsum : d.leads (order ++ [g]) =
        d.leads order + ((d.factorAt g).window?.map Window.firstTrial).getD 0 := by
      simp [leads]
    rcases List.mem_append.mp hf with hf | hf
    · exact ih hf (by omega) happ
    obtain rfl := List.mem_singleton.mp hf
    cases hw : (d.factorAt f).window? with
    | none => exact .simple hw
    | some w =>
      rw [hw, Option.map_some, Option.getD_some] at hsum
      have hfirst : w.firstTrial ≤ t := by omega
      obtain ⟨_, hstride, hreads⟩ := (applies_derived_iff hw).mp happ
      refine (applies_derived_iff hw).mpr ⟨hfirst, ?_, fun l level i argument hl hi => ?_⟩
      · obtain ⟨k, hk⟩ := stride_dvd_period hw
        rwa [Nat.sub_add_comm hfirst, hk, Nat.add_mul_mod_self_left] at hstride
      · obtain ⟨a, ha, happa⟩ := hreads l level i argument hl hi
        rw [Window.readTrial_add _ hfirst] at happa
        -- what is left of `t` after the window's lead covers the leads of the earlier factors
        have hread : t - w.firstTrial ≤ w.readTrial t i := Window.sub_firstTrial_le_readTrial
        have hmem : a ∈ order := (reads_of_argument hl (List.mem_of_getElem? hi) ha).mem hargs
        exact ⟨a, ha, ih hmem (by omega) happa⟩

/-! ## Trials in which all crossed factors apply -/

/-- All factors of the crossing apply in trial `t`. -/
def Together (d : Design) (crossing : List Nat) (t : Nat) : Prop := ∀ f ∈ crossing, d.Applies f t

variable {order crossing : List Nat}

theorem Together.add_periods {t : Nat} (h : d.Together crossing t) (k : Nat) :
    d.Together crossing (t + k * d.period) := by
  induction k with
  | zero => rwa [Nat.zero_mul, Nat.add_zero]
  | succ k ih =>
    rw [Nat.succ_mul, ← Nat.add_assoc]
    exact fun f hf => (ih f hf).add_period

theorem Prepared.together_of_add_periods (h : d.Prepared order crossing) {t : Nat} (ht : d.lead ≤ t)
    (k : Nat) (htog : d.Together crossing (t + k * d.period)) : d.Together crossing t := by
  induction k with
  | zero => rwa [Nat.zero_mul, Nat.add_zero] at htog
  | succ k ih =>
    refine ih fun f hf => h.ordered.applies_of_add_period (h.mem_order f (h.crossing_lt f hf)) ?_ ?_
    · rw [leads_eq_lead h.ordered h.mem_order]
      exact Nat.le_add_right_of_le ht
    · rw [Nat.add_assoc, ← Nat.succ_mul]
      exact htog f hf

/-- If the crossed factors ever apply together, they do so in the first period after the lead. -/
theorem Prepared.exists_together (h : d.Prepared order crossing) {t : Nat}
    (ht : d.Together crossing t) :
    ∃ t₀, d.lead ≤ t₀ ∧ t₀ < d.lead + d.period ∧ d.Together crossing t₀ := by
  have hpos : 0 < d.period := h.faultless.period_pos
  -- some trial a whole number of periods later lies after the lead
  have hlate : d.lead ≤ t + d.lead * d.period :=
    Nat.le_add_left_of_le (Nat.le_mul_of_pos_right _ hpos)
  obtain ⟨s, hs⟩ := Nat.exists_eq_add_of_le hlate
  have hsplit : d.lead + s = d.lead + s % d.period + s / d.period * d.period := by
    rw [Nat.add_assoc, Nat.mod_add_div']
  refine ⟨d.lead + s % d.period, Nat.le_add_right _ _, Nat.add_lt_add_left (Nat.mod_lt s hpos) _,
    ?_⟩
  refine h.together_of_add_periods (Nat.le_add_right _ _) (s / d.period) ?_
  rw [← hsplit, ← hs]
  exact ht.add_periods d.lead

/-! ## Counting them -/

open Classical in
theorem Prepared.crossedTrials_eq_filter (h : d.Prepared order crossing) (trials : Nat) :
    (d.applicability order trials).crossedTrials crossing trials =
      (List.range trials).filter fun t => decide (d.Together crossing t) := by
  refine List.filter_congr fun t ht => Bool.eq_iff_iff.mpr ?_
  have hmem : t ∈ (d.applicability order trials).crossedTrials crossing trials ↔
      t < trials ∧ ∀ f ∈ crossing, d.Applies f t := h.mem_crossedTrials
  rw [Applicability.crossedTrials, List.mem_filter, and_iff_right ht] at hmem
  rw [hmem, decide_eq_true_eq, and_iff_right (List.mem_range.mp ht), Together]

/-- The trial of the last combination: up to it, the crossed factors apply together once per
combination, and fewer trials have fewer such trials. -/
theorem Prepared.enough_iff (h : d.Prepared order crossing) {n k last : Nat} (hk : 0 < k)
    (hlast : ((d.applicability order n).crossedTrials crossing n)[k - 1]? = some last) :
    d.Together crossing last ∧
      ((d.applicability order (last + 1)).crossedTrials crossing (last + 1)).length = k ∧
      ∀ trials, k ≤ ((d.applicability order trials).crossedTrials crossing trials).length ↔
        last + 1 ≤ trials := by
  classical
  rw [h.crossedTrials_eq_filter, Lists.getElem?_filter_range] at hlast
  obtain ⟨_, htog, hcount⟩ := hlast
  have hnext : Nat.count (d.Together crossing) (last + 1) = k := by
    rw [Nat.count_succ, if_pos htog, hcount]
    omega
  refine ⟨htog, by rw [h.crossedTrials_eq_filter, Lists.length_filter_range, hnext],
    fun trials => ?_⟩
  rw [h.crossedTrials_eq_filter, Lists.length_filter_range]
  constructor
  · intro hle
    by_contra hlt
    have hmono : Nat.count (d.Together crossing) trials ≤ Nat.count (d.Together crossing) last :=
      Nat.count_monotone _ (by omega)
    omega
  · intro hle
    rw [← hnext]
    exact Nat.count_monotone _ hle

/-- **The horizon suffices.** If the crossed factors ever apply together, they do so once per
combination before the horizon. -/
theorem Prepared.le_length_horizon (h : d.Prepared order crossing) {t : Nat}
    (ht : d.Together crossing t) (k : Nat) :
    k ≤ ((d.applicability order (d.horizon k)).crossedTrials crossing (d.horizon k)).length := by
  obtain ⟨t₀, _, hlt, htog⟩ := h.exists_together ht
  have hpos : 0 < d.period := h.faultless.period_pos
  have hsub : (List.range k).map (fun j => t₀ + j * d.period) ⊆
      (d.applicability order (d.horizon k)).crossedTrials crossing (d.horizon k) := by
    intro t ht
    obtain ⟨j, hj, rfl⟩ := List.mem_map.mp ht
    refine h.mem_crossedTrials.mpr ⟨?_, htog.add_periods j⟩
    have hstep : j * d.period + d.period ≤ k * d.period := by
      rw [← Nat.succ_mul]
      exact Nat.mul_le_mul_right _ (List.mem_range.mp hj)
    rw [horizon]
    omega
  have hnodup : ((List.range k).map fun j => t₀ + j * d.period).Nodup := by
    refine List.nodup_range.map fun i j hij => ?_
    exact Nat.eq_of_mul_eq_mul_right hpos (Nat.add_left_cancel hij)
  simpa using (hnodup.subperm hsub).length_le

end Design

/-! ## Fully crossed blocks -/

namespace Block

variable {d : Design} {names : List String} {constraints : List Constraint} {b : Block}

/-- What is known of a fully crossed block. -/
theorem sized_of_fullyCrossed (h : fullyCrossed d names constraints = .ok b) :
    ∃ order crossing, d.prepare names = .ok (order, crossing) ∧
      b = assemble d order crossing constraints b.trials (d.applicability order b.trials) ∧
      b.crossedTrials.length = b.crossingSize ∧ (∃ last ∈ b.crossedTrials, last + 1 = b.trials) ∧
      ∀ trials, d.combinations crossing ≤
        ((d.applicability order trials).crossedTrials crossing trials).length ↔
          b.trials ≤ trials := by
  obtain ⟨order, crossing, last, hprep, hlast, rfl⟩ := fullyCrossed_eq_ok.mp h
  have hd := Design.prepared_of_prepare hprep
  obtain ⟨htog, hlength, henough⟩ := hd.enough_iff hd.combinations_pos hlast
  have hbefore : last < d.horizon (d.combinations crossing) :=
    (hd.mem_crossedTrials.mp (List.mem_of_getElem? hlast)).1
  have hcut := Design.cut_applicability hd.faultless hd.ordered hd.mem_order hbefore
  refine ⟨order, crossing, hprep, by rw [hcut]; rfl, ?_, ⟨last, ?_, rfl⟩, henough⟩
  · rw [crossedTrials, assemble, hcut]
    exact hlength
  · rw [crossedTrials, assemble, hcut]
    exact hd.mem_crossedTrials.mpr ⟨Nat.lt_succ_self last, htog⟩

/-- A fully crossed block is the block of its own number of trials. -/
theorem ofTrials_of_fullyCrossed (h : fullyCrossed d names constraints = .ok b) :
    ofTrials d names b.trials constraints = .ok b := by
  obtain ⟨order, crossing, hprep, hb, _, ⟨last, _, hlast⟩, henough⟩ := sized_of_fullyCrossed h
  have hcombinations := (henough b.trials).mpr (Nat.le_refl _)
  have hpos := (Design.prepared_of_prepare hprep).combinations_pos
  exact ofTrials_eq_ok.mpr ⟨by omega, order, crossing, hprep, by omega, hcombinations, hb⟩

/-- The number of trials of a fully crossed block is the least one that can be given. -/
theorem exists_ofTrials_iff (h : fullyCrossed d names constraints = .ok b) {trials : Nat}
    (ht : 1 ≤ trials) :
    (∃ b', ofTrials d names trials constraints = .ok b') ↔ b.trials ≤ trials := by
  obtain ⟨order, crossing, hprep, _, _, _, henough⟩ := sized_of_fullyCrossed h
  rw [← henough trials]
  constructor
  · rintro ⟨b', hb'⟩
    obtain ⟨_, order', crossing', hprep', _, hle, _⟩ := ofTrials_eq_ok.mp hb'
    obtain ⟨rfl, rfl⟩ := Prod.mk.inj (Except.ok.inj (hprep.symm.trans hprep'))
    exact hle
  · intro hle
    have hpos := (Design.prepared_of_prepare hprep).combinations_pos
    exact ⟨_, ofTrials_eq_ok.mpr ⟨by omega, order, crossing, hprep, by omega, hle, rfl⟩⟩

/-- The search only fails when there is nothing to find. -/
theorem never_together_of_fullyCrossed
    (h : fullyCrossed d names constraints = .error .crossingNeverApplies) :
    ∃ order crossing, d.prepare names = .ok (order, crossing) ∧
      ∀ trials, (d.applicability order trials).crossedTrials crossing trials = [] := by
  rcases Outcome.bind_eq_error.mp h with h | ⟨⟨order, crossing⟩, hprep, h⟩
  · exact absurd trivial (Design.OfTrials.not_of_prepare h)
  refine ⟨order, crossing, hprep, fun trials => List.eq_nil_iff_forall_not_mem.mpr fun t ht => ?_⟩
  have hd := Design.prepared_of_prepare hprep
  have hlong := hd.le_length_horizon (hd.mem_crossedTrials.mp ht).2 (d.combinations crossing)
  have hpos := hd.combinations_pos
  simp only at h
  rw [List.getElem?_eq_getElem (by omega)] at h
  cases h

theorem ofTrials_of_never_together {order crossing : List Nat}
    (hprep : d.prepare names = .ok (order, crossing)) {trials : Nat}
    (h : (d.applicability order trials).crossedTrials crossing trials = []) :
    ∃ e, ofTrials d names trials constraints = .error e := by
  cases hb : ofTrials d names trials constraints with
  | error e => exact ⟨e, rfl⟩
  | ok b =>
    obtain ⟨_, order', crossing', hprep', hany, _⟩ := ofTrials_eq_ok.mp hb
    obtain ⟨rfl, rfl⟩ := Prod.mk.inj (Except.ok.inj (hprep.symm.trans hprep'))
    rw [h] at hany
    exact absurd rfl hany

/-- **The two ways to make a block agree.** A fully crossed block has one trial per combination in
which all crossed factors apply, ends with the last of them, and is the shortest block that can be
made of the design; if there is none, the crossed factors apply together in no trial, however long
the block. -/
theorem fullyCrossed_sized (d : Design) (names : List String) (constraints : List Constraint) :
    (∀ b, fullyCrossed d names constraints = .ok b →
      b.crossedTrials.length = b.crossingSize ∧
      (∃ last ∈ b.crossedTrials, last + 1 = b.trials) ∧
      (∀ trials, 1 ≤ trials →
        ((∃ b', ofTrials d names trials constraints = .ok b') ↔ b.trials ≤ trials)) ∧
      ofTrials d names b.trials constraints = .ok b) ∧
    (fullyCrossed d names constraints = .error .crossingNeverApplies →
      ∃ order crossing, d.prepare names = .ok (order, crossing) ∧
        ∀ trials, (d.applicability order trials).crossedTrials crossing trials = [] ∧
          ∃ e, ofTrials d names trials constraints = .error e) := by
  refine ⟨fun b h => ?_, fun h => ?_⟩
  · obtain ⟨_, _, _, _, hlength, hlast, _⟩ := sized_of_fullyCrossed h
    exact ⟨hlength, hlast, fun trials ht => exists_ofTrials_iff h ht, ofTrials_of_fullyCrossed h⟩
  · obtain ⟨order, crossing, hprep, hnever⟩ := never_together_of_fullyCrossed h
    exact ⟨order, crossing, hprep, fun trials =>
      ⟨hnever trials, ofTrials_of_never_together hprep (hnever trials)⟩⟩

end Block

/-- A colour, and whether it repeats the colour of the trial before. -/
def Design.colorRepeats : Design :=
  [⟨"color", [.simple "red", .simple "green"]⟩,
    ⟨"repeats", [.derived ⟨"yes", .transition, .equal, ["color", "color"]⟩,
      .derived ⟨"no", .transition, .notEqual, ["color", "color"]⟩]⟩]

/-- Two factors over windows that end in odd and in even trials. -/
def Design.offbeat : Design :=
  [⟨"color", [.simple "red", .simple "green"]⟩,
    ⟨"pair", [.derived ⟨"equal", .sliding 2 2, .allEqual 2, ["color", "color"]⟩]⟩,
    ⟨"triple", [.derived ⟨"equal", .sliding 3 2, .allEqual 3, ["color", "color", "color"]⟩]⟩]

/-- The first trial has no repetition to show, so four combinations take five trials; and what never
applies together has no block. -/
theorem Block.fullyCrossed_sized_repeats :
    (∃ b, fullyCrossed .colorRepeats ["color", "repeats"] [] = .ok b ∧ ∀ trials, 1 ≤ trials →
      ((∃ b', ofTrials .colorRepeats ["color", "repeats"] trials [] = .ok b') ↔ 5 ≤ trials)) ∧
    ∀ trials, ∃ e, ofTrials .offbeat ["pair", "triple"] trials [] = .error e := by
  have hfive : (fullyCrossed .colorRepeats ["color", "repeats"] []).map Block.trials = .ok 5 := by
    decide +kernel
  have hnone : (fullyCrossed .offbeat ["pair", "triple"] []).map Block.trials =
      .error .crossingNeverApplies := by
    decide +kernel
  obtain ⟨b, h, htrials⟩ := Outcome.map_eq_ok.mp hfive
  obtain ⟨_, _, hleast, _⟩ := (fullyCrossed_sized .colorRepeats ["color", "repeats"] []).1 b h
  refine ⟨⟨b, h, fun trials ht => htrials ▸ hleast trials ht⟩, fun trials => ?_⟩
  obtain ⟨_, _, _, hnever⟩ := (fullyCrossed_sized .offbeat ["pair", "triple"] []).2
    (Outcome.map_eq_error.mp hnone)
  exact (hnever trials).2

end Counterbalance
