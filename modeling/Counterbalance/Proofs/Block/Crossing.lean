import Counterbalance.Proofs.Block.Models

/-! Crossings with repetitions. The crossing of a block names factors, and is a list without
repetitions exactly if the names are. A factor that is crossed with itself is counted twice, and the
combinations that give it two levels can occur in no trial; the others can, whatever trial it is in
which all crossed factors apply. -/

namespace Counterbalance.Block

variable {b : Block} {options : Options} {c : Compilation}

/-- The combination can occur in the trial, as far as the cells are concerned. -/
def CanOccur (b : Block) (t : Nat) (ls : List Nat) : Prop :=
  ∃ g, b.Cells g ∧ List.Forall₂ (fun f l => b.Chosen g f t l) b.crossing ls

/-- Crossed factors that are the same have the same level. -/
def Consistent (crossing ls : List Nat) : Prop :=
  ∀ i j : Nat, crossing[i]? = crossing[j]? → ls[i]? = ls[j]?

theorem consistent_of_nodup {crossing ls : List Nat} (hlength : ls.length = crossing.length)
    (h : crossing.Nodup) : Consistent crossing ls := by
  intro i j hij
  by_cases hi : i < crossing.length
  · rw [(List.getElem?_inj hi h).mp hij]
  · have hj : ¬ j < crossing.length := by
      rw [List.getElem?_eq_none (Nat.le_of_not_lt hi)] at hij
      exact Nat.not_lt.mpr (List.getElem?_eq_none_iff.mp hij.symm)
    rw [List.getElem?_eq_none (by omega), List.getElem?_eq_none (by omega)]

/-- Names are repeated where the factors are that they name. -/
theorem nodup_iff_of_resolveCrossing {d : Design} {names : List String} {crossing : List Nat}
    (h : d.resolveCrossing names = .ok crossing) : crossing.Nodup ↔ names.Nodup := by
  refine ⟨fun hcrossing => ?_, Design.nodup_of_resolveCrossing h⟩
  have hindices : names.map d.index? = crossing.map some := by
    rw [← List.forall₂_eq_eq_eq, List.forall₂_map_left_iff, List.forall₂_map_right_iff]
    exact (Design.resolveCrossing_eq_ok.mp h).1
  exact List.Nodup.of_map _ (hindices ▸ hcrossing.map (Option.some_injective Nat))

/-! ## Where combinations can occur -/

theorem consistent_of_forall₂ {R : Nat → Nat → Prop} {crossing ls : List Nat}
    (h : List.Forall₂ R crossing ls) (huniq : ∀ f ∈ crossing, ∀ l m, R f l → R f m → l = m) :
    Consistent crossing ls := by
  intro i j hij
  cases hi : crossing[i]? with
  | none =>
    have hlength := h.length_eq
    have hout := List.getElem?_eq_none_iff.mp hi
    have hout' := List.getElem?_eq_none_iff.mp (hij ▸ hi)
    rw [List.getElem?_eq_none (by omega), List.getElem?_eq_none (by omega)]
  | some f =>
    obtain ⟨l, hl, hfl⟩ := Lists.getElem?_right_of_forall₂ h hi
    obtain ⟨m, hm, hfm⟩ := Lists.getElem?_right_of_forall₂ h (hij ▸ hi)
    rw [hl, hm, huniq f (List.mem_of_getElem? hi) l m hfl hfm]

/-- The choice of a combination in one trial; everywhere else factors have their first levels. -/
def Places (b : Block) (t : Nat) (ls : List Nat) (f u l : Nat) : Prop :=
  b.applies f u = true ∧
    if u = t ∧ f ∈ b.crossing then ∃ i : Nat, b.crossing[i]? = some f ∧ ls[i]? = some l else l = 0

theorem Places.lt (hb : b.WellFormed) {t : Nat} {ls : List Nat} (hls : b.Combined ls) {f u l : Nat}
    (h : b.Places t ls f u l) :
    f < b.design.length ∧ u < b.trials ∧ l < (b.design.factorAt f).size := by
  obtain ⟨happ, h⟩ := h
  obtain ⟨hf, hu, _⟩ := hb.applies_iff.mp happ
  refine ⟨hf, hu, ?_⟩
  split at h
  · obtain ⟨i, hi, hl⟩ := h
    obtain ⟨m, hm, hlt⟩ := Lists.getElem?_right_of_forall₂ hls hi
    rw [hl] at hm
    exact Option.some.inj hm ▸ hlt
  · rw [h]
    exact List.length_pos_iff.mpr (hb.faultless.fitsAt hf).nonempty

/-- A consistent combination can be placed in one way. -/
theorem existsUnique_places {t : Nat} {ls : List Nat} (hls : b.Combined ls)
    (hconsistent : Consistent b.crossing ls) {f u : Nat} (happ : b.applies f u = true) :
    ∃! l, b.Places t ls f u l := by
  unfold Places
  split
  · rename_i h
    obtain ⟨i, hi⟩ := List.mem_iff_getElem?.mp h.2
    obtain ⟨l, hl, _⟩ := Lists.getElem?_right_of_forall₂ hls hi
    refine ⟨l, ⟨happ, i, hi, hl⟩, fun m hm => ?_⟩
    obtain ⟨_, j, hj, hm⟩ := hm
    have hsame := hconsistent i j (hi.trans hj.symm)
    rw [hl, hm] at hsame
    exact (Option.some.inj hsame).symm
  · exact ⟨0, ⟨happ, rfl⟩, fun m hm => hm.2⟩

/-- Combinations can occur in a trial in which all crossed factors apply exactly if they are
consistent. -/
theorem canOccur_iff (hb : b.WellFormed) (hr : b.InRange) {t : Nat} (ht : t ∈ b.crossedTrials)
    {ls : List Nat} (hls : b.Combined ls) : b.CanOccur t ls ↔ Consistent b.crossing ls := by
  obtain ⟨htrial, happ⟩ := mem_crossedTrials.mp ht
  constructor
  · intro h
    obtain ⟨g, hg, hchosen⟩ := h
    exact consistent_of_forall₂ hchosen fun f hf l m hl hm =>
      (hg.exact f t (happ f hf)).unique hl hm
  · intro hconsistent
    have hplaced : ∀ f < b.design.length, ∀ u < b.trials, ∀ l,
        b.Chosen (b.choosing (b.Places t ls)) f u l ↔ b.Places t ls f u l := fun f hf u hu l =>
      chosen_choosing_iff hb hr (fun _ _ _ h => h.lt hb hls) hf hu
    refine ⟨b.choosing (b.Places t ls), ⟨fun f u hfu => ?_, fun f u l hf hu hfu hl => ?_⟩, ?_⟩
    · obtain ⟨hf, hu, _⟩ := hb.applies_iff.mp hfu
      simp only [hplaced f hf u hu]
      exact existsUnique_places hls hconsistent hfu
    · have hplaces := (hplaced f hf u hu l).mp hl
      rw [hplaces.1] at hfu
      cases hfu
    · refine Lists.forall₂_of_getElem? hls.length_eq fun i f l hi hl => ?_
      have hf := List.mem_of_getElem? hi
      rw [hplaced f (hb.crossing_lt f hf) t htrial l]
      exact ⟨happ f hf, by rw [if_pos ⟨rfl, hf⟩]; exact ⟨i, hi, hl⟩⟩

/-- **Crossings with repetitions.** The crossing of a block has repetitions exactly if the names
have that it was made from, and a combination can occur in a trial in which all crossed factors
apply exactly if it gives each crossed factor a single level. -/
theorem crossing_consistent {d : Design} {names : List String} {constraints : List Constraint}
    (hb : (∃ trials, ofTrials d names trials constraints = .ok b) ∨
      fullyCrossed d names constraints = .ok b) (hr : b.InRange) :
    (b.crossing.Nodup ↔ names.Nodup) ∧
    ∀ t ∈ b.crossedTrials, ∀ ls, b.Combined ls → (b.CanOccur t ls ↔ Consistent b.crossing ls) := by
  have hwf := Accepted.wellFormed ⟨d, names, constraints, hb⟩
  refine ⟨?_, fun t ht ls hls => canOccur_iff hwf hr ht hls⟩
  have htrials : ∃ trials, ofTrials d names trials constraints = .ok b := by
    rcases hb with hb | hb
    · exact hb
    · exact ⟨b.trials, ofTrials_of_fullyCrossed hb⟩
  obtain ⟨trials, hb⟩ := htrials
  obtain ⟨_, order, crossing, hprep, _, _, rfl⟩ := ofTrials_eq_ok.mp hb
  exact nodup_iff_of_resolveCrossing (Design.prepare_eq_ok.mp hprep).2.2

/-- A colour and its repetitions, named once each: every combination can occur in each of the four
trials that follow the first one. -/
theorem crossing_consistent_repeats :
    ∃ b, fullyCrossed .colorRepeats ["color", "repeats"] [] = .ok b ∧
      b.crossedTrials = [1, 2, 3, 4] ∧ b.InRange ∧ b.crossing.Nodup ∧
      ∀ t ∈ b.crossedTrials, ∀ ls, b.Combined ls → b.CanOccur t ls := by
  have hrun : ((fullyCrossed .colorRepeats ["color", "repeats"] []).toOption.map fun b =>
      (b.crossedTrials, decide (b.trials * b.trialSize ≤ maxVariable))) =
      some ([1, 2, 3, 4], true) := by
    decide +kernel
  obtain ⟨b, hb, hrun⟩ := Option.map_eq_some_iff.mp hrun
  rw [Outcome.toOption_eq_some] at hb
  simp only [Prod.mk.injEq, decide_eq_true_eq] at hrun
  obtain ⟨htrials, hr⟩ := hrun
  obtain ⟨hnodup, hoccurs⟩ := crossing_consistent (.inr hb) hr
  have hdistinct := hnodup.mpr (by decide)
  exact ⟨b, hb, htrials, hr, hdistinct, fun t ht ls hls =>
    (hoccurs t ht ls hls).mpr (consistent_of_nodup hls.length_eq.symm hdistinct)⟩

/-- Where every combination has to occur and some cannot, there is no model. -/
theorem not_isModel_of_not_canOccur (hb : b.WellFormed) (hexact : options.exactlyOne = true)
    (hfull : options.fullCrossing = true) (hc : b.compile options = .ok c) {ls : List Nat}
    (hls : b.Combined ls) (hnever : ∀ t ∈ b.crossedTrials, ¬ b.CanOccur t ls) (ν : Nat → Bool) :
    ¬ c.IsModel ν := by
  intro hν
  obtain ⟨hcells, s, _, hs, hvalid⟩ := valid_of_model hb hexact hc hν
  obtain ⟨t, ht, hshown⟩ := hvalid.crossed hfull ls hls
  exact hnever t ht ⟨ν, hcells, (forall₂_gives_iff hb hs ht).mp hshown⟩

/-- A colour crossed with itself makes a block of four trials for four combinations, two of which
can occur in none of them, so that no sequence of trials is left. -/
theorem repeated_crossing_unsolvable :
    ∃ b c, fullyCrossed [⟨"color", [.simple "red", .simple "green"]⟩]
      ["color", "color"] [] = .ok b ∧ b.crossing = [0, 0] ∧ b.trials = 4 ∧ b.Combined [0, 1] ∧
      (∀ t ∈ b.crossedTrials, ¬ b.CanOccur t [0, 1]) ∧
      b.compile {} = .ok c ∧ ∀ ν, ¬ c.IsModel ν := by
  have hrun : ((fullyCrossed [⟨"color", [.simple "red", .simple "green"]⟩] ["color", "color"]
      []).toOption.bind fun b => (b.compile {}).toOption.map fun _ =>
        (b.crossing, b.trials, decide (b.trials * b.trialSize ≤ maxVariable))) =
      some ([0, 0], 4, true) := by
    decide +kernel
  obtain ⟨b, hb, hrun⟩ := Option.bind_eq_some_iff.mp hrun
  obtain ⟨c, hc, hrun⟩ := Option.map_eq_some_iff.mp hrun
  rw [Outcome.toOption_eq_some] at hb hc
  simp only [Prod.mk.injEq, decide_eq_true_eq] at hrun
  obtain ⟨hcrossing, htrials, hr⟩ := hrun
  have hwf := Accepted.wellFormed ⟨_, _, _, .inr hb⟩
  have hcombined : b.Combined [0, 1] := by
    rw [Combined, hcrossing, design_of_fullyCrossed hb]
    exact .cons (by decide) (.cons (by decide) .nil)
  have hnever : ∀ t ∈ b.crossedTrials, ¬ b.CanOccur t [0, 1] := by
    intro t ht h
    have hsame := (canOccur_iff hwf hr ht hcombined).mp h 0 1 (by rw [hcrossing]; rfl)
    cases hsame
  exact ⟨b, c, hb, hcrossing, htrials, hcombined, hnever, hc,
    not_isModel_of_not_canOccur hwf rfl rfl hc hcombined hnever⟩

end Counterbalance.Block
