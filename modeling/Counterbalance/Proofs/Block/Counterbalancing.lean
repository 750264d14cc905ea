import Counterbalance.Proofs.Block.Models

/-! Counterbalancing. The crossing only demands that every combination of crossed levels occurs.
Where there are as many trials for them as combinations, each occurs exactly once, since a trial
shows one combination only. -/

namespace Counterbalance

namespace Block

variable {b : Block} {options : Options} {ν : Nat → Bool} {s : Sequence}

/-- All combinations of crossed levels. -/
def combinationList (b : Block) : List (List Nat) :=
  product (b.crossing.map fun f => List.range (b.design.factorAt f).size)

theorem mem_combinationList {ls : List Nat} : ls ∈ b.combinationList ↔ b.Combined ls := by
  rw [combinationList, mem_product, List.forall₂_map_right_iff, Combined]
  constructor
  · intro h
    exact h.flip.imp fun f l hl => List.mem_range.mp hl
  · intro h
    exact h.flip.imp fun l f hl => List.mem_range.mpr hl

theorem nodup_combinationList : b.combinationList.Nodup := by
  refine nodup_product fun xs hxs => ?_
  obtain ⟨f, _, rfl⟩ := List.mem_map.mp hxs
  exact List.nodup_range

theorem length_combinationList : b.combinationList.length = b.crossingSize := by
  rw [combinationList, length_product, crossingSize, Design.combinations, List.map_map,
    List.foldr_map]
  simp

/-! ## One combination per trial -/

/-- A trial in which all crossed factors apply shows one combination. -/
theorem existsUnique_combined (hb : b.WellFormed) (hν : b.Cells ν) (hs : b.Shows ν s) {t : Nat}
    (ht : t ∈ b.crossedTrials) :
    ∃! ls, b.Combined ls ∧ List.Forall₂ (fun f l => b.Gives s f t l) b.crossing ls := by
  have hchosen : ∃! ls, List.Forall₂ (fun f l => b.Chosen ν f t l) b.crossing ls :=
    Lists.existsUnique_forall₂ fun f hf => hν.exact f t ((mem_crossedTrials.mp ht).2 f hf)
  obtain ⟨ls, hls, huniq⟩ := hchosen
  refine ⟨ls, ⟨hls.imp fun f l hl => hl.1, (forall₂_gives_iff hb hs ht).mpr hls⟩,
    fun ls' hls' => ?_⟩
  exact huniq ls' ((forall₂_gives_iff hb hs ht).mp hls'.2)

/-- If every combination is shown and there is one trial per combination, each is shown in one
trial. -/
theorem existsUnique_trial (hb : b.WellFormed) (hν : b.Cells ν) (hs : b.Shows ν s)
    (hcount : b.crossedTrials.length = b.crossingSize) (hvalid : b.Valid true s) {ls : List Nat}
    (hls : b.Combined ls) :
    ∃! t, t ∈ b.crossedTrials ∧ List.Forall₂ (fun f l => b.Gives s f t l) b.crossing ls := by
  refine Lists.existsUnique_of_length_le nodup_combinationList ?_ (fun t ht => ?_)
    (fun ls' hls' => ?_) ls
    (mem_combinationList.mpr hls)
  · rw [length_combinationList, hcount]
  · simpa only [mem_combinationList] using existsUnique_combined hb hν hs ht
  · exact hvalid.crossed rfl ls' (mem_combinationList.mp hls')

/-! ## Models of compiled blocks -/

/-- **Counterbalancing is exact.** Where a block has one trial per combination in which all crossed
factors apply, as fully crossed blocks do, a model of its compilation shows each combination in one
of these trials and one combination in each of them. -/
theorem model_counterbalanced (hb : b.Accepted)
    (hcount : b.crossedTrials.length = b.crossingSize ∨
      ∃ d names constraints, fullyCrossed d names constraints = .ok b)
    (hexact : options.exactlyOne = true) (hfull : options.fullCrossing = true) {c : Compilation}
    (hc : b.compile options = .ok c)
    (hν : c.cnf.isSatisfiedBy (signedEntries ν c.varCount) = true) :
    ∃ s, b.decode (signedEntries ν c.varCount) = .ok s ∧
      (∀ ls, b.Combined ls →
        ∃! t, t ∈ b.crossedTrials ∧ List.Forall₂ (fun f l => b.Gives s f t l) b.crossing ls) ∧
      ∀ t ∈ b.crossedTrials,
        ∃! ls, b.Combined ls ∧ List.Forall₂ (fun f l => b.Gives s f t l) b.crossing ls := by
  have hwf := hb.wellFormed
  have hequal : b.crossedTrials.length = b.crossingSize := by
    rcases hcount with hcount | ⟨d, names, constraints, h⟩
    · exact hcount
    · obtain ⟨_, _, _, _, hlength, _⟩ := sized_of_fullyCrossed h
      exact hlength
  obtain ⟨hcells, s, hs, hshows, hvalid⟩ := valid_of_model hwf hexact hc hν
  rw [hfull] at hvalid
  exact ⟨s, hs, fun ls hls => existsUnique_trial hwf hcells hshows hequal hvalid hls,
    fun t ht => existsUnique_combined hwf hcells hshows ht⟩

/-- A model for two colours: red, then green, which is no repetition; the rest are auxiliary
variables. -/
def twoColors (v : Nat) : Bool := v ∈ [1, 6, 8, 12, 13, 15, 16, 17, 19, 21, 22, 24, 26]

/-- Two colours, each shown in one of two trials. -/
theorem model_counterbalanced_colors :
    ∃ b c s, fullyCrossed .colorRepeats ["color"] [.atMostInARow 1 (.factor "color")] = .ok b ∧
      b.compile {} = .ok c ∧ b.decode (signedEntries twoColors c.varCount) = .ok s ∧
      s.levels? "color" = some ["red", "green"] ∧
      (∀ ls, b.Combined ls →
        ∃! t, t ∈ b.crossedTrials ∧ List.Forall₂ (fun f l => b.Gives s f t l) b.crossing ls) ∧
      ∀ t ∈ b.crossedTrials,
        ∃! ls, b.Combined ls ∧ List.Forall₂ (fun f l => b.Gives s f t l) b.crossing ls := by
  have hmodel : ((fullyCrossed .colorRepeats ["color"]
      [.atMostInARow 1 (.factor "color")]).toOption.bind fun b =>
        (b.compile {}).toOption.map fun c =>
        (c.cnf.isSatisfiedBy (signedEntries twoColors c.varCount),
          (b.decode (signedEntries twoColors c.varCount)).toOption.bind (·.levels? "color"))) =
      some (true, some ["red", "green"]) := by
    decide +kernel
  obtain ⟨b, hb, hmodel⟩ := Option.bind_eq_some_iff.mp hmodel
  obtain ⟨c, hc, hmodel⟩ := Option.map_eq_some_iff.mp hmodel
  rw [Outcome.toOption_eq_some] at hb hc
  obtain ⟨hsat, hcolors⟩ := Prod.mk.inj hmodel
  obtain ⟨s, hs, hall⟩ :=
    model_counterbalanced ⟨_, _, _, .inr hb⟩ (.inr ⟨_, _, _, hb⟩) rfl rfl hc hsat
  rw [hs] at hcolors
  exact ⟨b, c, s, hb, hc, hs, hcolors, hall⟩

end Block

end Counterbalance
