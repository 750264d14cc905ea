import Mathlib.Data.Finite.Prod
import Mathlib.Data.Set.Card
import Mathlib.Data.Set.Finite.Range
import Counterbalance.Proofs.Block.Compilation

/-! Models of compiled blocks. A compilation is described by its parts: assignments of the trial
variables that meet their demands extend to a model in one way, and no others extend. So the models
of a block are as many as the sequences that can be read and are valid. -/

namespace Counterbalance

/-- There are finitely many assignments of the first `n` variables. -/
theorem finite_range_signedEntries (n : Nat) : (Set.range fun ν => signedEntries ν n).Finite := by
  let extend : (Fin n → Bool) → Nat → Bool := fun values v =>
    if h : v - 1 < n then values ⟨v - 1, h⟩ else false
  refine (Set.finite_range fun values => signedEntries (extend values) n).subset ?_
  intro entries hentries
  obtain ⟨ν, rfl⟩ := hentries
  refine ⟨fun i => ν (i + 1), signedEntries_congr fun v hpos hle => ?_⟩
  have hlt : v - 1 < n := by omega
  simp only [extend, dif_pos hlt]
  rw [Nat.sub_add_cancel hpos]

namespace Compilation

/-- The clauses hold under the truth assignment. -/
def IsModel (c : Compilation) (ν : Nat → Bool) : Prop :=
  c.cnf.isSatisfiedBy (signedEntries ν c.varCount) = true

/-- The models as a solver writes them, with one signed entry per variable in use. -/
def models (c : Compilation) : Set (Array Int) :=
  { entries | ∃ ν, c.IsModel ν ∧ signedEntries ν c.varCount = entries }

theorem finite_models (c : Compilation) : c.models.Finite := by
  refine (finite_range_signedEntries c.varCount).subset ?_
  intro entries hentries
  obtain ⟨ν, _, rfl⟩ := hentries
  exact ⟨ν, rfl⟩

end Compilation

namespace Block

variable {b : Block} {options : Options} {c : Compilation}

/-- What the parts of a compilation say about its models. -/
structure Parts.Describes (p : b.Parts options) (c : Compilation) : Prop where
  grid_le : b.gridVariables ≤ c.varCount
  demands : ∀ ν, c.IsModel ν → ∀ step ∈ p.steps, step.Demands ν
  extends_iff :
    ∀ g : Nat → Bool, (∃ ν : Nat → Bool, (∀ v, 0 < v → v ≤ b.gridVariables → ν v = g v) ∧
    c.IsModel ν) ↔ ∀ step ∈ p.steps, step.Demands g
  unique : ∀ ν μ, c.IsModel ν → c.IsModel μ → (∀ v, 0 < v → v ≤ b.gridVariables → ν v = μ v) →
    ∀ v, 0 < v → v ≤ c.varCount → ν v = μ v

/-- Every compilation in range is described by its parts. -/
theorem exists_describes (hb : b.WellFormed) (hr : b.InRange) (hc : b.compile options = .ok c) :
    ∃ p : b.Parts options, p.Describes c := by
  obtain ⟨p, rs, s, hrun, hcnf, hcount⟩ := exists_run_of_compile hc
  have hliterals := p.literals_le_of_inRange hb hr
  refine ⟨p, ?_, fun ν hν => ?_, fun g => ?_, fun ν μ hν hμ hagree => ?_⟩
  · rw [hcount]
    exact (Session.follows_of_start hrun hliterals).last_le
  · rw [Compilation.IsModel, hcnf, hcount] at hν
    exact Session.demands_of_isSatisfiedBy hrun hliterals hν
  · simp only [Compilation.IsModel, hcnf, hcount]
    exact Session.exists_model_iff hrun hliterals g
  · rw [Compilation.IsModel, hcnf, hcount] at hν hμ
    rw [hcount]
    exact Session.eq_of_isSatisfiedBy hrun hliterals p.ne_reserve hν hμ hagree

theorem inRange_of_compile (hb : b.WellFormed) (hexact : options.exactlyOne = true)
    (hc : b.compile options = .ok c) : b.InRange := by
  obtain ⟨p, _⟩ := exists_run_of_compile hc
  exact inRange_of_layoutClauses hb (hexact ▸ p.layout_eq)

/-- A model of a compiled block fills the cells as it should and reads as a valid sequence. -/
theorem valid_of_model (hb : b.WellFormed) (hexact : options.exactlyOne = true)
    (hc : b.compile options = .ok c) {ν : Nat → Bool} (hν : c.IsModel ν) :
    b.Cells ν ∧ ∃ s, b.decode (signedEntries ν c.varCount) = .ok s ∧ b.Shows ν s ∧
      b.Valid options.fullCrossing s := by
  have hr := inRange_of_compile hb hexact hc
  obtain ⟨p, hp⟩ := exists_describes hb hr hc
  obtain ⟨hcells, s, hs, hvalid⟩ := (p.demands_iff_valid hb hexact hp.grid_le).mp (hp.demands ν hν)
  exact ⟨hcells, s, hs, shows_of_decode hb hr hp.grid_le hs, hvalid⟩

/-! ## One model per sequence -/

/-- The sequences that can be read from truth assignments of the trial variables and are valid. -/
def sequences (b : Block) (fullCrossing : Bool) : Set Sequence :=
  { s | (∃ g, b.decode (signedEntries g b.gridVariables) = .ok s) ∧ b.Valid fullCrossing s }

/-- A sequence that can be read can be read from an assignment that chooses nothing where factors do
not apply. -/
theorem exists_cells_of_decode (hb : b.WellFormed) (hr : b.InRange) {g : Nat → Bool} {s : Sequence}
    (h : b.decode (signedEntries g b.gridVariables) = .ok s) :
    ∃ g', b.Cells g' ∧ b.decode (signedEntries g' b.gridVariables) = .ok s := by
  let P : Nat → Nat → Nat → Prop := fun f t l => b.applies f t = true ∧ b.Chosen g f t l
  have hP : ∀ f t l, P f t l →
      f < b.design.length ∧ t < b.trials ∧ l < (b.design.factorAt f).size := by
    intro f t l h
    obtain ⟨hf, ht, _⟩ := hb.applies_iff.mp h.1
    exact ⟨hf, ht, h.2.1⟩
  have hsame :
      ∀ f t l, b.applies f t = true → (b.Chosen (b.choosing P) f t l ↔ b.Chosen g f t l) := by
    intro f t l happ
    obtain ⟨hf, ht, _⟩ := hb.applies_iff.mp happ
    rw [chosen_choosing_iff hb hr hP hf ht]
    exact and_iff_right happ
  refine ⟨b.choosing P, ⟨fun f t happ => ?_, fun f t l hf ht happ hchosen => ?_⟩, ?_⟩
  · simp only [hsame f t _ happ]
    exact (exists_decode_iff hb hr (Nat.le_refl _)).mp ⟨s, h⟩ f t happ
  · have happlies := ((chosen_choosing_iff hb hr hP hf ht).mp hchosen).1
    rw [happ] at happlies
    cases happlies
  · rw [decode_congr hb hr (Nat.le_refl _) (Nat.le_refl _) hsame, h]

/-- Assignments that fill the cells and are read as the same sequence are the same. -/
theorem eq_of_shows (hb : b.WellFormed) (hr : b.InRange) {ν μ : Nat → Bool} {s : Sequence}
    (hν : b.Cells ν) (hμ : b.Cells μ) (hsν : b.Shows ν s) (hsμ : b.Shows μ s) :
    ∀ v, 0 < v → v ≤ b.gridVariables → ν v = μ v := by
  refine hν.eq_of_chosen_iff hb hr hμ fun f t l happ => ?_
  have hf := (hb.applies_iff.mp happ).1
  have hgives := (gives_iff hb hsν (t := t) (l := l) hf).symm.trans (gives_iff hb hsμ hf)
  rwa [and_iff_right happ, and_iff_right happ] at hgives

/-- The valid sequences are those that models are read as. -/
theorem mem_sequences_iff (hb : b.WellFormed) (hexact : options.exactlyOne = true)
    (hc : b.compile options = .ok c) {s : Sequence} : s ∈ b.sequences options.fullCrossing ↔
      ∃ ν, c.IsModel ν ∧ b.decode (signedEntries ν c.varCount) = .ok s := by
  have hr := inRange_of_compile hb hexact hc
  obtain ⟨p, hp⟩ := exists_describes hb hr hc
  constructor
  · intro h
    obtain ⟨⟨g, hg⟩, hvalid⟩ := h
    obtain ⟨g', hcells, hg'⟩ := exists_cells_of_decode hb hr hg
    have hdemands := (p.demands_iff_valid hb hexact (Nat.le_refl _)).mpr ⟨hcells, s, hg', hvalid⟩
    obtain ⟨ν, hagree, hν⟩ := (hp.extends_iff g').mpr hdemands
    refine ⟨ν, hν, ?_⟩
    rw [decode_eq_of_agree hb hr hp.grid_le (Nat.le_refl _) hagree, hg']
  · intro h
    obtain ⟨ν, hν, hs⟩ := h
    obtain ⟨_, s', hs', _, hvalid⟩ := valid_of_model hb hexact hc hν
    obtain rfl := Except.ok.inj (hs'.symm.trans hs)
    refine ⟨⟨ν, ?_⟩, hvalid⟩
    rw [decode_eq_of_agree hb hr (Nat.le_refl _) hp.grid_le fun _ _ _ => rfl, hs]

/-- Models that are read as the same sequence are equal. -/
theorem model_eq_of_decode (hb : b.WellFormed) (hexact : options.exactlyOne = true)
    (hc : b.compile options = .ok c) {ν μ : Nat → Bool} (hν : c.IsModel ν) (hμ : c.IsModel μ)
    {s : Sequence} (hsν : b.decode (signedEntries ν c.varCount) = .ok s)
    (hsμ : b.decode (signedEntries μ c.varCount) = .ok s) :
    ∀ v, 0 < v → v ≤ c.varCount → ν v = μ v := by
  have hr := inRange_of_compile hb hexact hc
  obtain ⟨p, hp⟩ := exists_describes hb hr hc
  have hcells : ∀ κ, c.IsModel κ → b.Cells κ := fun κ hκ => (valid_of_model hb hexact hc hκ).1
  exact hp.unique ν μ hν hμ (eq_of_shows hb hr (hcells ν hν) (hcells μ hμ)
    (shows_of_decode hb hr hp.grid_le hsν) (shows_of_decode hb hr hp.grid_le hsμ))

/-- Reading is a bijection between models and valid sequences. -/
theorem bijOn_decode (hb : b.WellFormed) (hexact : options.exactlyOne = true)
    (hc : b.compile options = .ok c) :
    Set.BijOn (fun entries => (b.decode entries).toOption) c.models
      (some '' b.sequences options.fullCrossing) := by
  refine ⟨fun entries hentries => ?_, fun entries hentries entries' hentries' hsame => ?_,
    fun s? hs? => ?_⟩
  · obtain ⟨ν, hν, rfl⟩ := hentries
    obtain ⟨_, s, hs, _⟩ := valid_of_model hb hexact hc hν
    exact ⟨s, (mem_sequences_iff hb hexact hc).mpr ⟨ν, hν, hs⟩,
      (Outcome.toOption_eq_some.mpr hs).symm⟩
  · obtain ⟨ν, hν, rfl⟩ := hentries
    obtain ⟨μ, hμ, rfl⟩ := hentries'
    obtain ⟨_, s, hs, _⟩ := valid_of_model hb hexact hc hν
    have hs' := hsame.symm.trans (Outcome.toOption_eq_some.mpr hs)
    exact signedEntries_congr
      (model_eq_of_decode hb hexact hc hν hμ hs (Outcome.toOption_eq_some.mp hs'))
  · obtain ⟨s, hs, rfl⟩ := hs?
    obtain ⟨ν, hν, hdecode⟩ := (mem_sequences_iff hb hexact hc).mp hs
    exact ⟨_, ⟨ν, hν, rfl⟩, Outcome.toOption_eq_some.mpr hdecode⟩

/-- **One model per sequence.** Models that are read as the same sequence are equal on all
variables; so a block has as many models as there are sequences that can be read and are valid. -/
theorem model_unique_per_sequence (hb : b.Accepted) (hexact : options.exactlyOne = true)
    (hc : b.compile options = .ok c) :
    (∀ ν μ s, c.IsModel ν → c.IsModel μ → b.decode (signedEntries ν c.varCount) = .ok s →
      b.decode (signedEntries μ c.varCount) = .ok s → ∀ v, 0 < v → v ≤ c.varCount → ν v = μ v) ∧
    (∀ s, s ∈ b.sequences options.fullCrossing ↔ ∃ entries ∈ c.models, b.decode entries = .ok s) ∧
    c.models.Finite ∧ c.models.ncard = (b.sequences options.fullCrossing).ncard := by
  have hwf := hb.wellFormed
  refine ⟨fun ν μ s hν hμ hsν hsμ => model_eq_of_decode hwf hexact hc hν hμ hsν hsμ, fun s => ?_,
    c.finite_models, ?_⟩
  · rw [mem_sequences_iff hwf hexact hc]
    simp [Compilation.models]
  · have hbij := bijOn_decode hwf hexact hc
    rw [← hbij.injOn.ncard_image, hbij.image_eq,
      Set.ncard_image_of_injective _ (Option.some_injective _)]

/-- A model for two colours: red, then green, which is no repetition; the rest are auxiliary
variables. -/
def redGreen (v : Nat) : Bool := v ∈ [1, 6, 8, 12, 13, 15, 16, 17, 19, 21, 22]

/-- Red, then green, is the sequence of one model. -/
theorem model_unique_per_sequence_colors :
    ∃ b c s, fullyCrossed .colorRepeats ["color"] [] = .ok b ∧ b.compile {} = .ok c ∧
      c.IsModel redGreen ∧ b.decode (signedEntries redGreen c.varCount) = .ok s ∧
      s.levels? "color" = some ["red", "green"] ∧
      (∀ μ, c.IsModel μ → b.decode (signedEntries μ c.varCount) = .ok s →
        ∀ v, 0 < v → v ≤ c.varCount → redGreen v = μ v) ∧
      c.models.Finite ∧ c.models.ncard = (b.sequences true).ncard := by
  have hmodel : ((fullyCrossed .colorRepeats ["color"] []).toOption.bind fun b =>
      (b.compile {}).toOption.bind fun c =>
        (b.decode (signedEntries redGreen c.varCount)).toOption.map fun s =>
          (c.cnf.isSatisfiedBy (signedEntries redGreen c.varCount), s.levels? "color")) =
      some (true, some ["red", "green"]) := by
    decide +kernel
  obtain ⟨b, hb, hmodel⟩ := Option.bind_eq_some_iff.mp hmodel
  obtain ⟨c, hc, hmodel⟩ := Option.bind_eq_some_iff.mp hmodel
  obtain ⟨s, hs, hmodel⟩ := Option.map_eq_some_iff.mp hmodel
  rw [Outcome.toOption_eq_some] at hb hc hs
  obtain ⟨hsat, hcolors⟩ := Prod.mk.inj hmodel
  obtain ⟨hunique, _, hfinite, hcount⟩ := model_unique_per_sequence ⟨_, _, _, .inr hb⟩ rfl hc
  exact ⟨b, c, s, hb, hc, hsat, hs, hcolors, fun μ hμ hsμ => hunique redGreen μ s hsat hμ hs hsμ,
    hfinite, hcount⟩

end Block

end Counterbalance
