import Mathlib.Data.List.Find
import Mathlib.Logic.Function.Basic
import Counterbalance.Proofs.Block.Capacity
import Counterbalance.Proofs.Block.Counterbalancing

/-! Completion of choices. If the levels of every derived factor partition what their arguments can
be, levels chosen for the simple factors leave no choice for the others: in dependency order, each
takes the level whose predicate accepts what its window reads. So every choice in which all crossed
combinations occur is made by one model, and unconstrained blocks can be solved, however deep
windows are nested. -/

namespace Counterbalance

namespace Design

/-- The names of the levels of a factor, found by the factor's name. -/
def levelNamesOf (d : Design) (name : String) : List String :=
  match d.index? name with
  | some f => (d.factorAt f).levelNames
  | none => []

/-- The levels of a derived factor share their arguments, and for every combination of level names
of these exactly one predicate is true. -/
structure Partitioned (d : Design) : Prop where
  matching : d.Matching
  shared : ∀ f ∈ d, ∀ p ∈ f.derivedLevels, ∀ q ∈ f.derivedLevels, p.2.arguments = q.2.arguments
  exactlyOne : ∀ f ∈ d, ∀ p ∈ f.derivedLevels, ∀ names ∈ product (p.2.arguments.map d.levelNamesOf),
    f.derivedLevels.countP (fun q => q.2.predicate.accepts names) = 1

instance (d : Design) : Decidable d.Partitioned :=
  decidable_of_iff
    (d.Matching ∧
      (∀ f ∈ d, ∀ p ∈ f.derivedLevels, ∀ q ∈ f.derivedLevels, p.2.arguments = q.2.arguments) ∧
      ∀ f ∈ d, ∀ p ∈ f.derivedLevels, ∀ names ∈ product (p.2.arguments.map d.levelNamesOf),
        f.derivedLevels.countP (fun q => q.2.predicate.accepts names) = 1)
    ⟨fun h => ⟨h.1, h.2.1, h.2.2⟩, fun h => ⟨h.matching, h.shared, h.exactlyOne⟩⟩

end Design

namespace Block

variable {b : Block} {g : Nat → Bool} {level level' choice : Nat → Nat → Nat}

/-! ## Completions -/

/-- The combination that a window ending at trial `t` reads where factors have these levels. -/
def reading (b : Block) (level : Nat → Nat → Nat) (w : Window) (t : Nat) (arguments : List String) :
    Combination :=
  arguments.mapIdx fun i argument =>
    let a := (b.design.index? argument).getD 0
    b.dataIndex a (level a (w.readTrial t i))

/-- The level of factor `f` in trial `t` that follows from those of its arguments. -/
def follow (b : Block) (level : Nat → Nat → Nat) (f t : Nat) : Nat :=
  match (b.design.factorAt f).window? with
  | none => level f t
  | some w =>
    (((b.design.factorAt f).derivedLevels.find? fun p => p.2.predicate.accepts
      ((b.reading level w t p.2.arguments).filterMap b.levelName?)).map Prod.fst).getD 0

/-- The levels after the factors of an order have taken theirs, one after the other. -/
def completed (b : Block) (choice : Nat → Nat → Nat) (order : List Nat) : Nat → Nat → Nat :=
  order.foldl (fun level f => Function.update level f (b.follow level f)) choice

theorem completed_snoc (choice : Nat → Nat → Nat) (order : List Nat) (f : Nat) :
    b.completed choice (order ++ [f]) =
      Function.update (b.completed choice order) f (b.follow (b.completed choice order) f) := by
  rw [completed, List.foldl_append]
  rfl

theorem follow_simple {f : Nat} (hw : (b.design.factorAt f).window? = none) :
    b.follow level f = level f := by
  funext t
  simp only [follow, hw]

/-- A derived factor only depends on the factors that it reads. -/
theorem follow_congr {f : Nat} {w : Window} (hw : (b.design.factorAt f).window? = some w)
    (h : ∀ p ∈ (b.design.factorAt f).argumentNames,
      ∃ a, b.design.index? p.2 = some a ∧ level a = level' a) :
    b.follow level f = b.follow level' f := by
  funext t
  simp only [follow, hw]
  congr 2
  refine List.find?_congr fun p hp => ?_
  have hreading : b.reading level w t p.2.arguments = b.reading level' w t p.2.arguments := by
    refine List.mapIdx_eq_mapIdx_iff.mpr fun i hi => ?_
    obtain ⟨a, ha, hsame⟩ := h (p.2.name, p.2.arguments[i])
      (Design.mem_argumentNames.mpr ⟨p.1, p.2, hp, List.getElem_mem hi, rfl⟩)
    simp only [ha, Option.getD_some, hsame]
  rw [hreading]

/-- Simple factors keep the levels that were chosen for them. -/
theorem completed_simple (choice : Nat → Nat → Nat) (order : List Nat) {f : Nat}
    (hw : (b.design.factorAt f).window? = none) : b.completed choice order f = choice f := by
  induction order using List.reverseRecOn with
  | nil => rfl
  | append_singleton order e ih =>
    rw [completed_snoc]
    by_cases hf : f = e
    · rw [hf, Function.update_self, ← hf, follow_simple hw, ih]
    · rw [Function.update_of_ne hf, ih]

/-- In the end all derived factors have the levels that follow from those of their arguments. -/
theorem follow_completed {order : List Nat} (hord : b.design.Ordered order) {f : Nat}
    (hf : f ∈ order) {w : Window} (hw : (b.design.factorAt f).window? = some w) :
    b.completed choice order f = b.follow (b.completed choice order) f := by
  induction hord with
  | nil => cases hf
  | @snoc order e hord hlt hnew hargs ih =>
    -- the last factor changes no level that it or an earlier one reads
    have hkeeps :
        ∀ a ∈ order, b.completed choice (order ++ [e]) a = b.completed choice order a := by
      intro a ha
      have hne : a ≠ e := fun hae => hnew (hae ▸ ha)
      rw [completed_snoc, Function.update_of_ne hne]
    rcases List.mem_append.mp hf with hf | hf
    · rw [hkeeps f hf, ih hf]
      refine follow_congr hw fun p hp => ?_
      obtain ⟨a, ha, hindex⟩ := hord.argument_mem hf p hp
      exact ⟨a, hindex, (hkeeps a ha).symm⟩
    · obtain rfl := List.mem_singleton.mp hf
      have hlast : b.completed choice (order ++ [f]) f = b.follow (b.completed choice order) f := by
        rw [completed_snoc, Function.update_self]
      rw [hlast]
      refine follow_congr hw fun p hp => ?_
      obtain ⟨a, ha, hindex⟩ := hargs p hp
      exact ⟨a, hindex, (hkeeps a ha).symm⟩

/-! ## Levels that follow -/

/-- What a window reads are levels of the arguments. -/
def ReadsLevels (b : Block) (level : Nat → Nat → Nat) (w : Window) (t : Nat)
    (arguments : List String) : Prop :=
  ∀ i argument, arguments[i]? = some argument → ∃ a, b.design.index? argument = some a ∧
    level a (w.readTrial t i) < (b.design.factorAt a).size

/-- The names of what a window reads are names of the arguments' levels. -/
theorem ReadsLevels.mem_product (hb : b.WellFormed) {w : Window} {t : Nat}
    {arguments : List String} (h : b.ReadsLevels level w t arguments) :
    (b.reading level w t arguments).filterMap b.levelName? ∈
      product (arguments.map b.design.levelNamesOf) := by
  refine Counterbalance.mem_product.mpr (Lists.forall₂_filterMap ?_)
  rw [List.forall₂_map_right_iff]
  refine Lists.forall₂_of_getElem? (by simp [reading]) fun i d argument hd hargument => ?_
  obtain ⟨a, ha, hlt⟩ := h i argument hargument
  have hlevel := List.getElem?_eq_getElem hlt
  rw [reading, List.getElem?_mapIdx, hargument, Option.map_some, Option.some.injEq] at hd
  simp only [ha, Option.getD_some] at hd
  refine ⟨_, hd ▸ hb.levelName?_dataIndex (Design.factorAt_of_index? ha).1 hlevel, ?_⟩
  simp only [Design.levelNamesOf, ha]
  exact List.mem_map_of_mem (List.getElem_mem hlt)

/-- Exactly one level follows from what a window reads. -/
theorem accepts_iff_follow (hb : b.WellFormed) (hd : b.design.Partitioned) {f t : Nat}
    {w : Window} (hw : (b.design.factorAt f).window? = some w)
    (hreads : ∀ p ∈ (b.design.factorAt f).derivedLevels, b.ReadsLevels level w t p.2.arguments) :
    (∃ lv, (b.follow level f t, lv) ∈ (b.design.factorAt f).derivedLevels) ∧
    ∀ p ∈ (b.design.factorAt f).derivedLevels, p.2.predicate.accepts
      ((b.reading level w t p.2.arguments).filterMap b.levelName?) = true ↔
        p.1 = b.follow level f t := by
  have hfactor := Design.factorAt_mem (Design.lt_of_window? hw)
  obtain ⟨first, hfirst, _⟩ := Factor.window?_eq_some_iff.mp hw
  -- all levels read the same names, since they share their arguments
  let names := (b.reading level w t first.arguments).filterMap b.levelName?
  have hnames : ∀ p ∈ (b.design.factorAt f).derivedLevels,
      (b.reading level w t p.2.arguments).filterMap b.levelName? = names := by
    intro p hp
    rw [hd.shared _ hfactor p hp _ hfirst]
  have hone := hd.exactlyOne _ hfactor _ hfirst names ((hreads _ hfirst).mem_product hb)
  obtain ⟨q, hfind, hq⟩ := Lists.find?_of_countP_eq_one hone
  have hfollow : b.follow level f t = q.1 := by
    simp only [follow, hw]
    rw [List.find?_congr fun p hp => by rw [hnames p hp], hfind]
    rfl
  have hlevel := ((hq q).mpr rfl).1
  rw [hfollow]
  refine ⟨⟨q.2, hlevel⟩, fun p hp => ?_⟩
  rw [hnames p hp]
  constructor
  · intro haccepts
    rw [(hq p).mp ⟨hp, haccepts⟩]
  · intro hindex
    exact ((hq p).mpr (Factor.derivedLevels_inj hp hlevel hindex)).2

variable {f t l : Nat} {w : Window} {lv : DerivedLevel}

theorem readsLevels_of_applies (hb : b.WellFormed) (hw : (b.design.factorAt f).window? = some w)
    (happ : b.applies f t = true) (h : ∀ a, b.design.Reads f a → ∀ u, b.applies a u = true →
      level a u < (b.design.factorAt a).size) :
    ∀ p ∈ (b.design.factorAt f).derivedLevels, b.ReadsLevels level w t p.2.arguments := by
  intro p hp i argument hi
  obtain ⟨a, ha, happa⟩ := hb.applies_argument hw hp happ hi
  exact ⟨a, ha, h a (Design.reads_of_argument hp (List.mem_of_getElem? hi) ha) _ happa⟩

/-- What a window reads under an assignment are the levels that it chooses. -/
theorem readAt_reading (hb : b.WellFormed) (hw : (b.design.factorAt f).window? = some w)
    (hl : (l, lv) ∈ (b.design.factorAt f).derivedLevels) (happ : b.applies f t = true)
    (h : ∀ a, b.design.Reads f a → ∀ u, b.applies a u = true → b.Chosen g a u (level a u)) :
    b.ReadAt g w t lv.arguments (b.reading level w t lv.arguments) := by
  refine ⟨by simp [reading], fun i argument hi => ?_⟩
  obtain ⟨a, ha, happa⟩ := hb.applies_argument hw hl happ hi
  refine ⟨a, _, ha, h a (Design.reads_of_argument hl (List.mem_of_getElem? hi) ha) _ happa, ?_⟩
  rw [reading, List.getElem?_mapIdx, hi, Option.map_some]
  simp only [ha, Option.getD_some]

/-- **Derived levels are determined.** Where the simple factors have their chosen levels, the
derived ones are as their predicates demand exactly if they have the levels that follow. -/
theorem derived_iff_completed (hb : b.WellFormed) (hd : b.design.Partitioned) (hg : b.Cells g)
    (hsimple : ∀ f t, b.applies f t = true → (b.design.factorAt f).window? = none →
      b.Chosen g f t (choice f t)) :
    b.Derived g ↔
      ∀ f t, b.applies f t = true → b.Chosen g f t (b.completed choice b.order f t) := by
  constructor
  · intro hderived
    have hall : ∀ f ∈ b.order, ∀ t, b.applies f t = true →
        b.Chosen g f t (b.completed choice b.order f t) := by
      refine hb.ordered.induct fun f hf ih t happ => ?_
      cases hw : (b.design.factorAt f).window? with
      | none =>
        rw [completed_simple choice _ hw]
        exact hsimple f t happ hw
      | some w =>
        have hreads := readsLevels_of_applies hb hw happ fun a ha u happa => (ih a ha u happa).1
        obtain ⟨⟨lv, hlv⟩, hiff⟩ := accepts_iff_follow hb hd hw hreads
        rw [follow_completed hb.ordered (hb.mem_order f hf) hw]
        have hread := readAt_reading hb hw hlv happ ih
        exact (hderived f t w _ lv _ hw hlv happ hread).mpr ((hiff _ hlv).mpr rfl)
    exact fun f t happ => hall f (hb.mem_order f (hb.applies_iff.mp happ).1) t happ
  · intro hall f t w l lv ds hw hl happ hds
    have hread := readAt_reading hb hw hl happ fun a _ u happa => hall a u happa
    obtain rfl := (existsUnique_readAt hb hg hw hl happ).unique hds hread
    have hreads := readsLevels_of_applies hb hw happ fun a _ u happa => (hall a u happa).1
    obtain ⟨_, hiff⟩ := accepts_iff_follow hb hd hw hreads
    have hchosen := hall f t happ
    rw [follow_completed hb.ordered (hb.mem_order f (Design.lt_of_window? hw)) hw] at hchosen
    rw [hiff (l, lv) hl]
    exact hg.chosen_iff_eq happ hchosen

/-! ## Choices -/

/-- Levels chosen for the simple factors, among which every combination of crossed levels occurs. -/
structure Choice (b : Block) (choice : Nat → Nat → Nat) : Prop where
  lt : ∀ f < b.design.length, (b.design.factorAt f).window? = none → ∀ t < b.trials,
    choice f t < (b.design.factorAt f).size
  crossed : ∀ ls, b.Combined ls → ∃ t < b.trials, b.crossing.map (choice · t) = ls

/-- The sequence shows the levels chosen for the simple factors. -/
def Makes (b : Block) (s : Sequence) (choice : Nat → Nat → Nat) : Prop :=
  ∀ f < b.design.length, (b.design.factorAt f).window? = none →
    ∀ t < b.trials, b.Gives s f t (choice f t)

theorem WellFormed.applies_simple (hb : b.WellFormed) (hf : f < b.design.length)
    (hw : (b.design.factorAt f).window? = none) (ht : t < b.trials) : b.applies f t = true :=
  hb.applies_iff.mpr ⟨hf, ht, .simple hw⟩

theorem makes_iff (hb : b.WellFormed) {s : Sequence} (hs : b.Shows g s) : b.Makes s choice ↔
    ∀ f t, b.applies f t = true → (b.design.factorAt f).window? = none →
      b.Chosen g f t (choice f t) := by
  constructor
  · intro h f t happ hw
    obtain ⟨hf, ht, _⟩ := hb.applies_iff.mp happ
    exact ((gives_iff hb hs hf).mp (h f hf hw t ht)).2
  · intro h f hf hw t ht
    have happ := hb.applies_simple hf hw ht
    exact (gives_iff hb hs hf).mpr ⟨happ, h f t happ hw⟩

/-- The levels that follow from a choice are levels. -/
theorem Choice.completed_lt (h : b.Choice choice) (hb : b.WellFormed) (hd : b.design.Partitioned)
    (happ : b.applies f t = true) :
    b.completed choice b.order f t < (b.design.factorAt f).size := by
  have hall : ∀ f ∈ b.order, ∀ t, b.applies f t = true →
      b.completed choice b.order f t < (b.design.factorAt f).size := by
    refine hb.ordered.induct fun f hf ih t happ => ?_
    cases hw : (b.design.factorAt f).window? with
    | none =>
      rw [completed_simple choice _ hw]
      exact h.lt f hf hw t (hb.applies_iff.mp happ).2.1
    | some w =>
      have hreads := readsLevels_of_applies hb hw happ ih
      obtain ⟨⟨lv, hlv⟩, _⟩ := accepts_iff_follow hb hd hw hreads
      rw [follow_completed hb.ordered (hb.mem_order f hf) hw]
      exact lt_of_mem_derivedLevels hlv
  exact hall f (hb.mem_order f (hb.applies_iff.mp happ).1) t happ

/-- An assignment that chooses the levels that follow from a choice, and no others. -/
theorem Choice.exists_cells (h : b.Choice choice) (hb : b.WellFormed) (hr : b.InRange)
    (hd : b.design.Partitioned) :
    ∃ g, b.Cells g ∧
      ∀ f t, b.applies f t = true → b.Chosen g f t (b.completed choice b.order f t) := by
  let P : Nat → Nat → Nat → Prop :=
    fun f t l => b.applies f t = true ∧ b.completed choice b.order f t = l
  have hP : ∀ f t l, P f t l → f < b.design.length ∧ t < b.trials ∧
      l < (b.design.factorAt f).size := by
    intro f t l hl
    obtain ⟨happ, rfl⟩ := hl
    obtain ⟨hf, ht, _⟩ := hb.applies_iff.mp happ
    exact ⟨hf, ht, h.completed_lt hb hd happ⟩
  have hchosen : ∀ {f t l}, f < b.design.length → t < b.trials →
      (b.Chosen (b.choosing P) f t l ↔ P f t l) := fun hf ht => chosen_choosing_iff hb hr hP hf ht
  refine ⟨b.choosing P, ⟨fun f t happ => ?_, fun f t l hf ht happ hl => ?_⟩, fun f t happ => ?_⟩
  · obtain ⟨hf, ht, _⟩ := hb.applies_iff.mp happ
    exact ⟨_, (hchosen hf ht).mpr ⟨happ, rfl⟩, fun l hl => ((hchosen hf ht).mp hl).2.symm⟩
  · rw [((hchosen hf ht).mp hl).1] at happ
    cases happ
  · obtain ⟨hf, ht, _⟩ := hb.applies_iff.mp happ
    exact (hchosen hf ht).mpr ⟨happ, rfl⟩

/-- Where all crossed factors are simple, the combinations of a choice are chosen. -/
theorem Choice.exists_crossedTrial (h : b.Choice choice) (hb : b.WellFormed)
    (hcrossing : ∀ f ∈ b.crossing, (b.design.factorAt f).window? = none)
    (hsimple : ∀ f t, b.applies f t = true → (b.design.factorAt f).window? = none →
      b.Chosen g f t (choice f t)) {ls : List Nat} (hls : b.Combined ls) :
    ∃ t ∈ b.crossedTrials, List.Forall₂ (fun f l => b.Chosen g f t l) b.crossing ls := by
  obtain ⟨t, ht, rfl⟩ := h.crossed ls hls
  have happ : ∀ f ∈ b.crossing, b.applies f t = true := fun f hf =>
    hb.applies_simple (hb.crossing_lt f hf) (hcrossing f hf) ht
  refine ⟨t, mem_crossedTrials.mpr ⟨ht, happ⟩, ?_⟩
  rw [List.forall₂_map_right_iff, List.forall₂_same]
  exact fun f hf => hsimple f t (happ f hf) (hcrossing f hf)

variable {options : Options} {c : Compilation}

/-- A model that makes a choice chooses the levels that follow from it. -/
theorem chosen_of_makes (hb : b.WellFormed) (hd : b.design.Partitioned)
    (hexact : options.exactlyOne = true) (hc : b.compile options = .ok c) {ν : Nat → Bool}
    (hν : c.IsModel ν) {s : Sequence} (hs : b.decode (signedEntries ν c.varCount) = .ok s)
    (hmakes : b.Makes s choice) :
    b.Cells ν ∧ ∀ f t, b.applies f t = true → b.Chosen ν f t (b.completed choice b.order f t) := by
  obtain ⟨hcells, s', hs', hshows, hvalid⟩ := valid_of_model hb hexact hc hν
  obtain rfl := Except.ok.inj (hs'.symm.trans hs)
  have hsimple := (makes_iff hb hshows).mp hmakes
  have hderived := (derived_iff hb hcells hshows).mpr hvalid.derived
  exact ⟨hcells, (derived_iff_completed hb hd hcells hsimple).mp hderived⟩

/-- Without constraints, the levels that follow from a choice are those of a model. -/
theorem Choice.exists_model (h : b.Choice choice) (hb : b.WellFormed) (hd : b.design.Partitioned)
    (hnone : b.constraints = [])
    (hcrossing : ∀ f ∈ b.crossing, (b.design.factorAt f).window? = none)
    (hexact : options.exactlyOne = true) (hc : b.compile options = .ok c) :
    ∃ ν s, c.IsModel ν ∧ b.decode (signedEntries ν c.varCount) = .ok s ∧ b.Makes s choice := by
  have hr := inRange_of_compile hb hexact hc
  obtain ⟨p, hp⟩ := exists_describes hb hr hc
  obtain ⟨g, hcells, hchosen⟩ := h.exists_cells hb hr hd
  have hsimple : ∀ f t, b.applies f t = true → (b.design.factorAt f).window? = none →
      b.Chosen g f t (choice f t) := by
    intro f t happ hw
    rw [← completed_simple choice b.order hw]
    exact hchosen f t happ
  obtain ⟨s, hs⟩ := (exists_decode_iff hb hr (Nat.le_refl _)).mpr hcells.exact
  have hshows := shows_of_decode hb hr (Nat.le_refl _) hs
  have hvalid : b.Valid options.fullCrossing s := by
    refine ⟨(derived_iff hb hcells hshows).mp ?_,
      fun _ => (crossed_iff hb hshows).mp fun ls hls => ?_, ?_⟩
    · exact (derived_iff_completed hb hd hcells hsimple).mpr hchosen
    · exact h.exists_crossedTrial hb hcrossing hsimple hls
    · rw [hnone]
      exact fun k hk => absurd hk List.not_mem_nil
  have hdemands := (p.demands_iff_valid hb hexact (Nat.le_refl _)).mpr ⟨hcells, s, hs, hvalid⟩
  obtain ⟨ν, hagree, hν⟩ := (hp.extends_iff g).mpr hdemands
  refine ⟨ν, s, hν, ?_, (makes_iff hb hshows).mpr hsimple⟩
  rw [decode_eq_of_agree hb hr hp.grid_le (Nat.le_refl _) hagree, hs]

/-- **One model per choice.** Without constraints, every choice of levels for the simple factors in
which all crossed combinations occur is made by one model. -/
theorem Choice.existsUnique_model (h : b.Choice choice) (hb : b.WellFormed)
    (hd : b.design.Partitioned) (hnone : b.constraints = [])
    (hcrossing : ∀ f ∈ b.crossing, (b.design.factorAt f).window? = none)
    (hexact : options.exactlyOne = true) (hc : b.compile options = .ok c) :
    ∃! entries, entries ∈ c.models ∧ ∃ s, b.decode entries = .ok s ∧ b.Makes s choice := by
  have hr := inRange_of_compile hb hexact hc
  obtain ⟨p, hp⟩ := exists_describes hb hr hc
  obtain ⟨ν, s, hν, hs, hmakes⟩ := h.exists_model hb hd hnone hcrossing hexact hc
  refine ⟨signedEntries ν c.varCount, ⟨⟨ν, hν, rfl⟩, s, hs, hmakes⟩, fun entries hentries => ?_⟩
  obtain ⟨⟨μ, hμ, rfl⟩, s', hs', hmakes'⟩ := hentries
  obtain ⟨hcellsν, hchosenν⟩ := chosen_of_makes hb hd hexact hc hν hs hmakes
  obtain ⟨hcellsμ, hchosenμ⟩ := chosen_of_makes hb hd hexact hc hμ hs' hmakes'
  have hsame : ∀ v, 0 < v → v ≤ b.gridVariables → μ v = ν v := by
    refine hcellsμ.eq_of_chosen_iff hb hr hcellsν fun f t l happ => ?_
    rw [hcellsμ.chosen_iff_eq happ (hchosenμ f t happ),
      hcellsν.chosen_iff_eq happ (hchosenν f t happ)]
  exact signedEntries_congr (hp.unique μ ν hμ hν hsame)

/-! ## Choices of fully crossed blocks -/

/-- The levels of trial `t` in the list of all combinations, one combination per trial. -/
def combinationAt (b : Block) (f t : Nat) : Nat :=
  ((b.combinationList[t]?.getD [])[b.crossing.idxOf f]?).getD 0

theorem combinationAt_lt (hb : b.WellFormed) (hf : f < b.design.length) (t : Nat) :
    b.combinationAt f t < (b.design.factorAt f).size := by
  have hpos : 0 < (b.design.factorAt f).size :=
    List.length_pos_iff.mpr (hb.faultless.fitsAt hf).nonempty
  unfold combinationAt
  cases hls : b.combinationList[t]? with
  | none => exact hpos
  | some ls =>
    rw [Option.getD_some]
    cases hl : ls[b.crossing.idxOf f]? with
    | none => exact hpos
    | some l =>
      have hcombined := mem_combinationList.mp (List.mem_of_getElem? hls)
      obtain ⟨e, he, hlt⟩ := Lists.getElem?_right_of_forall₂ hcombined.flip hl
      obtain ⟨hindex, rfl⟩ := List.getElem?_eq_some_iff.mp he
      rwa [List.getElem_idxOf hindex] at hlt

/-- Where the crossed factors are distinct, every combination is that of a trial. -/
theorem exists_combinationAt_eq (hb : b.WellFormed) (hnodup : b.crossing.Nodup) {ls : List Nat}
    (hls : b.Combined ls) : ∃ t < b.trials, b.crossing.map (b.combinationAt · t) = ls := by
  obtain ⟨t, ht⟩ := List.mem_iff_getElem?.mp (mem_combinationList.mpr hls)
  have hlt := (List.getElem?_eq_some_iff.mp ht).1
  have hle := hb.crossingSize_le
  have htrials : b.crossedTrials.length ≤ (List.range b.trials).length := List.length_filter_le _ _
  rw [length_combinationList] at hlt
  rw [List.length_range] at htrials
  have hlength : b.crossing.length = ls.length := hls.length_eq
  refine ⟨t, by omega, List.ext_getElem (by simp [hlength]) fun i hi hi' => ?_⟩
  have hindex : b.crossing.idxOf b.crossing[i] = i := hnodup.idxOf_getElem i (hlength ▸ hi')
  rw [List.getElem_map, combinationAt, ht, Option.getD_some, hindex, List.getElem?_eq_getElem hi',
    Option.getD_some]

/-- Distinct crossed factors can show one combination per trial. -/
theorem choice_combinationAt (hb : b.WellFormed) (hnodup : b.crossing.Nodup) :
    b.Choice b.combinationAt :=
  ⟨fun _ hf _ t _ => combinationAt_lt hb hf t, fun _ hls => exists_combinationAt_eq hb hnodup hls⟩

/-- **Unconstrained fully crossed blocks are solvable.** Where distinct simple factors are crossed
and the levels of derived factors partition what their arguments can be, levels can be chosen for
the simple factors such that all crossed combinations occur. The block can be compiled as long as
its variables are in the range of literals, and every such choice is then made by one model. -/
theorem fullyCrossed_solvable {d : Design} {names : List String}
    (hb : fullyCrossed d names [] = .ok b) (hnames : names.Nodup)
    (hcrossing : ∀ f ∈ b.crossing, (d.factorAt f).window? = none) (hd : d.Partitioned) :
    (∃ choice, b.Choice choice) ∧
    (∃ table, b.derivationTable = .ok table ∧
      (b.trials * b.trialSize + b.auxiliaries table ≤ maxVariable → ∃ c, b.compile {} = .ok c ∧
        c.varCount = b.trials * b.trialSize + b.auxiliaries table)) ∧
    ∀ c, b.compile {} = .ok c →
      (∀ choice, b.Choice choice →
        ∃! entries, entries ∈ c.models ∧ ∃ s, b.decode entries = .ok s ∧ b.Makes s choice) ∧
      ∃ entries, c.cnf.isSatisfiedBy entries = true := by
  have hwf := Accepted.wellFormed ⟨d, names, [], .inr hb⟩
  obtain ⟨order, crossing, hprep, hblock, _⟩ := sized_of_fullyCrossed hb
  have hdesign : b.design = d := by rw [hblock]; rfl
  have hnone : b.constraints = [] := by rw [hblock]; rfl
  have hcrossed : b.crossing = crossing := by rw [hblock]; rfl
  subst hdesign
  have hnodup : b.crossing.Nodup := by
    rw [hcrossed]
    exact Design.nodup_of_resolveCrossing (Design.prepare_eq_ok.mp hprep).2.2 hnames
  have hchoice := choice_combinationAt hwf hnodup
  refine ⟨⟨_, hchoice⟩, ?_, fun c hc => ?_⟩
  · obtain ⟨table, htable⟩ := exists_derivationTable hwf hd.matching
    refine ⟨table, htable, fun hroom => ?_⟩
    have hφss : b.constraints.mapM b.requirements = .ok [] := by rw [hnone]; rfl
    obtain ⟨c, hc, hcount⟩ := exists_compile hwf htable hφss {} hroom
    exact ⟨c, hc, hcount rfl rfl⟩
  · have hunique : ∀ choice, b.Choice choice →
        ∃! entries, entries ∈ c.models ∧ ∃ s, b.decode entries = .ok s ∧ b.Makes s choice :=
      fun choice hchoice => hchoice.existsUnique_model hwf hd hnone hcrossing rfl hc
    obtain ⟨entries, ⟨⟨ν, hν, rfl⟩, _⟩, _⟩ := hunique _ hchoice
    exact ⟨hunique, _, hν⟩

/-- Two colours, their hues and the repetitions of these; a choice of colours leaves one model. -/
theorem fullyCrossed_solvable_hues :
    ∃ b c choice, fullyCrossed .hues ["color"] [] = .ok b ∧ b.compile {} = .ok c ∧ b.Choice choice ∧
      (∃! entries, entries ∈ c.models ∧ ∃ s, b.decode entries = .ok s ∧ b.Makes s choice) ∧
      ∃ entries, c.cnf.isSatisfiedBy entries = true := by
  have hroom : ((fullyCrossed .hues ["color"] []).toOption.bind fun b =>
      b.derivationTable.toOption.map fun table =>
        (decide (∀ f ∈ b.crossing, (Design.hues.factorAt f).window? = none),
          decide (b.trials * b.trialSize + b.auxiliaries table ≤ maxVariable))) =
      some (true, true) := by
    decide +kernel
  obtain ⟨b, hb, hroom⟩ := Option.bind_eq_some_iff.mp hroom
  obtain ⟨table, htable, hroom⟩ := Option.map_eq_some_iff.mp hroom
  rw [Outcome.toOption_eq_some] at hb htable
  obtain ⟨hcrossing, hroom⟩ := Prod.mk.inj hroom
  obtain ⟨⟨choice, hchoice⟩, ⟨table', htable', hcompiles⟩, hsolvable⟩ :=
    fullyCrossed_solvable hb (by decide) (of_decide_eq_true hcrossing) (by decide +kernel)
  obtain rfl := Except.ok.inj (htable.symm.trans htable')
  obtain ⟨c, hc, _⟩ := hcompiles (of_decide_eq_true hroom)
  obtain ⟨hunique, hsatisfiable⟩ := hsolvable c hc
  exact ⟨b, c, choice, hb, hc, hchoice, hunique choice hchoice, hsatisfiable⟩

end Block

end Counterbalance
