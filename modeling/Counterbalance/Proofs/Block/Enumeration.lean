import Counterbalance.Proofs.Block.Derivation

/-! The derivation table, entry by entry. Generation only fails over a predicate that takes another
number of arguments than its level has. What it returns lists for each derived level, in
lexicographic order, the combinations of possible argument levels that the predicate accepts, each
element moved to the trial that the window reads it in. -/

namespace Counterbalance

/-- Moving combinations along a window keeps their order. -/
theorem Window.shift_lt_shift (w : Window) (n : Nat) {c e : Combination} (h : c < e) :
    w.shift n c < w.shift n e := by
  unfold shift
  split
  · exact h
  · exact Lists.mapIdx_lt_mapIdx (fun i x y hxy => Nat.add_lt_add_right hxy (i * n)) h

namespace DerivationTable

/-- Entries are listed in the order of their data indices. -/
theorem pairwise_toList {table : DerivationTable}
    (h : ∀ i drv, table.get? i = some drv → drv.level = i) :
    table.toList.Pairwise fun d e : Derivation => d.level < e.level := by
  have hslot : ∀ (i : Nat) (drv : Derivation), table.slots.toList[i]? = some (some drv) →
      drv.level = i := by
    intro i drv hi
    refine h i drv ?_
    rw [get?, ← Array.getElem?_toList, hi]
    rfl
  rw [toList, List.pairwise_filterMap, List.pairwise_iff_getElem]
  intro i j hi hj hij d hd e he
  have hd' := List.getElem?_eq_getElem hi
  have he' := List.getElem?_eq_getElem hj
  rw [hslot i d (hd'.trans (congrArg some hd)), hslot j e (he'.trans (congrArg some he))]
  exact hij

end DerivationTable

/-- Every predicate takes as many arguments as its level has. -/
def Design.Matching (d : Design) : Prop :=
  ∀ f ∈ d, ∀ p ∈ f.derivedLevels, p.2.predicate.arity = p.2.arguments.length

instance (d : Design) : Decidable d.Matching :=
  inferInstanceAs
    (Decidable (∀ f ∈ d, ∀ p ∈ f.derivedLevels, p.2.predicate.arity = p.2.arguments.length))

namespace Block

variable {b : Block}

/-! ## Failures of the generation -/

/-- A derivation only fails over the predicate's arity or an argument without a factor. -/
theorem error_of_derive {table : DerivationTable} {f l : Nat} {w : Window} {level : DerivedLevel}
    {e : DesignError} (h : b.derive table f w l level = .error e) :
    level.predicate.arity ≠ level.arguments.length ∨
      ∃ a ∈ level.arguments, b.design.index? a = none := by
  unfold derive at h
  simp only at h
  split at h
  · rename_i harity
    exact .inl harity
  · rcases Outcome.bind_eq_error.mp h with h | ⟨_, _, h⟩
    · obtain ⟨argument, hmem, h⟩ := Outcome.exists_error_of_mapM h
      split at h
      · cases h
      · rename_i hnone
        exact .inr ⟨argument, hmem, hnone⟩
    · cases h

theorem error_of_deriveFactor {table : DerivationTable} {f : Nat} {e : DesignError}
    (h : b.deriveFactor table f = .error e) :
    ∃ p ∈ (b.design.factorAt f).derivedLevels, p.2.predicate.arity ≠ p.2.arguments.length ∨
      ∃ a ∈ p.2.arguments, b.design.index? a = none := by
  unfold deriveFactor at h
  split at h
  · cases h
  · obtain ⟨p, hp, table', h⟩ := Outcome.exists_error_of_foldlM h
    rcases Outcome.bind_eq_error.mp h with h | ⟨_, _, h⟩
    · exact ⟨p, hp, error_of_derive h⟩
    · cases h

/-- Where the arities match, all derivations can be generated. -/
theorem exists_derivationTable (hb : b.WellFormed) (harity : b.design.Matching) :
    ∃ table, b.derivationTable = .ok table := by
  cases h : b.derivationTable with
  | ok table => exact ⟨table, rfl⟩
  | error e =>
    obtain ⟨f, hf, table, h⟩ := Outcome.exists_error_of_foldlM h
    have hfactor := Design.factorAt_mem (hb.ordered.lt f hf)
    obtain ⟨p, hp, hwrong | ⟨a, ha, hnone⟩⟩ := error_of_deriveFactor h
    · exact absurd (harity _ hfactor p hp) hwrong
    · exact absurd (hb.faultless.named _ hfactor p hp a ha) (Design.index?_eq_none_iff.mp hnone)

/-! ## Entries -/

/-- Factor `a` can have the level with data index `d`: every level of a simple factor, and the
levels of a derived factor whose entries are not empty. -/
def Candidate (b : Block) (table : DerivationTable) (a d : Nat) : Prop :=
  ∃ l < (b.design.factorAt a).size, d = b.dataIndex a l ∧
    ((b.design.factorAt a).isDerived = true →
      ∃ drv, table.get? d = some drv ∧ drv.combinations ≠ [])

/-- One candidate per argument, whose level names the predicate accepts. -/
structure Admits (b : Block) (table : DerivationTable) (level : DerivedLevel) (ds : Combination) :
    Prop where
  candidates : List.Forall₂
    (fun argument d => ∃ a, b.design.index? argument = some a ∧ b.Candidate table a d)
    level.arguments ds
  accepted : ∃ names, ds.map b.levelName? = names.map some ∧ level.predicate.accepts names = true

/-- The derivation lists, in lexicographic order and each once, the admitted combinations, with
element `i` moved by `i` trials unless the window is a single trial. -/
structure Enumerates (b : Block) (table : DerivationTable) (level : DerivedLevel)
    (drv : Derivation) : Prop where
  ascending : drv.combinations.Pairwise (· < ·)
  mem_iff : ∀ moved, moved ∈ drv.combinations ↔ ∃ ds, b.Admits table level ds ∧
    ∀ i, moved[i]? = ds[i]?.map fun d => if level.window.width = 1 then d else d + i * b.trialSize

theorem mem_domain_iff_candidate {table : DerivationTable} {a d : Nat} :
    d ∈ b.domain table a ↔ b.Candidate table a d := mem_domain

theorem forall₂_mem_iff {table : DerivationTable} {arguments : List String}
    {domains : List (List Nat)}
    (h : List.Forall₂
      (fun argument domain => ∃ a, b.design.index? argument = some a ∧ domain = b.domain table a)
      arguments domains) {ds : Combination} :
    List.Forall₂ (fun d domain => d ∈ domain) ds domains ↔ List.Forall₂
      (fun argument d => ∃ a, b.design.index? argument = some a ∧ d ∈ b.domain table a)
        arguments ds := by
  induction h generalizing ds with
  | nil => simp
  | @cons argument domain arguments domains ha _ ih =>
    obtain ⟨a, ha, rfl⟩ := ha
    cases ds with
    | nil => simp
    | cons d ds =>
      rw [List.forall₂_cons, List.forall₂_cons, ih]
      simp only [ha, Option.some.injEq, exists_eq_left']

theorem pairwise_domain (b : Block) (table : DerivationTable) (a : Nat) :
    (b.domain table a).Pairwise (· < ·) := by
  have hindices : (b.dataIndices a).Pairwise (· < ·) := by
    rw [dataIndices, List.pairwise_map]
    exact List.pairwise_lt_range.imp fun h => Nat.add_lt_add_left h _
  unfold domain
  split
  · exact hindices.filter _
  · exact hindices

/-- Candidates have names. -/
theorem Candidate.exists_name (hb : b.WellFormed) {table : DerivationTable} {a d : Nat}
    (ha : a < b.design.length) (h : b.Candidate table a d) :
    ∃ name, b.levelName? d = some name := by
  obtain ⟨l, hl, rfl, _⟩ := h
  exact ⟨_, hb.levelName?_dataIndex ha (List.getElem?_eq_getElem hl)⟩

/-- The combinations that generation accepts, where `domains` are those of the arguments. -/
theorem mem_accepted_iff_admits (hb : b.WellFormed) {table : DerivationTable} {level : DerivedLevel}
    {domains : List (List Nat)} (hdomains : List.Forall₂
      (fun argument domain => ∃ a, b.design.index? argument = some a ∧ domain = b.domain table a)
      level.arguments domains) {ds : Combination} :
    ds ∈ b.accepted level domains ↔ b.Admits table level ds := by
  have hcandidates : List.Forall₂ (fun d domain => d ∈ domain) ds domains ↔ List.Forall₂
      (fun argument d => ∃ a, b.design.index? argument = some a ∧ b.Candidate table a d)
      level.arguments ds := by
    simp only [← mem_domain_iff_candidate]
    exact forall₂_mem_iff hdomains
  have hnames : List.Forall₂
      (fun argument d => ∃ a, b.design.index? argument = some a ∧ b.Candidate table a d)
      level.arguments ds → (ds.filterMap b.levelName?).map some = ds.map b.levelName? := by
    intro hds
    refine Lists.map_some_filterMap fun d hd => ?_
    obtain ⟨argument, _, a, ha, hcandidate⟩ := Lists.exists_left_of_mem hds hd
    exact hcandidate.exists_name hb (Design.factorAt_of_index? ha).1
  rw [mem_accepted, hcandidates]
  constructor
  · intro h
    obtain ⟨hds, haccepts⟩ := h
    exact ⟨hds, _, (hnames hds).symm, haccepts⟩
  · intro h
    obtain ⟨hds, names, hmap, haccepts⟩ := h
    rw [← hnames hds, List.map_inj_right fun _ _ => Option.some.inj] at hmap
    exact ⟨hds, hmap ▸ haccepts⟩

/-- A derivation lists, moved along the window, the combinations that its level admits, in ascending
order. -/
theorem Derives.exists_admitted (hb : b.WellFormed) {table : DerivationTable} {f l : Nat}
    {w : Window} {level : DerivedLevel} {drv : Derivation} (h : b.Derives table f l w level drv) :
    ∃ admitted : List Combination, admitted.Pairwise (· < ·) ∧
      (∀ ds, ds ∈ admitted ↔ b.Admits table level ds) ∧
      drv.combinations = admitted.map (w.shift b.trialSize) := by
  obtain ⟨_, domains, hdomains, rfl⟩ := h
  refine ⟨b.accepted level domains, ?_, fun ds => mem_accepted_iff_admits hb hdomains, rfl⟩
  rw [accepted_eq_filter]
  refine (pairwise_product fun domain hdomain => ?_).filter _
  obtain ⟨_, _, a, _, rfl⟩ := Lists.exists_left_of_mem hdomains hdomain
  exact pairwise_domain b table a

/-- A derivation enumerates the combinations that its level admits. -/
theorem Derives.enumerates (hb : b.WellFormed) {table : DerivationTable} {f l : Nat}
    {level : DerivedLevel} {drv : Derivation} (h : b.Derives table f l level.window level drv) :
    b.Enumerates table level drv := by
  obtain ⟨admitted, hsorted, hadmitted, hmoved⟩ := h.exists_admitted hb
  refine ⟨?_, fun moved => ?_⟩
  · rw [hmoved, List.pairwise_map]
    exact hsorted.imp (level.window.shift_lt_shift b.trialSize)
  · rw [hmoved, List.mem_map]
    refine exists_congr fun ds => ?_
    rw [hadmitted]
    refine and_congr_right fun _ => ?_
    simp only [← Window.getElem?_shift]
    rw [eq_comm, List.ext_getElem?_iff]

/-- The table has one entry per derived level, and each lists what its level admits. -/
structure Exact (b : Block) (table : DerivationTable) : Prop where
  exists_iff : ∀ i, (∃ drv, table.get? i = some drv) ↔
    ∃ f, ∃ p ∈ (b.design.factorAt f).derivedLevels, i = b.dataIndex f p.1
  level_eq : ∀ i drv, table.get? i = some drv → drv.level = i
  enumerates : ∀ f, ∀ p ∈ (b.design.factorAt f).derivedLevels, ∀ drv,
    table.get? (b.dataIndex f p.1) = some drv → b.Enumerates table p.2 drv

theorem Tabulated.exact (hb : b.WellFormed) {table : DerivationTable}
    (ht : b.Tabulated b.order table) : b.Exact table := by
  have hlisted : ∀ f, ∀ p ∈ (b.design.factorAt f).derivedLevels,
      ∃ drv, b.Listed table f p.2.window p drv :=
    fun f p hp => ht.exists_listed hb (hb.faultless.window?_eq hp) hp
  refine ⟨fun i => ⟨fun ⟨drv, hi⟩ => ?_, fun ⟨f, p, hp, hi⟩ => ?_⟩, fun i drv hi => ?_,
    fun f p hp drv hget => ?_⟩
  · obtain ⟨f, _, _, _, p, hp, hindex⟩ := ht.drawn i drv hi
    exact ⟨f, p, hp, hindex⟩
  · obtain ⟨drv, hdrv⟩ := hlisted f p hp
    exact ⟨drv, hi ▸ hdrv.get?_eq⟩
  · obtain ⟨f, _, _, _, p, hp, rfl⟩ := ht.drawn i drv hi
    obtain ⟨drv', hdrv⟩ := hlisted f p hp
    rw [hdrv.get?_eq] at hi
    exact Option.some.inj hi ▸ hdrv.derives.level_eq
  · obtain ⟨drv', hdrv⟩ := hlisted f p hp
    rw [hdrv.get?_eq] at hget
    exact Option.some.inj hget ▸ hdrv.derives.enumerates hb

/-- **The derivation table is what the design says.** Where the arities match, generation succeeds
with one entry per derived level, which lists the combinations that the level admits; the list of
derivations has the same entries in the order of data indices. -/
theorem derivationTable_enumerates (hb : b.Accepted) (harity : b.design.Matching) :
    ∃ table, b.derivationTable = .ok table ∧ b.Exact table ∧
      ∃ drvs, b.derivations = .ok drvs ∧ drvs.Pairwise (fun d e => d.level < e.level) ∧
        ∀ drv, drv ∈ drvs ↔ ∃ i, table.get? i = some drv := by
  have hwf := hb.wellFormed
  obtain ⟨table, htable⟩ := exists_derivationTable hwf harity
  have hexact := (tabulated_of_derivationTable hwf htable).exact hwf
  refine ⟨table, htable, hexact, table.toList, ?_, ?_, fun drv => DerivationTable.mem_toList⟩
  · rw [derivations, htable]
    rfl
  · exact DerivationTable.pairwise_toList hexact.level_eq

end Block

/-- A colour, its hue, which is never the third one, and whether the hue repeats. -/
def Design.hues : Design :=
  [⟨"color", [.simple "red", .simple "green"]⟩,
    ⟨"hue", [.derived ⟨"warm", .withinTrial, .oneOf 1 [["red"]], ["color"]⟩,
      .derived ⟨"cold", .withinTrial, .oneOf 1 [["green"]], ["color"]⟩,
      .derived ⟨"none", .withinTrial, .constant 1 false, ["color"]⟩]⟩,
    ⟨"repeats", [.derived ⟨"yes", .transition, .equal, ["hue", "hue"]⟩,
      .derived ⟨"no", .transition, .notEqual, ["hue", "hue"]⟩]⟩]

/-- A hue that never holds has an empty entry and is no candidate for the repetitions, which read
the second hue one trial, or seven data indices, later. -/
theorem Block.derivationTable_enumerates_hues :
    ∃ b table, fullyCrossed .hues ["color"] [] = .ok b ∧ b.derivationTable = .ok table ∧
      b.Exact table ∧ table.get? 4 = some ⟨4, []⟩ ∧ table.get? 5 = some ⟨5, [[2, 9], [3, 10]]⟩ ∧
      table.get? 6 = some ⟨6, [[2, 10], [3, 9]]⟩ := by
  have hrun : ((fullyCrossed .hues ["color"] []).toOption.map fun b => (decide b.design.Matching,
      b.derivationTable.toOption.map fun table => (table.get? 4, table.get? 5, table.get? 6))) =
      some (true,
        some (some ⟨4, []⟩, some ⟨5, [[2, 9], [3, 10]]⟩, some ⟨6, [[2, 10], [3, 9]]⟩)) := by
    decide +kernel
  obtain ⟨b, hb, hrun⟩ := Option.map_eq_some_iff.mp hrun
  rw [Outcome.toOption_eq_some] at hb
  obtain ⟨hmatching, hentries⟩ := Prod.mk.inj hrun
  obtain ⟨table, htable, hexact, _⟩ :=
    derivationTable_enumerates ⟨_, _, _, .inr hb⟩ (of_decide_eq_true hmatching)
  rw [htable] at hentries
  obtain ⟨h₄, h⟩ := Prod.mk.inj (Option.some.inj hentries)
  obtain ⟨h₅, h₆⟩ := Prod.mk.inj h
  exact ⟨b, table, hb, htable, hexact, h₄, h₅, h₆⟩

end Counterbalance
