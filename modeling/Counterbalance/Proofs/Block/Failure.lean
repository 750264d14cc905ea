import Counterbalance.Proofs.Block.Lookup

/-! How compilation fails. Unless a variable leaves the range of literals, it fails over a predicate
that takes another number of arguments than its level has, or over a constraint that names something
unknown, and its error is that of the first of them: of levels, in dependency order, before
constraints, in list order. Predicates are applied to names of levels of their arguments, as many as
they take. -/

namespace Counterbalance

/-- The predicate of the level takes another number of arguments than the level has. -/
def Factor.Mismatched (f : Factor) (p : Nat × DerivedLevel) (e : DesignError) : Prop :=
  p.2.predicate.arity ≠ p.2.arguments.length ∧
    e = .arityMismatch f.name p.2.name p.2.predicate.arity p.2.arguments.length

/-- The names fit the predicate of a level: they are as many as it takes, and each is that of a
level of the argument in its place. -/
structure Design.Suits (d : Design) (level : DerivedLevel) (names : List String) : Prop where
  length_eq : names.length = level.predicate.arity
  levels : List.Forall₂ (fun argument name => ∃ f ∈ d, f.name = argument ∧ name ∈ f.levelNames)
    level.arguments names

namespace Block

variable {b : Block} {options : Options} {table : DerivationTable} {level : DerivedLevel}

/-! ## Applications of predicates -/

/-- The predicate of the level is applied to the names, where `table` holds the derivations of its
arguments: these are the names of one candidate per argument. -/
def Applied (b : Block) (table : DerivationTable) (level : DerivedLevel) (names : List String) :
    Prop :=
  level.predicate.arity = level.arguments.length ∧ ∃ domains, List.Forall₂
      (fun argument domain => ∃ a, b.design.index? argument = some a ∧ domain = b.domain table a)
      level.arguments domains ∧
    ∃ c ∈ product domains, names = c.filterMap b.levelName?

/-- **Predicates are applied to names that fit.** Every candidate has a name, so none is dropped. -/
theorem Applied.suits (hb : b.WellFormed) {names : List String} (h : b.Applied table level names) :
    b.design.Suits level names := by
  obtain ⟨harity, domains, hdomains, c, hc, rfl⟩ := h
  have hnames : List.Forall₂ (fun d argument => ∃ name, b.levelName? d = some name ∧
      ∃ f ∈ b.design, f.name = argument ∧ name ∈ f.levelNames) c level.arguments := by
    refine ((forall₂_mem_iff hdomains).mp (mem_product.mp hc)).flip.imp fun d argument h => ?_
    obtain ⟨a, ha, hd⟩ := h
    obtain ⟨l, hl, rfl, _⟩ := mem_domain.mp hd
    obtain ⟨hlt, hname⟩ := Design.factorAt_of_index? ha
    refine ⟨_, hb.levelName?_dataIndex hlt (List.getElem?_eq_getElem hl), _,
      Design.factorAt_mem hlt, hname, ?_⟩
    exact List.mem_map.mpr ⟨_, List.getElem_mem hl, rfl⟩
  have hlevels := Lists.forall₂_filterMap hnames
  exact ⟨hlevels.length_eq.trans harity.symm, hlevels.flip⟩

/-- What a predicate says of names that it is not applied to makes no difference. -/
theorem derive_congr {f l : Nat} {w : Window} {predicate : Predicate}
    (harity : predicate.arity = level.predicate.arity)
    (h : ∀ names, b.Applied table level names →
      predicate.accepts names = level.predicate.accepts names) :
    b.derive table f w l { level with predicate } = b.derive table f w l level := by
  unfold derive
  simp only [harity]
  split
  · rfl
  · rename_i hmatch
    refine Outcome.bind_congr fun domains hdomains => ?_
    have haccepted : b.accepted { level with predicate } domains = b.accepted level domains := by
      rw [accepted_eq_filter, accepted_eq_filter]
      exact List.filter_congr fun c hc =>
        h _ ⟨not_not.mp hmatch, domains, domains_of_mapM hdomains, c, hc, rfl⟩
    rw [haccepted]

/-! ## Mismatches -/

/-- The error is that of the first derived level, in dependency order, whose predicate does not
match. -/
def FirstMismatch (b : Block) : DesignError → Prop :=
  Outcome.First
    (fun f => Outcome.First (b.design.factorAt f).Mismatched (b.design.factorAt f).derivedLevels)
      b.order

/-- In an accepted block derivations only fail over the predicate's arity, as all arguments name
factors. -/
theorem mismatched_of_derive (hb : b.WellFormed) {f : Nat} {w : Window} {p : Nat × DerivedLevel}
    {e : DesignError} (hp : p ∈ (b.design.factorAt f).derivedLevels)
    (h : b.derive table f w p.1 p.2 = .error e) : (b.design.factorAt f).Mismatched p e := by
  have hf := Design.lt_of_window? (hb.faultless.window?_eq hp)
  unfold derive at h
  simp only at h
  split at h
  · rename_i hmismatch
    exact ⟨hmismatch, (Except.error.inj h).symm⟩
  · rcases Outcome.bind_eq_error.mp h with h | ⟨_, _, h⟩
    · obtain ⟨argument, hargument, h⟩ := Outcome.exists_error_of_mapM h
      split at h
      · cases h
      · rename_i hnone
        have hnamed := hb.faultless.named _ (Design.factorAt_mem hf) p hp argument hargument
        exact absurd hnamed (Design.index?_eq_none_iff.mp hnone)
    · cases h

theorem not_mismatched_of_derive {f : Nat} {w : Window} {p : Nat × DerivedLevel}
    {drv : Derivation} (h : b.derive table f w p.1 p.2 = .ok drv) (e : DesignError) :
    ¬ (b.design.factorAt f).Mismatched p e :=
  fun hmismatch => hmismatch.1 (derives_of_derive h).1

/-- A factor fails over the first of its levels that does not match. -/
theorem first_of_deriveFactor (hb : b.WellFormed) {f : Nat} {e : DesignError}
    (h : b.deriveFactor table f = .error e) :
    Outcome.First (b.design.factorAt f).Mismatched (b.design.factorAt f).derivedLevels e := by
  unfold deriveFactor at h
  split at h
  · cases h
  · refine Outcome.first_of_foldlM_error (fun p _ table table' hok => ?_)
      (fun p hp table e herror => ?_) h
    · obtain ⟨drv, hdrv, _⟩ := Outcome.bind_eq_ok.mp hok
      exact not_mismatched_of_derive hdrv
    · rcases Outcome.bind_eq_error.mp herror with h | ⟨_, _, h⟩
      · exact mismatched_of_derive hb hp h
      · cases h

theorem not_mismatched_of_deriveFactor (hb : b.WellFormed) {f : Nat} {table' : DerivationTable}
    (h : b.deriveFactor table f = .ok table') :
    ∀ p ∈ (b.design.factorAt f).derivedLevels, ∀ e, ¬ (b.design.factorAt f).Mismatched p e := by
  unfold deriveFactor at h
  split at h
  · rename_i hnone
    intro p hp
    rw [hb.faultless.window?_eq hp] at hnone
    cases hnone
  · refine Outcome.not_error_of_foldlM_ok (fun p _ table table' hok => ?_) h
    obtain ⟨drv, hdrv, _⟩ := Outcome.bind_eq_ok.mp hok
    exact not_mismatched_of_derive hdrv

theorem firstMismatch_of_derivationTable (hb : b.WellFormed) {e : DesignError}
    (h : b.derivationTable = .error e) : b.FirstMismatch e := by
  refine Outcome.first_of_foldlM_error (fun f _ table table' hok e hfirst => ?_)
    (fun f _ table e herror => first_of_deriveFactor hb herror) h
  obtain ⟨p, hp, hmismatch⟩ := hfirst.exists_mem
  exact not_mismatched_of_deriveFactor hb hok p hp e hmismatch

theorem matching_of_derivationTable (hb : b.WellFormed) (h : b.derivationTable = .ok table) :
    b.design.Matching := by
  intro g hg p hp
  obtain ⟨f, hf, rfl⟩ := List.mem_iff_getElem.mp hg
  rw [← Design.factorAt_eq_getElem hf] at hp
  obtain ⟨drv, hdrv⟩ :=
    (tabulated_of_derivationTable hb h).exists_listed hb (hb.faultless.window?_eq hp) hp
  exact hdrv.derives.1

theorem FirstMismatch.not_matching (hb : b.WellFormed) {e : DesignError} (h : b.FirstMismatch e) :
    ¬ b.design.Matching := by
  obtain ⟨f, hf, h⟩ := h.exists_mem
  obtain ⟨p, hp, hmismatch, _⟩ := h.exists_mem
  exact fun hmatching => hmismatch (hmatching _ (Design.factorAt_mem (hb.ordered.lt f hf)) p hp)

theorem FirstMismatch.unique {e e' : DesignError} (h : b.FirstMismatch e)
    (h' : b.FirstMismatch e') : e = e' := by
  unfold FirstMismatch at h h'
  exact h.unique (fun f _ _ hf hf' => hf.unique (fun p _ _ hp hp' => hp.2.trans hp'.2.symm) hf') h'

/-! ## Unknown names -/

/-- The error is that of the first constraint that names something unknown. -/
def FirstUnknown (b : Block) : LookupError → Prop :=
  Outcome.First (fun c => b.design.Lacks c.target) b.constraints

theorem FirstUnknown.unique {e e' : LookupError} (h : b.FirstUnknown e) (h' : b.FirstUnknown e') :
    e = e' := by
  unfold FirstUnknown at h h'
  exact h.unique (fun _ _ _ => Design.Lacks.unique) h'

theorem FirstUnknown.exists_not_knows {e : LookupError} (h : b.FirstUnknown e) :
    ∃ c ∈ b.constraints, ¬ b.design.Knows c.target := by
  obtain ⟨c, hc, hlacks⟩ := h.exists_mem
  exact ⟨c, hc, Design.not_knows_iff.mpr ⟨e, hlacks⟩⟩

theorem error_of_assertConstraints (hb : b.WellFormed) {s : Session} {cs : List Constraint}
    {e : BlockError} (h : b.assertConstraints s cs = .error e) :
    (∃ e', e = .lookup e' ∧ Outcome.First (fun c => b.design.Lacks c.target) cs e') ∨
      ∃ e', e = .literal e' := by
  induction cs generalizing s with
  | nil => cases h
  | cons c cs ih =>
    rcases Outcome.bind_eq_error.mp h with h | ⟨φs, hφs, h⟩
    · rcases error_of_requirements hb h with ⟨e', rfl, hlacks⟩ | ⟨_, hliteral⟩
      · exact .inl ⟨e', rfl, .head hlacks⟩
      · exact .inr hliteral
    have hknown : ∀ e, ¬ b.design.Lacks c.target e := fun e hlacks =>
      Design.not_knows_iff.mpr ⟨e, hlacks⟩ (knows_of_requirements hφs)
    rcases Outcome.bind_eq_error.mp h with h | ⟨s₁, _, h⟩
    · obtain ⟨e', _, rfl⟩ := Outcome.mapError_eq_error.mp h
      exact .inr ⟨e', rfl⟩
    rcases Outcome.bind_eq_error.mp h with h | ⟨_, _, h⟩
    · rcases ih h with ⟨e', rfl, hfirst⟩ | hliteral
      · exact .inl ⟨e', rfl, .tail hknown hfirst⟩
      · exact .inr hliteral
    · cases h

/-! ## Compilation -/

/-- What the error of a compilation says, unless it is about a variable out of range. -/
inductive Failure (b : Block) : BlockError → Prop
  | mismatch {e : DesignError} : b.FirstMismatch e → Failure b (.design e)
  | unknown {e : LookupError} : b.design.Matching → b.FirstUnknown e → Failure b (.lookup e)

theorem Failure.unique (hb : b.WellFormed) {e e' : BlockError} (h : b.Failure e)
    (h' : b.Failure e') : e = e' := by
  cases h with
  | mismatch hfirst =>
    cases h' with
    | mismatch hfirst' => rw [hfirst.unique hfirst']
    | unknown hmatching _ => exact absurd hmatching (hfirst.not_matching hb)
  | unknown hmatching hfirst =>
    cases h' with
    | mismatch hfirst' => exact absurd hmatching (hfirst'.not_matching hb)
    | unknown _ hfirst' => rw [hfirst.unique hfirst']

/-- Something is wrong where a failure is. -/
theorem Failure.exists_wrong (hb : b.WellFormed) {e : BlockError} (h : b.Failure e) :
    ¬ b.design.Matching ∨ ∃ c ∈ b.constraints, ¬ b.design.Knows c.target := by
  cases h with
  | mismatch hfirst => exact .inl (hfirst.not_matching hb)
  | unknown _ hfirst => exact .inr hfirst.exists_not_knows

/-- A stage of the compilation fails with the error, on what the stages before it have made. -/
inductive Stops (b : Block) (options : Options) : BlockError → Prop
  | derivation {e : DesignError} : b.derivationTable = .error e → Stops b options (.design e)
  | layout {table : DerivationTable} {e : LiteralError} : b.derivationTable = .ok table →
      b.layoutClauses options.exactlyOne = .error e → Stops b options (.literal e)
  | definitions {table : DerivationTable} {e : LiteralError} : b.derivationTable = .ok table →
      b.definitions table = .error e → Stops b options (.literal e)
  | crossing {table : DerivationTable} {e : LiteralError} : b.derivationTable = .ok table →
      b.crossingPart options.fullCrossing = .error e → Stops b options (.literal e)
  | assertion {table : DerivationTable} {layout : List Clause} {φs ψs : List Formula}
      {e : LiteralError} : b.derivationTable = .ok table → b.definitions table = .ok φs →
      b.crossingPart options.fullCrossing = .ok ψs →
      ((Session.start ⟨b.gridVariables⟩ options.memoize).addClauses layout).assertAll (φs ++ ψs) =
        .error e →
      Stops b options (.literal e)
  | constraints {table : DerivationTable} {layout : List Clause} {φs ψs : List Formula}
      {s : Session} {e : BlockError} :
      b.derivationTable = .ok table → b.definitions table = .ok φs →
      b.crossingPart options.fullCrossing = .ok ψs →
      ((Session.start ⟨b.gridVariables⟩ options.memoize).addClauses layout).assertAll (φs ++ ψs) =
        .ok s →
      b.assertConstraints s b.constraints = .error e → Stops b options e

theorem stops_of_compile {e : BlockError} (h : b.compile options = .error e) :
    b.Stops options e := by
  rcases Outcome.bind_eq_error.mp h with h | ⟨table, htable, h⟩
  · obtain ⟨_, hfails, rfl⟩ := Outcome.mapError_eq_error.mp h
    exact .derivation hfails
  have htable := Outcome.mapError_eq_ok.mp htable
  rcases Outcome.bind_eq_error.mp h with h | ⟨layout, _, h⟩
  · obtain ⟨_, hfails, rfl⟩ := Outcome.mapError_eq_error.mp h
    exact .layout htable hfails
  rcases Outcome.bind_eq_error.mp h with h | ⟨φs, hφs, h⟩
  · obtain ⟨_, hfails, rfl⟩ := Outcome.mapError_eq_error.mp h
    exact .definitions htable hfails
  have hφs := Outcome.mapError_eq_ok.mp hφs
  rcases Outcome.bind_eq_error.mp h with h | ⟨ψs, hψs, h⟩
  · obtain ⟨_, hfails, rfl⟩ := Outcome.mapError_eq_error.mp h
    exact .crossing htable hfails
  have hψs := Outcome.mapError_eq_ok.mp hψs
  rcases Outcome.bind_eq_error.mp h with h | ⟨s, hs, h⟩
  · obtain ⟨_, hfails, rfl⟩ := Outcome.mapError_eq_error.mp h
    exact .assertion htable hφs hψs hfails
  rcases Outcome.bind_eq_error.mp h with h | ⟨_, _, h⟩
  · exact .constraints htable hφs hψs (Outcome.mapError_eq_ok.mp hs) h
  · cases h

theorem Stops.failure (hb : b.WellFormed) {e : BlockError} (h : b.Stops options e) :
    b.Failure e ∨ ∃ e', e = .literal e' := by
  cases h with
  | derivation h => exact .inl (.mismatch (firstMismatch_of_derivationTable hb h))
  | layout => exact .inr ⟨_, rfl⟩
  | definitions => exact .inr ⟨_, rfl⟩
  | crossing => exact .inr ⟨_, rfl⟩
  | assertion => exact .inr ⟨_, rfl⟩
  | constraints htable _ _ _ h =>
    rcases error_of_assertConstraints hb h with ⟨e', rfl, hfirst⟩ | hliteral
    · exact .inl (.unknown (matching_of_derivationTable hb htable) hfirst)
    · exact .inr hliteral

/-- Where compilation succeeds, nothing is wrong. -/
theorem right_of_compile (hb : b.WellFormed) {c : Compilation} (h : b.compile options = .ok c) :
    b.design.Matching ∧ ∀ k ∈ b.constraints, b.design.Knows k.target := by
  obtain ⟨p, _⟩ := exists_session_of_compile h
  refine ⟨matching_of_derivationTable hb p.table_eq, fun k hk => ?_⟩
  obtain ⟨φs, hφs⟩ := Outcome.exists_ok_of_mapM p.requirements_eq hk
  exact knows_of_requirements hφs

/-- **Compilation fails exactly over mismatched predicates and unknown names.** Unless a variable
leaves the range of literals, the error is that of the first mismatched level, else that of the
first constraint that names something unknown; and predicates are applied to names that fit. -/
theorem compile_error_iff (hb : b.Accepted)
    (hrange : ∀ e, b.compile options ≠ .error (.literal e)) :
    ((∃ e, b.compile options = .error e) ↔
      ¬ b.design.Matching ∨ ∃ c ∈ b.constraints, ¬ b.design.Knows c.target) ∧
    (∀ e, b.compile options = .error e ↔ b.Failure e) ∧
    ∀ table level, (∀ names, b.Applied table level names → b.design.Suits level names) ∧
      ∀ f w l predicate, predicate.arity = level.predicate.arity →
        (∀ names, b.Applied table level names →
          predicate.accepts names = level.predicate.accepts names) →
          b.derive table f w l { level with predicate } = b.derive table f w l level := by
  have hwf := hb.wellFormed
  have hfailure : ∀ e, b.compile options = .error e → b.Failure e := by
    intro e h
    rcases (stops_of_compile h).failure hwf with hfailure | ⟨e', rfl⟩
    · exact hfailure
    · exact absurd h (hrange e')
  have hwrong : (∃ e, b.compile options = .error e) ↔
      ¬ b.design.Matching ∨ ∃ c ∈ b.constraints, ¬ b.design.Knows c.target := by
    constructor
    · rintro ⟨e, h⟩
      exact (hfailure e h).exists_wrong hwf
    · intro hwrong
      cases h : b.compile options with
      | error e => exact ⟨e, rfl⟩
      | ok c =>
        obtain ⟨hmatching, hknown⟩ := right_of_compile hwf h
        rcases hwrong with hnot | ⟨k, hk, hnot⟩
        · exact absurd hmatching hnot
        · exact absurd (hknown k hk) hnot
  refine ⟨hwrong, fun e => ⟨hfailure e, fun he => ?_⟩,
    fun table level => ⟨fun names => Applied.suits hwf, fun f w l predicate => derive_congr⟩⟩
  obtain ⟨e', h⟩ := hwrong.mpr (he.exists_wrong hwf)
  rw [h, (hfailure e' h).unique hwf he]

/-- Of three constraints the second is the first to name something unknown, a level that the colours
lack. -/
theorem compile_error_iff_unknown :
    ∃ b, fullyCrossed .colorRepeats ["color"] [.exclude "color" "red",
        .atMostInARow 1 (.level "color" "blue"), .exclude "shape" "round"] = .ok b ∧
      b.compile {} = .error (.lookup (.unknownLevel "color" "blue")) ∧
      b.Failure (.lookup (.unknownLevel "color" "blue")) := by
  have hrun : (fullyCrossed .colorRepeats ["color"] [.exclude "color" "red",
      .atMostInARow 1 (.level "color" "blue"), .exclude "shape" "round"]).map (fun b =>
        (b.compile {}).map fun _ => ()) =
          .ok (.error (.lookup (.unknownLevel "color" "blue"))) := by
    decide +kernel
  obtain ⟨b, hb, hrun⟩ := Outcome.map_eq_ok.mp hrun
  have herror : b.compile {} = .error (.lookup (.unknownLevel "color" "blue")) :=
    Outcome.map_eq_error.mp hrun
  have hrange : ∀ e, b.compile {} ≠ .error (.literal e) := by
    intro e h
    rw [herror] at h
    cases h
  exact ⟨b, hb, herror, ((compile_error_iff ⟨_, _, _, .inr hb⟩ hrange).2.1 _).mp herror⟩

end Block

end Counterbalance
