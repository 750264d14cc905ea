import Counterbalance.Proofs.Logic.Meaning

/-! Runs of a session: any sequence of encodings, assertions, raw clauses and variables reserved by
the owner. Over a whole run the definitions fix the auxiliary variables, every root has the value of
its formula, and beyond the definitions the clause list demands what was asserted and nothing
else. -/

namespace Counterbalance.Session

/-- A step of a run: what was asked and answered, and the session before and after. -/
structure Record where
  step : Step
  root : Option Literal
  before : Session
  after : Session

/-- Performs the steps in order. -/
def run (s : Session) : List Step → Except LiteralError (List Record × Session)
  | [] => .ok ([], s)
  | step :: steps => do
    let (root, s₁) ← s.perform step
    let (rs, s') ← s₁.run steps
    .ok (⟨step, root, s, s₁⟩ :: rs, s')

/-- The literals that a step mentions. -/
def Step.literals : Step → List Literal
  | .encode f => f.leaves
  | .assert f => f.leaves
  | .clause c => c
  | .reserve _ => []

/-- What a step demands of the variables, definitions aside. -/
def Step.Demands (ν : Nat → Bool) : Step → Prop
  | .encode _ => True
  | .assert f => f.eval ν = true
  | .clause c => c.eval ν = true
  | .reserve _ => True

namespace Record

/-- All variables that the step mentions have been handed out before it. -/
def InScope (r : Record) : Prop := ∀ l ∈ r.step.literals, l.var ≤ r.before.supply.last

/-- The clauses that the step added. -/
def added (r : Record) : List Clause := r.after.cnf.toList.drop r.before.cnf.size

/-- The clauses that encoding emitted; an assertion adds the unit clause of its root to them. -/
def definitions (r : Record) : List Clause :=
  match r.step with
  | .encode _ => r.added
  | .assert _ => r.added.dropLast
  | .clause _ => []
  | .reserve _ => []

/-- The variables that encoding drew. -/
def auxiliaries (r : Record) : Set Nat :=
  match r.step with
  | .encode _ => Set.Ioc r.before.supply.last r.after.supply.last
  | .assert _ => Set.Ioc r.before.supply.last r.after.supply.last
  | .clause _ => ∅
  | .reserve _ => ∅

end Record

/-- All definitions of a run. -/
def definitions (rs : List Record) : List Clause := rs.flatMap Record.definitions

/-- All auxiliary variables of a run. -/
def auxiliaries (rs : List Record) : Set Nat := { v | ∃ r ∈ rs, v ∈ r.auxiliaries }

/-! ## Taking runs apart -/

theorem run_cons {s s' : Session} {step : Step} {steps : List Step} {rs : List Record} :
    s.run (step :: steps) = .ok (rs, s') ↔
      ∃ root s₁ rs', s.perform step = .ok (root, s₁) ∧ s₁.run steps = .ok (rs', s') ∧
        rs = ⟨step, root, s, s₁⟩ :: rs' := by
  rw [run, Outcome.bind_eq_ok]
  constructor
  · rintro ⟨⟨root, s₁⟩, hp, h⟩
    obtain ⟨⟨rs', t⟩, hr, h⟩ := Outcome.bind_eq_ok.mp h
    obtain ⟨rfl, rfl⟩ := Prod.mk.inj (Except.ok.inj h)
    exact ⟨root, s₁, rs', hp, hr, rfl⟩
  · rintro ⟨root, s₁, rs', hp, hr, rfl⟩
    exact ⟨(root, s₁), hp, Outcome.bind_eq_ok.mpr ⟨(rs', s'), hr, rfl⟩⟩

theorem run_append {s s₁ s' : Session} {xs ys : List Step} {rs ts : List Record}
    (hx : s.run xs = .ok (rs, s₁)) (hy : s₁.run ys = .ok (ts, s')) :
    s.run (xs ++ ys) = .ok (rs ++ ts, s') := by
  induction xs generalizing s rs with
  | nil =>
    obtain ⟨rfl, rfl⟩ := Prod.mk.inj (Except.ok.inj hx)
    exact hy
  | cons x xs ih =>
    obtain ⟨root, t, rs', hp, hr, rfl⟩ := run_cons.mp hx
    exact run_cons.mpr ⟨root, t, rs' ++ ts, hp, ih hr, rfl⟩

theorem steps_of_run {s s' : Session} {steps : List Step} {rs : List Record}
    (h : s.run steps = .ok (rs, s')) : rs.map Record.step = steps := by
  induction steps generalizing s rs with
  | nil => rw [(Prod.mk.inj (Except.ok.inj h)).1.symm, List.map_nil]
  | cons step steps ih =>
    obtain ⟨root, s₁, rs', _, hr, rfl⟩ := run_cons.mp h
    rw [List.map_cons, ih hr]

/-- An assertion encodes its formula and adds the unit clause of the root. -/
theorem assert_eq_ok {s s' : Session} {f : Formula} :
    s.assert f = .ok s' ↔ ∃ z s₁, s.encode f = .ok (z, s₁) ∧ s' = s₁.addClause [z] := by
  rw [assert, Outcome.bind_eq_ok]
  constructor
  · rintro ⟨⟨z, s₁⟩, he, h⟩
    exact ⟨z, s₁, he, (Except.ok.inj h).symm⟩
  · rintro ⟨z, s₁, he, rfl⟩
    exact ⟨(z, s₁), he, rfl⟩

/-! ## What a run promises -/

/-- What the records of a run from `s` to `s'` promise where the earlier definitions `ds` hold. -/
structure Follows (ds : List Clause) (s : Session) (rs : List Record) (s' : Session) : Prop where
  last_le : s.supply.last ≤ s'.supply.last
  recalls : s'.Recalls (ds ++ definitions rs)
  defines : Defines (auxiliaries rs) (definitions rs)
  drawn : auxiliaries rs ⊆ Set.Ioc s.supply.last s'.supply.last
  within : ∀ c ∈ definitions rs, c.Within s'.supply.last
  emitted : ∃ cs, s'.cnf.toList = s.cnf.toList ++ cs ∧ (∀ c ∈ cs, c.Within s'.supply.last) ∧
    ∀ ν, Holds ν ds → (Holds ν cs ↔ Holds ν (definitions rs) ∧ ∀ r ∈ rs, r.step.Demands ν)
  roots : ∀ r ∈ rs, ∀ f, r.step = .encode f →
    ∃ z, r.root = some z ∧ f.Stands s'.supply.last (ds ++ definitions rs) z

theorem Follows.nil {ds : List Clause} {s : Session} (hs : s.Recalls ds) : Follows ds s [] s where
  last_le := Nat.le_refl _
  recalls := by simpa [definitions] using hs
  defines := by simpa [auxiliaries, definitions] using Defines.nil
  drawn := by simp [auxiliaries]
  within := by simp [definitions]
  emitted := ⟨[], by simp [definitions]⟩
  roots := by simp

theorem definitions_append (rs ts : List Record) :
    definitions (rs ++ ts) = definitions rs ++ definitions ts := List.flatMap_append

theorem auxiliaries_append (rs ts : List Record) :
    auxiliaries (rs ++ ts) = auxiliaries rs ∪ auxiliaries ts := by
  ext v
  simp only [auxiliaries, List.mem_append, Set.mem_ofPred_eq, Set.mem_union, or_and_right,
    exists_or]

/-- Runs compose: the second one may rely on the definitions of the first. -/
theorem Follows.append {ds : List Clause} {s s₁ s' : Session} {rs ts : List Record}
    (h : Follows ds s rs s₁) (h' : Follows (ds ++ definitions rs) s₁ ts s') :
    Follows ds s (rs ++ ts) s' where
  last_le := Nat.le_trans h.last_le h'.last_le
  recalls := by
    rw [definitions_append, ← List.append_assoc]
    exact h'.recalls
  defines := by
    rw [definitions_append, auxiliaries_append]
    exact h.defines.append h'.defines fun c hc l hl hv =>
      Nat.not_lt.mpr (h.within c hc l hl) (h'.drawn hv).1
  drawn := by
    rw [auxiliaries_append, ← Set.Ioc_union_Ioc_eq_Ioc h.last_le h'.last_le]
    exact Set.union_subset_union h.drawn h'.drawn
  within := by
    intro c hc
    rw [definitions_append] at hc
    rcases List.mem_append.mp hc with hc | hc
    · exact (h.within c hc).mono h'.last_le
    · exact h'.within c hc
  emitted := by
    obtain ⟨cs, hcs, hwithin, hholds⟩ := h.emitted
    obtain ⟨cs', hcs', hwithin', hholds'⟩ := h'.emitted
    refine ⟨cs ++ cs', by rw [hcs', hcs, List.append_assoc], ?_, ?_⟩
    · intro c hc
      rcases List.mem_append.mp hc with hc | hc
      · exact (hwithin c hc).mono h'.last_le
      · exact hwithin' c hc
    · intro ν hν
      have hsecond : Holds ν (definitions rs) →
          (Holds ν cs' ↔ Holds ν (definitions ts) ∧ ∀ r ∈ ts, r.step.Demands ν) :=
        fun hd => hholds' ν (holds_append.mpr ⟨hν, hd⟩)
      rw [holds_append, hholds ν hν, definitions_append, holds_append]
      simp only [List.mem_append, or_imp, forall_and]
      tauto
  roots := by
    intro r hr f hf
    rw [definitions_append, ← List.append_assoc]
    rcases List.mem_append.mp hr with hr | hr
    · obtain ⟨z, hz, hstands⟩ := h.roots r hr f hf
      exact ⟨z, hz, hstands.mono h'.last_le⟩
    · exact h'.roots r hr f hf

/-! ## Steps -/

theorem definitions_singleton (r : Record) : definitions [r] = r.definitions := by
  simp [definitions]

theorem auxiliaries_singleton (r : Record) : auxiliaries [r] = r.auxiliaries := by
  simp [auxiliaries]

theorem Record.added_eq {r : Record} {cs : List Clause}
    (h : r.after.cnf.toList = r.before.cnf.toList ++ cs) : r.added = cs := by
  rw [Record.added, h, Cnf.size_eq_length, List.drop_left]

/-- A run of one step, by what the step defines and emits. -/
theorem Follows.single {ds : List Clause} (r : Record) (cs es : List Clause)
    (hdefs : r.definitions = cs) (last_le : r.before.supply.last ≤ r.after.supply.last)
    (recalls : r.after.Recalls (ds ++ cs)) (defines : Defines r.auxiliaries cs)
    (drawn : r.auxiliaries ⊆ Set.Ioc r.before.supply.last r.after.supply.last)
    (emitted : r.after.cnf.toList = r.before.cnf.toList ++ es)
    (within : ∀ c ∈ cs ++ es, c.Within r.after.supply.last)
    (holds : ∀ ν, Holds ν ds → (Holds ν es ↔ Holds ν cs ∧ r.step.Demands ν))
    (roots : ∀ f, r.step = .encode f → ∃ z, r.root = some z ∧
      f.Stands r.after.supply.last (ds ++ cs) z) :
    Follows ds r.before [r] r.after where
  last_le := last_le
  recalls := by rw [definitions_singleton, hdefs]; exact recalls
  defines := by rw [definitions_singleton, auxiliaries_singleton, hdefs]; exact defines
  drawn := by rw [auxiliaries_singleton]; exact drawn
  within := by
    rw [definitions_singleton, hdefs]
    exact fun c hc => within c (List.mem_append_left es hc)
  emitted := by
    refine ⟨es, emitted, fun c hc => within c (List.mem_append_right cs hc), fun ν hν => ?_⟩
    rw [definitions_singleton, hdefs, holds ν hν]
    simp only [List.mem_singleton, forall_eq]
  roots := by
    rw [definitions_singleton, hdefs]
    simpa only [List.mem_singleton, forall_eq] using roots

theorem follows_of_encode {s s' : Session} {f : Formula} {z : Literal} {ds : List Clause}
    (h : s.encode f = .ok (z, s')) (hin : f.Within s.supply.last) (hs : s.Recalls ds) :
    Follows ds s [⟨.encode f, some z, s, s'⟩] s' := by
  obtain ⟨cs, hgrow, hrec, hz⟩ := encode_sound h hin hs
  let r : Record := ⟨.encode f, some z, s, s'⟩
  have hdefs : r.definitions = cs := Record.added_eq (r := r) hgrow.emitted
  refine Follows.single r cs cs hdefs hgrow.last_le hrec hgrow.defines subset_rfl
    hgrow.emitted ?_ ?_ ?_
  · exact fun c hc => hgrow.within c (by simpa using hc)
  · exact fun ν _ => (and_iff_left trivial).symm
  · rintro _ ⟨⟩
    exact ⟨z, rfl, hz⟩

theorem follows_of_assert {s s' : Session} {f : Formula} {ds : List Clause}
    (h : s.assert f = .ok s') (hin : f.Within s.supply.last) (hs : s.Recalls ds) :
    Follows ds s [⟨.assert f, none, s, s'⟩] s' := by
  obtain ⟨z, s₁, he, rfl⟩ := assert_eq_ok.mp h
  obtain ⟨cs, hgrow, hrec, hz⟩ := encode_sound he hin hs
  have hemitted : (s₁.addClause [z]).cnf.toList = s.cnf.toList ++ (cs ++ [[z]]) := by
    rw [← List.append_assoc, ← hgrow.emitted]
    exact Cnf.toList_push _ _
  let r : Record := ⟨.assert f, none, s, s₁.addClause [z]⟩
  have hdefs : r.definitions = cs := by
    rw [Record.definitions, Record.added_eq (r := r) hemitted, List.dropLast_concat]
  refine Follows.single r cs _ hdefs hgrow.last_le hrec hgrow.defines subset_rfl hemitted
    ?_ ?_ nofun
  · intro c hc
    have hc : c ∈ cs ∨ c = [z] := by simpa [or_assoc] using hc
    rcases hc with hc | rfl
    · exact hgrow.within c hc
    · intro l hl
      obtain rfl := List.mem_singleton.mp hl
      exact hz.var_le
  · intro ν hν
    have hroot : Holds ν cs → (Holds ν [[z]] ↔ f.eval ν = true) := fun hcs => by
      rw [← hz.eval_eq ν (holds_append.mpr ⟨hν, hcs⟩)]
      simp [Holds, Clause.eval]
    rw [holds_append]
    exact and_congr_right hroot

theorem follows_of_clause {s : Session} {c : Clause} {ds : List Clause}
    (hin : c.Within s.supply.last) (hs : s.Recalls ds) :
    Follows ds s [⟨.clause c, none, s, s.addClause c⟩] (s.addClause c) := by
  let r : Record := ⟨.clause c, none, s, s.addClause c⟩
  refine Follows.single r [] [c] rfl (Nat.le_refl _) ?_ Defines.nil (Set.empty_subset _)
    (Cnf.toList_push _ _) ?_ ?_ nofun
  · rw [List.append_nil]; exact hs
  · intro e he
    obtain rfl := List.mem_singleton.mp he
    exact hin
  · intro ν _
    show Holds ν [c] ↔ Holds ν [] ∧ c.eval ν = true
    simp [Holds]

theorem follows_of_reserve {s : Session} {count : Nat} {ds : List Clause} (hs : s.Recalls ds) :
    Follows ds s [⟨.reserve count, none, s, s.reserve count⟩] (s.reserve count) := by
  have hle : s.supply.last ≤ (s.reserve count).supply.last := Nat.le_add_right _ _
  let r : Record := ⟨.reserve count, none, s, s.reserve count⟩
  refine Follows.single r [] [] rfl hle ?_ Defines.nil (Set.empty_subset _)
    (List.append_nil _).symm (by simp) ?_ nofun
  · exact fun f z hz => (hs f z hz).mono hle
  · intro ν _
    show Holds ν [] ↔ Holds ν [] ∧ True
    rw [and_true]

/-- Every step keeps what runs promise. -/
theorem follows_of_perform {s s' : Session} {step : Step} {root : Option Literal} {ds : List Clause}
    (h : s.perform step = .ok (root, s')) (hin : Record.InScope ⟨step, root, s, s'⟩)
    (hs : s.Recalls ds) : Follows ds s [⟨step, root, s, s'⟩] s' := by
  cases step with
  | encode f =>
    obtain ⟨⟨z, s₁⟩, he, h⟩ := Outcome.bind_eq_ok.mp h
    obtain ⟨rfl, rfl⟩ := Prod.mk.inj (Except.ok.inj h)
    exact follows_of_encode he hin hs
  | assert f =>
    obtain ⟨s₁, ha, h⟩ := Outcome.bind_eq_ok.mp h
    obtain ⟨rfl, rfl⟩ := Prod.mk.inj (Except.ok.inj h)
    exact follows_of_assert ha hin hs
  | clause c =>
    obtain ⟨rfl, rfl⟩ := Prod.mk.inj (Except.ok.inj h)
    exact follows_of_clause hin hs
  | reserve count =>
    obtain ⟨rfl, rfl⟩ := Prod.mk.inj (Except.ok.inj h)
    exact follows_of_reserve hs

/-- Every run keeps what runs promise. -/
theorem follows_of_run {s s' : Session} {steps : List Step} {rs : List Record} {ds : List Clause}
    (h : s.run steps = .ok (rs, s')) (hin : ∀ r ∈ rs, r.InScope) (hs : s.Recalls ds) :
    Follows ds s rs s' := by
  induction steps generalizing s rs ds with
  | nil =>
    obtain ⟨rfl, rfl⟩ := Prod.mk.inj (Except.ok.inj h)
    exact Follows.nil hs
  | cons step steps ih =>
    obtain ⟨root, s₁, rs', hp, hr, rfl⟩ := run_cons.mp h
    have hfirst := follows_of_perform hp (hin _ List.mem_cons_self) hs
    exact hfirst.append (ih hr (fun r hr => hin r (List.mem_cons_of_mem _ hr)) hfirst.recalls)

/-- The clauses that a run has emitted from the start on hold exactly if its definitions do and its
demands are met. -/
theorem Follows.isSatisfiedBy_iff {supply : Supply} {memoize : Bool} {rs : List Record}
    {s : Session} (h : Follows [] (Session.start supply memoize) rs s) {entries : Array Int}
    {μ : Nat → Bool} (hentries : ∀ v, v ≠ 0 → v ≤ s.supply.last → valuation entries v = μ v) :
    s.cnf.isSatisfiedBy entries = true ↔ Holds μ (definitions rs) ∧ ∀ r ∈ rs, r.step.Demands μ := by
  obtain ⟨cs, hcs, hwithin, hholds⟩ := h.emitted
  rw [show (Session.start supply memoize).cnf.toList = [] from rfl, List.nil_append] at hcs
  have hsame : Holds (valuation entries) cs ↔ Holds μ cs :=
    holds_congr fun c hc l hl => hentries _ l.var_ne_zero (hwithin c hc l hl)
  rw [Cnf.isSatisfiedBy, Cnf.eval_eq_all, hcs, List.all_eq_true, ← Holds, hsame,
    hholds μ (holds_nil μ)]

/-- The valuation `μ` completes `ν` along a run. -/
structure Completes (rs : List Record) (s : Session) (ν μ : Nat → Bool) : Prop where
  agrees : Set.EqOn μ ν (auxiliaries rs)ᶜ
  holds : Holds μ (definitions rs)
  /-- There is no other choice for the auxiliary variables. -/
  unique : ∀ κ : Nat → Bool, Set.EqOn κ ν (auxiliaries rs)ᶜ → Holds κ (definitions rs) → κ = μ
  /-- The root that an encoding answered with has the value of its formula. -/
  roots : ∀ r ∈ rs, ∀ f, r.step = .encode f → ∃ z, r.root = some z ∧ z.eval μ = f.eval μ
  /-- The clause list demands what was asserted or added as a raw clause, and no more. -/
  satisfied : ∀ entries : Array Int,
    (∀ v, v ≠ 0 → v ≤ s.supply.last → valuation entries v = μ v) →
      (s.cnf.isSatisfiedBy entries = true ↔ ∀ r ∈ rs, r.step.Demands μ)

/-- **Runs are definitional.** However the variables are chosen that encoding did not draw, there is
exactly one choice for the drawn ones under which all definitions hold; the roots then have the
values of their formulas, and the clause list holds iff all asserted formulas and raw clauses do. -/
theorem run_completes {supply : Supply} {memoize : Bool} {steps : List Step} {rs : List Record}
    {s : Session} (h : (Session.start supply memoize).run steps = .ok (rs, s))
    (hin : ∀ r ∈ rs, r.InScope) (ν : Nat → Bool) : ∃ μ, Completes rs s ν μ := by
  have hfollows := follows_of_run h hin (Recalls.start supply memoize [])
  obtain ⟨μ, ⟨hμ, hdefs⟩, huniq⟩ := hfollows.defines ν
  refine ⟨μ, hμ, hdefs, fun κ hκ hd => huniq κ ⟨hκ, hd⟩, ?_, ?_⟩
  · intro r hr f hf
    obtain ⟨z, hz, hstands⟩ := hfollows.roots r hr f hf
    exact ⟨z, hz, hstands.eval_eq μ (by simpa using hdefs)⟩
  · intro entries hentries
    rw [hfollows.isSatisfiedBy_iff hentries, and_iff_right hdefs]

/-- A run that encodes a conjunction, asserts a formula over its root and, by a recalled literal,
over the conjunction itself, and adds a clause over a variable reserved in between. -/
theorem run_completes_recalled :
    ∃ rs s, (Session.start ⟨2⟩ true).run
        [.encode (.and [.literal ⟨1, by decide⟩, .literal ⟨2, by decide⟩]), .reserve 1,
          .assert (.or [.literal ⟨3, by decide⟩,
            .not (.and [.literal ⟨1, by decide⟩, .literal ⟨2, by decide⟩])]),
          .clause [⟨-4, by decide⟩]] = .ok (rs, s) ∧
      (∀ r ∈ rs, r.InScope) ∧ ∀ ν, ∃ μ, Completes rs s ν μ := by
  have hrun : ∃ rs s, (Session.start ⟨2⟩ true).run
        [.encode (.and [.literal ⟨1, by decide⟩, .literal ⟨2, by decide⟩]), .reserve 1,
          .assert (.or [.literal ⟨3, by decide⟩,
            .not (.and [.literal ⟨1, by decide⟩, .literal ⟨2, by decide⟩])]),
          .clause [⟨-4, by decide⟩]] = .ok (rs, s) ∧ ∀ r ∈ rs, r.InScope := by
    simp [run, perform, encode, encodeNode, encodeNodes, recallOr, start, define, fresh,
      Supply.draw, Literal.positive, maxVariable, addClauses_eq, addClause, bind, Except.bind,
      assert, Supply.drawSpan, reserve, Record.InScope, Step.literals, Formula.leaves,
      Formula.leavesAll, Literal.var]
  obtain ⟨rs, s, h, hin⟩ := hrun
  exact ⟨rs, s, h, hin, run_completes h hin⟩

end Counterbalance.Session
