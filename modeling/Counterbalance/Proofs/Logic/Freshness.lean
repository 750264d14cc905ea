import Counterbalance.Proofs.Logic.Emission
import Counterbalance.Proofs.Logic.Run

/-! Freshness. The variables of one supply go to the encodings of a session and to its owner. Every
call hands out the next ones, so over a run nothing is handed out twice; every call appends clauses,
and the counters of the session say how many clauses there are and how many variables went to
encodings. What a call writes mentions the variables of its formula, those that it drew, and those
drawn earlier for the same nodes. -/

namespace Counterbalance

/-- The variables of a span, in order. -/
def Span.ids (s : Span) : List Nat := List.range' s.first (s.last + 1 - s.first)

theorem Supply.ids_drawSpan (s : Supply) (count : Nat) :
    (s.drawSpan count).1.ids = List.range' (s.last + 1) count := by
  show List.range' (s.last + 1) (s.last + count + 1 - (s.last + 1)) = _
  rw [Nat.add_right_comm, Nat.add_sub_cancel_left]

namespace Session

variable {memoize : Bool} {past es : List Emission} {s s' : Session} {f : Formula} {z : Literal}

/-! ## Counters -/

/-- The counters of a session are right, where `past` are all emissions so far. -/
structure Accounted (memoize : Bool) (past : List Emission) (s : Session) : Prop where
  memoize_eq : s.memoize = memoize
  clauses_eq : s.stats.clauses = s.cnf.size
  auxiliaries_eq : s.stats.auxiliaries = past.length
  /-- Whatever is remembered has been emitted for the node. -/
  memo : ∀ (f : Formula) (z : Literal), s.memo[f]? = some z → ∃ e ∈ past, e.node = f ∧ e.output = z

namespace Accounted

theorem start (supply : Supply) (memoize : Bool) :
    Accounted memoize [] (Session.start supply memoize) :=
  ⟨rfl, rfl, rfl, fun f z h => by simp [Session.start] at h⟩

theorem emitted (h : Accounted memoize past s) (he : s.Emitted es s') :
    Accounted memoize (past ++ es) s' where
  memoize_eq := he.memoize_eq.trans h.memoize_eq
  clauses_eq := by
    rw [he.clauses_eq, h.clauses_eq, Cnf.size_eq_length, Cnf.size_eq_length, he.cnf_eq,
      List.length_append]
  auxiliaries_eq := by rw [he.auxiliaries_eq, h.auxiliaries_eq, List.length_append]
  memo := by
    intro f z hz
    rcases he.memo f z hz with hz | ⟨e, hmem, hnode⟩
    · obtain ⟨e, hmem, hnode⟩ := h.memo f z hz
      exact ⟨e, List.mem_append_left es hmem, hnode⟩
    · exact ⟨e, List.mem_append_right past hmem, hnode⟩

theorem addClauses (h : Accounted memoize past s) (cs : List Clause) :
    Accounted memoize past (s.addClauses cs) := by
  rw [addClauses_eq]
  exact ⟨h.memoize_eq, by simp [h.clauses_eq, Cnf.size], h.auxiliaries_eq, h.memo⟩

/-- The count of formulas is not one of clauses or variables. -/
theorem counted (h : Accounted memoize past s) :
    Accounted memoize past { s with stats.formulas := s.stats.formulas + 1 } := { h with }

theorem reserve (h : Accounted memoize past s) (count : Nat) :
    Accounted memoize past (s.reserve count) := { h with }

end Accounted

/-! ## Calls -/

/-- The formula that a step encodes. -/
def Step.formula? : Step → Option Formula
  | .encode f => some f
  | .assert f => some f
  | .clause _ => none
  | .reserve _ => none

namespace Record

/-- The literal of the formula that the step encoded: an encoding answers with it, and an assertion
demands it in a unit clause. -/
def HasRoot (r : Record) (z : Literal) : Prop :=
  match r.step with
  | .encode _ => r.root = some z
  | .assert _ => r.added.getLast? = some [z]
  | .clause _ => False
  | .reserve _ => False

/-- The variables that the step hands to the owner of the session. -/
def reserved (r : Record) : List Nat :=
  match r.step with
  | .reserve count => (r.before.supply.drawSpan count).1.ids
  | _ => []

/-- What encodings emit in a step. -/
inductive Writes : Record → List Emission → Prop
  | encode {f : Formula} {z : Literal} {es : List Emission} {s s' : Session} :
      Session.Emits [f] { s with stats.formulas := s.stats.formulas + 1 } [z] es s' →
      Writes ⟨.encode f, some z, s, s'⟩ es
  | assert {f : Formula} {z : Literal} {es : List Emission} {s s' : Session} :
      Session.Emits [f] { s with stats.formulas := s.stats.formulas + 1 } [z] es s' →
      Writes ⟨.assert f, none, s, s'.addClause [z]⟩ es
  | clause {c : Clause} {s : Session} : Writes ⟨.clause c, none, s, s.addClause c⟩ []
  | reserve {count : Nat} {s : Session} : Writes ⟨.reserve count, none, s, s.reserve count⟩ []

end Record

theorem exists_emits_of_encode (h : s.encode f = .ok (z, s')) :
    ∃ es, Session.Emits [f] { s with stats.formulas := s.stats.formulas + 1 } [z] es s' :=
  (encodes_of_encodeNode h).exists_emits

theorem exists_writes_of_perform {step : Step} {root : Option Literal}
    (h : s.perform step = .ok (root, s')) : ∃ es, Record.Writes ⟨step, root, s, s'⟩ es := by
  cases step with
  | encode f =>
    obtain ⟨⟨z, s₁⟩, he, h⟩ := Outcome.bind_eq_ok.mp h
    obtain ⟨rfl, rfl⟩ := Prod.mk.inj (Except.ok.inj h)
    obtain ⟨es, hes⟩ := exists_emits_of_encode he
    exact ⟨es, .encode hes⟩
  | assert f =>
    obtain ⟨s₁, ha, h⟩ := Outcome.bind_eq_ok.mp h
    obtain ⟨rfl, rfl⟩ := Prod.mk.inj (Except.ok.inj h)
    obtain ⟨z, s₁, he, rfl⟩ := assert_eq_ok.mp ha
    obtain ⟨es, hes⟩ := exists_emits_of_encode he
    exact ⟨es, .assert hes⟩
  | clause c =>
    obtain ⟨rfl, rfl⟩ := Prod.mk.inj (Except.ok.inj h)
    exact ⟨[], .clause⟩
  | reserve count =>
    obtain ⟨rfl, rfl⟩ := Prod.mk.inj (Except.ok.inj h)
    exact ⟨[], .reserve⟩

/-- A step of a run with the emissions of its encodings. -/
structure Call extends Record where
  emissions : List Emission
  writes : toRecord.Writes emissions

namespace Call

/-- The variables that the call hands out, to the owner or to encodings. -/
def ids (c : Call) : List Nat := c.reserved ++ c.emissions.map Emission.id

/-- What a call keeps, where `past` are the emissions of the calls before it. -/
structure Keeps (c : Call) (memoize : Bool) (past : List Emission) : Prop where
  appends : c.before.cnf.toList <+: c.after.cnf.toList
  clauses_eq : c.after.stats.clauses = c.after.cnf.size
  auxiliaries_eq : c.after.stats.auxiliaries = (past ++ c.emissions).length
  ids_eq : c.ids = List.range' (c.before.supply.last + 1) c.ids.length
  last_eq : c.after.supply.last = c.before.supply.last + c.ids.length
  /-- To reserve one variable is to draw it from the supply. -/
  single : c.step = .reserve 1 → c.ids = [c.before.supply.draw.1] ∧
    c.after.supply = c.before.supply.draw.2
  /-- Literals come from the formula, from this call or, if nodes are remembered, from the call that
  first encoded the same node. -/
  sources : ∀ f, c.step.formula? = some f → ∀ d ∈ c.added, ∀ l ∈ d,
    (∃ a ∈ f.leaves, l.var = a.var) ∨ (∃ e ∈ c.emissions, l.var = e.id) ∨
      memoize = true ∧ ∃ e ∈ past, e.node ∈ f.nodes ∧ l.var = e.id
  root : memoize = false → ∀ f, c.step.formula? = some f → f.isLiteral = false →
    ∃ e, c.emissions.getLast? = some e ∧ c.HasRoot e.output ∧ e.output.code = c.after.supply.last

end Call

/-! ## Steps -/

/-- The literals that an encoding answers with or writes down, by their variables. -/
theorem Source.var_eq {l : Literal} (h : s.Source [f] es l) (hs : Accounted memoize past s) :
    (∃ a ∈ f.leaves, l.var = a.var) ∨ (∃ e ∈ es, l.var = e.id) ∨
      memoize = true ∧ ∃ e ∈ past, e.node ∈ f.nodes ∧ l.var = e.id := by
  cases h with
  | leaf hf hl => exact .inl ⟨l, List.mem_singleton.mp hf ▸ hl, rfl⟩
  | output he hout => exact .inr (.inl ⟨_, he, congrArg Literal.var hout.symm⟩)
  | recalled hf hnode hm hl =>
    obtain ⟨e, he, rfl, hout⟩ := hs.memo _ l hl
    exact .inr (.inr ⟨hs.memoize_eq.symm.trans hm, e, he, List.mem_singleton.mp hf ▸ hnode,
      congrArg Literal.var hout.symm⟩)

/-- The literals of the emitted clauses, by their variables. -/
theorem Emits.var_eq (h : Session.Emits [f] s [z] es s') (hs : Accounted memoize past s)
    {d : Clause} {l : Literal} (hd : d ∈ es.flatMap Emission.clauses) (hl : l ∈ d) :
    (∃ a ∈ f.leaves, l.var = a.var) ∨ (∃ e ∈ es, l.var = e.id) ∨
      memoize = true ∧ ∃ e ∈ past, e.node ∈ f.nodes ∧ l.var = e.id := by
  obtain ⟨e, he, hd⟩ := List.mem_flatMap.mp hd
  rcases Gate.var_of_mem_clauses hd hl with hvar | ⟨a, ha, hvar⟩
  · exact .inr (.inl ⟨e, he, hvar⟩)
  · rw [hvar]
    exact (h.sources.2 e he a ha).var_eq hs

/-- Where nothing is remembered, the last emission is the one of the formula itself. -/
theorem Emits.getLast?_eq (h : Session.Emits [f] s [z] es s') (hs : s.memoize = false)
    (hf : f.isLiteral = false) : ∃ e, es.getLast? = some e ∧ e.output = z := by
  cases h with
  | literal h => cases hf
  | recalled _ hm _ h => rw [hs] at hm; cases hm
  | node _ _ _ _ h => cases h; exact ⟨_, List.getLast?_concat, rfl⟩

/-- The last emission takes the last variable that was drawn. -/
theorem Emitted.code_getLast (h : s.Emitted es s') {e : Emission} (he : es.getLast? = some e) :
    e.output.code = s'.supply.last := by
  have hmem : e ∈ es := List.mem_of_getLast? he
  have hlast : (es.map Emission.id).getLast? = some e.id := by
    rw [List.getLast?_map, he, Option.map_some]
  rw [h.ids_eq, List.getLast?_range', if_neg (List.length_pos_of_mem hmem).ne', Option.some.injEq]
    at hlast
  have hpositive : 0 < e.output.code := of_decide_eq_true (h.positive e hmem)
  rw [h.last_eq]
  unfold Emission.id Literal.var at hlast
  omega

/-- The last clause that an assertion adds is the one of the root. -/
theorem Emits.hasRoot_assert
    (h : Session.Emits [f] { s with stats.formulas := s.stats.formulas + 1 } [z] es s') :
    Record.HasRoot ⟨.assert f, none, s, s'.addClause [z]⟩ z := by
  have hadded : Record.added ⟨.assert f, none, s, s'.addClause [z]⟩ =
      es.flatMap Emission.clauses ++ [[z]] :=
    Record.added_eq (by rw [← List.append_assoc, ← h.emitted.cnf_eq]; exact Cnf.toList_push _ _)
  exact (congrArg List.getLast? hadded).trans List.getLast?_concat

/-- An encoding, after which clauses that consist of the root may be added, keeps what calls
keep. -/
theorem Call.keeps_of_emits {c : Call} {s₁ : Session} (us : List Clause)
    (he : Session.Emits [f] { c.before with stats.formulas := c.before.stats.formulas + 1 }
      [z] c.emissions s₁)
    (hafter : c.after = s₁.addClauses us) (hus : ∀ d ∈ us, d = [z])
    (hf : c.step.formula? = some f) (hreserved : c.reserved = []) (hroot : c.HasRoot z)
    (hs : Accounted memoize past c.before) :
    c.Keeps memoize past ∧ Accounted memoize (past ++ c.emissions) c.after := by
  have hemitted := he.emitted
  have hafterAccounted : Accounted memoize (past ++ c.emissions) c.after :=
    hafter ▸ (hs.counted.emitted hemitted).addClauses us
  have hcnf :
      c.after.cnf.toList = c.before.cnf.toList ++ (c.emissions.flatMap Emission.clauses ++ us) := by
    rw [hafter, addClauses_eq, ← List.append_assoc, ← hemitted.cnf_eq]
    simp [Cnf.toList]
  have hids : c.ids = c.emissions.map Emission.id := by rw [Call.ids, hreserved, List.nil_append]
  have hsupply : c.after.supply = s₁.supply := by rw [hafter, supply_addClauses]
  refine ⟨⟨⟨_, hcnf.symm⟩, hafterAccounted.clauses_eq, hafterAccounted.auxiliaries_eq, ?_, ?_,
    ?_, ?_, ?_⟩, hafterAccounted⟩
  · rw [hids, hemitted.ids_eq, List.length_range']
  · rw [hids, List.length_map, hsupply, hemitted.last_eq]
  · intro hstep
    rw [hstep] at hf
    cases hf
  · intro g hg d hd l hl
    obtain rfl := Option.some.inj (hf.symm.trans hg)
    rw [Record.added_eq hcnf] at hd
    rcases List.mem_append.mp hd with hd | hd
    · exact he.var_eq hs.counted hd hl
    · rw [hus d hd, List.mem_singleton] at hl
      exact hl ▸ (he.sources.1 z (List.mem_singleton_self z)).var_eq hs.counted
  · intro hm g hg hliteral
    obtain rfl := Option.some.inj (hf.symm.trans hg)
    obtain ⟨e, hlast, rfl⟩ := he.getLast?_eq (hs.memoize_eq.trans hm) hliteral
    exact ⟨e, hlast, hroot, hsupply ▸ hemitted.code_getLast hlast⟩

/-- Calls keep their promises, and the counters stay right. -/
theorem Call.keeps (c : Call) (hs : Accounted memoize past c.before) :
    c.Keeps memoize past ∧ Accounted memoize (past ++ c.emissions) c.after := by
  obtain ⟨r, es, hw⟩ := c
  cases hw with
  | encode he =>
    exact keeps_of_emits [] he rfl (fun _ hd => absurd hd List.not_mem_nil) rfl rfl rfl hs
  | @assert f z es s s' he =>
    exact keeps_of_emits [[z]] he rfl (fun d hd => List.mem_singleton.mp hd) rfl rfl
      he.hasRoot_assert hs
  | @clause d s =>
    have hafter : Accounted memoize (past ++ []) (s.addClause d) := by
      rw [List.append_nil]
      exact hs.addClauses [d]
    exact ⟨⟨⟨[d], (Cnf.toList_push _ _).symm⟩, hafter.clauses_eq, hafter.auxiliaries_eq, rfl, rfl,
      nofun, nofun, nofun⟩, hafter⟩
  | @reserve count s =>
    have hafter : Accounted memoize (past ++ []) (s.reserve count) := by
      rw [List.append_nil]
      exact hs.reserve count
    have hreserved :
        (s.supply.drawSpan count).1.ids ++ [] = List.range' (s.supply.last + 1) count := by
      rw [List.append_nil, Supply.ids_drawSpan]
    refine ⟨⟨List.prefix_rfl, hafter.clauses_eq, hafter.auxiliaries_eq, ?_, ?_, ?_, nofun, nofun⟩,
      hafter⟩
    · rw [Call.ids, Record.reserved, List.map_nil, hreserved, List.length_range']
    · rw [Call.ids, Record.reserved, List.map_nil, hreserved, List.length_range']
      rfl
    · rintro ⟨⟩
      exact ⟨hreserved, rfl⟩

/-! ## Runs -/

/-- What the calls of a run from `s` to `s'` keep, where `past` are the emissions before. -/
structure Fresh (memoize : Bool) (past : List Emission) (s : Session) (calls : List Call)
    (s' : Session) : Prop where
  ids_eq : calls.flatMap Call.ids = List.range' (s.supply.last + 1) (calls.flatMap Call.ids).length
  last_eq : s'.supply.last = s.supply.last + (calls.flatMap Call.ids).length
  keeps : ∀ before c after, calls = before ++ c :: after →
    c.Keeps memoize (past ++ before.flatMap Call.emissions)

theorem Fresh.nil (memoize : Bool) (past : List Emission) (s : Session) :
    Fresh memoize past s [] s :=
  ⟨rfl, rfl, fun _ _ _ h => absurd h (by simp)⟩

theorem Fresh.cons {c : Call} {calls : List Call} (hc : c.Keeps memoize past)
    (h : Fresh memoize (past ++ c.emissions) c.after calls s') :
    Fresh memoize past c.before (c :: calls) s' where
  ids_eq := by
    rw [List.flatMap_cons, List.length_append, ← List.range'_append_1, ← hc.ids_eq,
      Nat.add_right_comm, ← hc.last_eq, ← h.ids_eq]
  last_eq := by rw [h.last_eq, hc.last_eq, List.flatMap_cons, List.length_append, Nat.add_assoc]
  keeps := by
    intro before d after hsplit
    cases before with
    | nil =>
      obtain ⟨rfl, rfl⟩ := List.cons.inj hsplit
      simpa using hc
    | cons b before =>
      obtain ⟨rfl, rfl⟩ := List.cons.inj hsplit
      rw [List.flatMap_cons, ← List.append_assoc]
      exact h.keeps before d after rfl

theorem Fresh.mem_iff {calls : List Call} (h : Fresh memoize past s calls s') {v : Nat} :
    v ∈ calls.flatMap Call.ids ↔ s.supply.last < v ∧ v ≤ s'.supply.last := by
  rw [h.ids_eq, List.mem_range'_1, h.last_eq]
  omega

/-- Every run is made of calls, each of which starts from right counters. -/
theorem exists_fresh_of_run {steps : List Step} {rs : List Record} (h : s.run steps = .ok (rs, s'))
    (hs : Accounted memoize past s) :
    ∃ calls : List Call, calls.map Call.toRecord = rs ∧ Fresh memoize past s calls s' := by
  induction steps generalizing s past rs with
  | nil =>
    obtain ⟨rfl, rfl⟩ := Prod.mk.inj (Except.ok.inj h)
    exact ⟨[], rfl, Fresh.nil memoize past s⟩
  | cons step steps ih =>
    obtain ⟨root, s₁, rs', hp, hr, rfl⟩ := run_cons.mp h
    obtain ⟨es, hw⟩ := exists_writes_of_perform hp
    let c : Call := ⟨⟨step, root, s, s₁⟩, es, hw⟩
    obtain ⟨hkeeps, hs₁⟩ := c.keeps hs
    obtain ⟨calls, rfl, hfresh⟩ := ih hr hs₁
    exact ⟨c :: calls, rfl, Fresh.cons hkeeps hfresh⟩

/-- **Fresh variables and appended clauses.** The variables that a run hands out, to encodings and
to the owner, strictly increase, so no variable is handed out twice; and every call keeps what calls
keep. -/
theorem run_fresh {supply : Supply} {memoize : Bool} {steps : List Step} {rs : List Record}
    {s : Session} (h : (Session.start supply memoize).run steps = .ok (rs, s)) :
    ∃ calls : List Call, calls.map Call.toRecord = rs ∧ (calls.flatMap Call.ids).Pairwise (· < ·) ∧
      (∀ v, v ∈ calls.flatMap Call.ids ↔ supply.last < v ∧ v ≤ s.supply.last) ∧
      ∀ before c after, calls = before ++ c :: after →
        c.Keeps memoize (before.flatMap Call.emissions) := by
  obtain ⟨calls, hrecords, hfresh⟩ := exists_fresh_of_run h (Accounted.start supply memoize)
  refine ⟨calls, hrecords, ?_, fun v => hfresh.mem_iff, hfresh.keeps⟩
  rw [hfresh.ids_eq]
  exact List.pairwise_lt_range'

/-- A run that encodes a conjunction, reserves a variable, asserts a formula over the conjunction,
whose literal is recalled, and adds a clause. -/
theorem run_fresh_recalled :
    ∃ rs s, (Session.start ⟨2⟩ true).run
        [.encode (.and [.literal ⟨1, by decide⟩, .literal ⟨2, by decide⟩]), .reserve 1,
          .assert (.or [.literal ⟨4, by decide⟩,
            .not (.and [.literal ⟨1, by decide⟩, .literal ⟨2, by decide⟩])]),
          .clause [⟨-3, by decide⟩]] = .ok (rs, s) ∧ s.supply.last = 6 ∧
      ∃ calls : List Call, calls.map Call.toRecord = rs ∧
        (calls.flatMap Call.ids).Pairwise (· < ·) ∧
        (∀ v, v ∈ calls.flatMap Call.ids ↔ 2 < v ∧ v ≤ s.supply.last) ∧
        ∀ before c after, calls = before ++ c :: after →
          c.Keeps true (before.flatMap Call.emissions) := by
  have hrun : ∃ rs s, (Session.start ⟨2⟩ true).run
        [.encode (.and [.literal ⟨1, by decide⟩, .literal ⟨2, by decide⟩]), .reserve 1,
          .assert (.or [.literal ⟨4, by decide⟩,
            .not (.and [.literal ⟨1, by decide⟩, .literal ⟨2, by decide⟩])]),
          .clause [⟨-3, by decide⟩]] = .ok (rs, s) ∧ s.supply.last = 6 := by
    simp [run, perform, encode, encodeNode, encodeNodes, recallOr, start, define, fresh,
      Supply.draw, Literal.positive, maxVariable, addClauses_eq, addClause, bind, Except.bind,
      assert, Supply.drawSpan, reserve]
  obtain ⟨rs, s, h, hlast⟩ := hrun
  exact ⟨rs, s, h, hlast, run_fresh h⟩

end Session

end Counterbalance
