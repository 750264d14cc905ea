import Counterbalance.Proofs.Logic.Literal
import Counterbalance.Proofs.Logic.Run

/-! The variables of a session. Whatever a session writes down or remembers has variables that it
was given or that it drew, and it only draws variables in range. So a clause has a literal out of
range only if the session was given one. -/

namespace Counterbalance.Session

variable {V : Nat → Prop} {s s' : Session} {fs : List Formula} {as : List Literal}

/-- The literals that the session has written down, and those that it remembers, have variables in
`V`. -/
structure Over (V : Nat → Prop) (s : Session) : Prop where
  clauses : ∀ c ∈ s.cnf.toList, ∀ l ∈ c, V l.var
  memo : ∀ (f : Formula) (z : Literal), s.memo[f]? = some z → V z.var

theorem Over.start (supply : Supply) (memoize : Bool) : (Session.start supply memoize).Over V where
  clauses := nofun
  memo := fun f z h => by simp [Session.start] at h

theorem Over.addClause {c : Clause} (hs : s.Over V) (hc : ∀ l ∈ c, V l.var) :
    (s.addClause c).Over V where
  clauses := by
    rw [show (s.addClause c).cnf.toList = s.cnf.toList ++ [c] from Cnf.toList_push _ _]
    exact List.forall_mem_append.mpr ⟨hs.clauses, List.forall_mem_singleton.mpr hc⟩
  memo := hs.memo

/-- A definition writes down the variable that it draws, and those of the inputs of its gate. -/
theorem Over.define {f : Formula} {g : Gate} {z : Literal} (hs : s.Over V)
    (hdrawn : ∀ v ≤ maxVariable, V v) (hg : ∀ a ∈ g.inputs, V a.var)
    (h : s.define f g = .ok (z, s')) : s'.Over V ∧ V z.var := by
  obtain ⟨hcode, hlt, rfl⟩ := define_eq_ok h
  have hz : V z.var := hdrawn _ (by rw [Literal.var, hcode]; omega)
  refine ⟨⟨?_, fun e y he => ?_⟩, hz⟩
  · intro c hc l hl
    have hc : c ∈ s.cnf.toList ∨ c ∈ g.clauses z := by simpa [Cnf.toList] using hc
    rcases hc with hc | hc
    · exact hs.clauses c hc l hl
    · rcases Gate.var_of_mem_clauses hc hl with hvar | ⟨a, ha, hvar⟩
      · exact hvar ▸ hz
      · exact hvar ▸ hg a ha
  · cases hm : s.memoize with
    | false => exact hs.memo e y (by simpa [hm] using he)
    | true =>
      simp only [hm, if_true, Std.HashMap.getElem?_insert] at he
      split at he
      · exact Option.some.inj he ▸ hz
      · exact hs.memo e y he

/-- Encodings write down variables of the formulas and variables that they draw, and answer with
such. -/
theorem Encodes.over (h : Encodes fs s as s') (hdrawn : ∀ v ≤ maxVariable, V v)
    (hfs : ∀ f ∈ fs, ∀ l ∈ f.leaves, V l.var) (hs : s.Over V) : s'.Over V ∧ ∀ a ∈ as, V a.var := by
  induction h with
  | nil => exact ⟨hs, nofun⟩
  | literal _ ih =>
    obtain ⟨hl, hfs⟩ := List.forall_mem_cons.mp hfs
    obtain ⟨hs', has⟩ := ih hfs hs
    exact ⟨hs', List.forall_mem_cons.mpr ⟨hl _ (List.mem_singleton_self _), has⟩⟩
  | recalled _ _ hz _ ih =>
    obtain ⟨_, hfs⟩ := List.forall_mem_cons.mp hfs
    obtain ⟨hs', has⟩ := ih hfs ⟨hs.clauses, hs.memo⟩
    exact ⟨hs', List.forall_mem_cons.mpr ⟨hs.memo _ _ hz, has⟩⟩
  | node hn _ _ hd _ ihargs ihrest =>
    obtain ⟨hf, hfs⟩ := List.forall_mem_cons.mp hfs
    obtain ⟨hs₁, hargs⟩ := ihargs
      (fun e he l hl => hf l (hn.leaves ▸ List.mem_flatMap.mpr ⟨e, he, hl⟩)) hs
    obtain ⟨hs₂, hz⟩ := hs₁.define hdrawn (hn.inputs ▸ hargs) hd
    obtain ⟨hs', has⟩ := ihrest hfs hs₂
    exact ⟨hs', List.forall_mem_cons.mpr ⟨hz, has⟩⟩

theorem Over.encode {f : Formula} {z : Literal} (hs : s.Over V) (hdrawn : ∀ v ≤ maxVariable, V v)
    (hf : ∀ l ∈ f.leaves, V l.var) (h : s.encode f = .ok (z, s')) : s'.Over V ∧ V z.var := by
  obtain ⟨hs', hz⟩ := (encodes_of_encodeNode h).over hdrawn (List.forall_mem_singleton.mpr hf)
    ⟨hs.clauses, hs.memo⟩
  exact ⟨hs', hz z (List.mem_singleton_self z)⟩

/-- Every step writes down variables that it was given or draws. -/
theorem Over.perform {step : Step} {root : Option Literal} (hs : s.Over V)
    (hdrawn : ∀ v ≤ maxVariable, V v) (hstep : ∀ l ∈ step.literals, V l.var)
    (h : s.perform step = .ok (root, s')) : s'.Over V := by
  cases step with
  | encode f =>
    obtain ⟨⟨z, s₁⟩, he, h⟩ := Outcome.bind_eq_ok.mp h
    obtain ⟨rfl, rfl⟩ := Prod.mk.inj (Except.ok.inj h)
    exact (hs.encode hdrawn hstep he).1
  | assert f =>
    obtain ⟨s₁, ha, h⟩ := Outcome.bind_eq_ok.mp h
    obtain ⟨rfl, rfl⟩ := Prod.mk.inj (Except.ok.inj h)
    obtain ⟨z, s₂, he, rfl⟩ := assert_eq_ok.mp ha
    obtain ⟨hs₂, hz⟩ := hs.encode hdrawn hstep he
    exact hs₂.addClause (List.forall_mem_singleton.mpr hz)
  | clause c =>
    obtain ⟨rfl, rfl⟩ := Prod.mk.inj (Except.ok.inj h)
    exact hs.addClause hstep
  | reserve count =>
    obtain ⟨rfl, rfl⟩ := Prod.mk.inj (Except.ok.inj h)
    exact ⟨hs.clauses, hs.memo⟩

/-- Every run writes down variables that its steps were given or draw. -/
theorem Over.run {steps : List Step} {rs : List Record} (hs : s.Over V)
    (hdrawn : ∀ v ≤ maxVariable, V v) (hsteps : ∀ step ∈ steps, ∀ l ∈ step.literals, V l.var)
    (h : s.run steps = .ok (rs, s')) : s'.Over V := by
  induction steps generalizing s rs with
  | nil =>
    obtain ⟨rfl, rfl⟩ := Prod.mk.inj (Except.ok.inj h)
    exact hs
  | cons step steps ih =>
    obtain ⟨root, s₁, rs', hp, hr, rfl⟩ := run_cons.mp h
    obtain ⟨hstep, hsteps⟩ := List.forall_mem_cons.mp hsteps
    exact ih (hs.perform hdrawn hstep hp) hsteps hr

/-- **The range of literals.** A literal made from a variable is in range. One made from a number,
or read from its JSON text, is in range exactly if the number is not the least of 32 bits. One that
a session writes down, which was given such literals and may draw any variables, is in range unless
it has the variable of a given literal that was made from the least number. -/
theorem literals_in_range (l : Literal) :
    (l.FromVariable → l.InRange) ∧ (l.FromNumber → (l.InRange ↔ l.code ≠ Text.minInt32)) ∧
    ∀ (supply : Supply) (memoize : Bool) (steps : List Step) (rs : List Record) (s : Session),
      (Session.start supply memoize).run steps = .ok (rs, s) →
      (∀ step ∈ steps, ∀ a ∈ step.literals, a.FromVariable ∨ a.FromNumber) →
      ∀ c ∈ s.cnf.toList, l ∈ c →
        l.InRange ∨
          ∃ step ∈ steps, ∃ a ∈ step.literals, a.code = Text.minInt32 ∧ l.var = a.var := by
  refine ⟨Literal.FromVariable.inRange, Literal.FromNumber.inRange_iff, ?_⟩
  intro supply memoize steps rs s h hmade c hc hl
  rw [Literal.inRange_iff]
  let V : Nat → Prop := fun v =>
    v ≤ maxVariable ∨ ∃ step ∈ steps, ∃ a ∈ step.literals, a.code = Text.minInt32 ∧ v = a.var
  have hsteps : ∀ step ∈ steps, ∀ a ∈ step.literals, V a.var := by
    intro step hstep a ha
    rcases hmade step hstep a ha with hvariable | hnumber
    · exact .inl hvariable.inRange.le_max
    · by_cases hleast : a.code = Text.minInt32
      · exact .inr ⟨step, hstep, a, ha, hleast, rfl⟩
      · exact .inl ((Literal.var_le_iff hnumber.inInt32).mpr hleast)
  exact ((Over.start supply memoize).run (V := V) (fun v hv => .inl hv) hsteps h).clauses c hc l hl

/-- Steps over literals from a variable, a number and a JSON text. -/
def mixedSteps : List Step :=
  [.assert (.or [.literal ⟨5, by decide⟩, .not (.literal ⟨-7, by decide⟩)]), .reserve 2,
    .clause [⟨3, by decide⟩]]

theorem literals_in_range_mixed :
    (⟨5, by decide⟩ : Literal).InRange ∧ (⟨-7, by decide⟩ : Literal).InRange ∧
    ∃ rs s, (Session.start ⟨7⟩ true).run mixedSteps = .ok (rs, s) ∧
      ∀ c ∈ s.cnf.toList, ∀ l ∈ c, l.InRange := by
  have hfive : Literal.FromVariable ⟨5, by decide⟩ := .positive (v := 5) rfl
  have hseven : Literal.FromNumber ⟨-7, by decide⟩ := .code (i := -7) rfl
  have hthree : Literal.FromNumber ⟨3, by decide⟩ :=
    .json (show Json.ofText? " 3 " = some (.number ['3']) from rfl) (by decide +kernel)
  have hrun : ∃ rs s, (Session.start ⟨7⟩ true).run mixedSteps = .ok (rs, s) := by
    simp [mixedSteps, run, perform, encode, encodeNode, encodeNodes, recallOr, start, define, fresh,
      Supply.draw, Literal.positive, maxVariable, addClauses_eq, addClause, bind, Except.bind,
      assert, Supply.drawSpan, reserve]
  obtain ⟨rs, s, h⟩ := hrun
  have hrangeFive := (literals_in_range _).1 hfive
  have hrangeSeven := (literals_in_range _).2.1 hseven
  refine ⟨hrangeFive, hrangeSeven.mpr (by decide), rs, s, h, fun c hc l hl => ?_⟩
  have hmade : ∀ step ∈ mixedSteps, ∀ a ∈ step.literals, a.FromVariable ∨ a.FromNumber := by
    simp [mixedSteps, Step.literals, Formula.leaves, Formula.leavesAll, hfive, hseven, hthree]
  have hnone : ∀ step ∈ mixedSteps, ∀ a ∈ step.literals, a.code ≠ Text.minInt32 := by
    simp [mixedSteps, Step.literals, Formula.leaves, Formula.leavesAll, Text.minInt32]
  rcases (literals_in_range l).2.2 _ _ _ rs s h hmade c hc hl
    with hrange | ⟨step, hstep, a, ha, hleast, _⟩
  · exact hrange
  · exact absurd hleast (hnone step hstep a ha)

/-- The least number of 32 bits makes a literal, also as a JSON text, and its variable is out of
range. -/
theorem least_number_out_of_range :
    ∃ l j, Json.ofText? "-2147483648" = some j ∧ Literal.ofJson? j = some l ∧
      Literal.ofCode Text.minInt32 = .ok l ∧ l.var = maxVariable + 1 ∧ ¬ l.InRange := by
  have htext : Json.ofText? "-2147483648" = some (.number (Text.decimal Text.minInt32).toList) :=
    rfl
  exact ⟨⟨Text.minInt32, by decide⟩, _, htext, by decide +kernel, rfl, rfl,
    fun h => absurd h.le_max (by decide)⟩

end Counterbalance.Session
