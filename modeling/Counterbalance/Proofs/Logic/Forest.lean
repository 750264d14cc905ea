import Counterbalance.Proofs.Logic.Definition
import Counterbalance.Proofs.Outcome

/-! What an encoding does, as a relation. Formulas are encoded from left to right as a forest: a
literal stands for itself, a node that was encoded before is recalled, and any other node is defined
by a gate after its arguments. A fact about encodings is proved by one induction along this
relation, with one case for all connectives. -/

namespace Counterbalance

/-- `f` is a node over the arguments `fs`, and the gate `g` where these have the literals `as`. -/
inductive Formula.Node : Formula → List Formula → List Literal → Gate → Prop
  | not {f : Formula} {a : Literal} : Node (.not f) [f] [a] (.not a)
  | and {fs : List Formula} {as : List Literal} : Node (.and fs) fs as (.and as)
  | or {fs : List Formula} {as : List Literal} : Node (.or fs) fs as (.or as)
  | xor {f g : Formula} {a b : Literal} : Node (.xor f g) [f, g] [a, b] (.xor a b)
  | iff {f g : Formula} {a b : Literal} : Node (.iff f g) [f, g] [a, b] (.iff a b)

namespace Formula

theorem leavesAll_eq_flatMap (fs : List Formula) : leavesAll fs = fs.flatMap leaves := by
  induction fs with
  | nil => rfl
  | cons f fs ih => rw [leavesAll, ih, List.flatMap_cons]

variable {f : Formula} {fs : List Formula} {as : List Literal} {g : Gate}

theorem Node.inputs (h : Node f fs as g) : g.inputs = as := by
  cases h <;> rfl

theorem Node.leaves (h : Node f fs as g) : f.leaves = fs.flatMap Formula.leaves := by
  cases h <;> simp [Formula.leaves, leavesAll_eq_flatMap]

theorem Node.within {n : Nat} (h : Node f fs as g) (hf : f.Within n) : ∀ e ∈ fs, e.Within n := by
  intro e he l hl
  exact hf l (h.leaves ▸ List.mem_flatMap.mpr ⟨e, he, hl⟩)

theorem map_eval_of_forall₂ {ν : Nat → Bool}
    (h : List.Forall₂ (fun e a => Literal.eval ν a = eval ν e) fs as) :
    as.map (Literal.eval ν) = fs.map (eval ν) := by
  induction h with
  | nil => rfl
  | cons ha _ ih => rw [List.map_cons, List.map_cons, ha, ih]

/-- A node has the value of its gate if its arguments have the values of their literals. -/
theorem Node.eval {ν : Nat → Bool} (h : Node f fs as g)
    (hargs : List.Forall₂ (fun e a => Literal.eval ν a = Formula.eval ν e) fs as) :
    g.eval ν = f.eval ν := by
  have hmap := map_eval_of_forall₂ hargs
  cases h with
  | not => simp_all [Gate.eval, Formula.eval]
  | and =>
    rw [Gate.eval, Formula.eval, evalAll_eq_all]
    simpa only [List.all_map, Function.id_comp] using congrArg (List.all · id) hmap
  | or =>
    rw [Gate.eval, Formula.eval, evalAny_eq_any]
    simpa only [List.any_map, Function.id_comp] using congrArg (List.any · id) hmap
  | xor => simp_all [Gate.eval, Formula.eval]
  | iff => simp_all [Gate.eval, Formula.eval]

end Formula

namespace Session

/-! ## Single operations -/

theorem addClauses_eq (s : Session) (cs : List Clause) :
    s.addClauses cs =
      { s with
        cnf := ⟨s.cnf.clauses ++ cs.toArray⟩, stats.clauses := s.stats.clauses + cs.length } := by
  unfold addClauses
  induction cs generalizing s with
  | nil => simp
  | cons c cs ih =>
    rw [List.foldl_cons, ih]
    simp [addClause, Cnf.push, Nat.add_assoc, Nat.add_comm 1]

theorem supply_addClauses (s : Session) (cs : List Clause) :
    (s.addClauses cs).supply = s.supply := by
  rw [addClauses_eq]

/-- Defining a node draws the next variable and emits the clauses of its gate. -/
theorem define_eq_ok {s s' : Session} {f : Formula} {g : Gate} {z : Literal}
    (h : s.define f g = .ok (z, s')) :
    z.code = s.supply.last + 1 ∧ s.supply.last < maxVariable ∧
      s' = { s with
        supply := ⟨s.supply.last + 1⟩
        cnf := ⟨s.cnf.clauses ++ (g.clauses z).toArray⟩
        stats.auxiliaries := s.stats.auxiliaries + 1
        stats.clauses := s.stats.clauses + (g.clauses z).length
        memo := if s.memoize then s.memo.insert f z else s.memo } := by
  unfold define fresh at h
  obtain ⟨⟨z', s₁⟩, hz, h⟩ := Outcome.bind_eq_ok.mp h
  obtain ⟨z'', hpos, hz⟩ := Outcome.bind_eq_ok.mp hz
  unfold Literal.positive at hpos
  split at hpos
  · rename_i hr
    cases hz
    cases hpos
    simp only [addClauses_eq, Except.ok.injEq, Prod.mk.injEq] at h
    obtain ⟨rfl, rfl⟩ := h
    refine ⟨by simp, Nat.lt_of_succ_le hr.2, ?_⟩
    split <;> rfl
  · cases hpos

/-- A node is recalled or encoded. -/
theorem recallOr_eq_ok {s : Session} {f : Formula}
    {encode : Session → Except LiteralError (Literal × Session)} {r : Literal × Session}
    (h : s.recallOr f encode = .ok r) :
    (∃ z, s.memoize = true ∧ s.memo[f]? = some z ∧
      r = (z, { s with stats.recalls := s.stats.recalls + 1 })) ∨
    ((s.memoize = true → s.memo[f]? = none) ∧ encode s = .ok r) := by
  unfold recallOr at h
  cases hm : s.memoize with
  | false =>
    simp only [hm, Bool.false_eq_true, if_false] at h
    exact .inr ⟨(nomatch ·), h⟩
  | true =>
    simp only [hm, if_true] at h
    split at h
    · rename_i z hz
      exact .inl ⟨z, rfl, hz, (Except.ok.inj h).symm⟩
    · rename_i hz
      exact .inr ⟨fun _ => hz, h⟩

/-! ## Forests -/

/-- From the first session, the formulas are encoded as the literals, which leads to the second
one. -/
inductive Encodes : List Formula → Session → List Literal → Session → Prop
  | nil {s : Session} : Encodes [] s [] s
  | literal {l : Literal} {fs : List Formula} {as : List Literal} {s s' : Session} :
      Encodes fs s as s' → Encodes (.literal l :: fs) s (l :: as) s'
  | recalled {f : Formula} {z : Literal} {fs : List Formula} {as : List Literal} {s s' : Session} :
      f.isLiteral = false → s.memoize = true → s.memo[f]? = some z →
      Encodes fs { s with stats.recalls := s.stats.recalls + 1 } as s' →
      Encodes (f :: fs) s (z :: as) s'
  | node {f : Formula} {es : List Formula} {bs : List Literal} {g : Gate} {z : Literal}
      {fs : List Formula} {as : List Literal} {s s₁ s₂ s' : Session} :
      f.Node es bs g → (s.memoize = true → s.memo[f]? = none) → Encodes es s bs s₁ →
      s₁.define f g = .ok (z, s₂) → Encodes fs s₂ as s' → Encodes (f :: fs) s (z :: as) s'

theorem Encodes.cons {f : Formula} {z : Literal} {fs : List Formula} {as : List Literal}
    {s s₁ s' : Session} (hf : Encodes [f] s [z] s₁) (hfs : Encodes fs s₁ as s') :
    Encodes (f :: fs) s (z :: as) s' := by
  cases hf with
  | literal h => cases h; exact .literal hfs
  | recalled hl hm hz h => cases h; exact .recalled hl hm hz hfs
  | node hn hm hes hd h => cases h; exact .node hn hm hes hd hfs

/-- A node is encoded by the encoding of its arguments and its definition. -/
theorem encodes_of_recallOr {s s' : Session} {f : Formula} {z : Literal}
    {encode : Session → Except LiteralError (Literal × Session)} (hf : f.isLiteral = false)
    (h : s.recallOr f encode = .ok (z, s'))
    (hnode : encode s = .ok (z, s') → ∃ es bs g s₁, f.Node es bs g ∧ Encodes es s bs s₁ ∧
      s₁.define f g = .ok (z, s')) : Encodes [f] s [z] s' := by
  obtain ⟨y, hm, hy, hr⟩ | ⟨hm, he⟩ := recallOr_eq_ok h
  · obtain ⟨rfl, rfl⟩ := Prod.mk.inj hr
    exact .recalled hf hm hy .nil
  · obtain ⟨es, bs, g, s₁, hn, hes, hd⟩ := hnode he
    exact .node hn hm hes hd .nil

mutual
theorem encodes_of_encodeNode : ∀ {f : Formula} {s s' : Session} {z : Literal},
    encodeNode f s = .ok (z, s') → Encodes [f] s [z] s'
  | .literal l, s, s', z, h => by
    obtain ⟨rfl, rfl⟩ := Prod.mk.inj (Except.ok.inj h)
    exact .literal .nil
  | .not f, s, s', z, h => by
    refine encodes_of_recallOr rfl h fun he => ?_
    obtain ⟨⟨a, s₁⟩, ha, hd⟩ := Outcome.bind_eq_ok.mp he
    exact ⟨[f], [a], .not a, s₁, .not, encodes_of_encodeNode ha, hd⟩
  | .and fs, s, s', z, h => by
    refine encodes_of_recallOr rfl h fun he => ?_
    obtain ⟨⟨as, s₁⟩, has, hd⟩ := Outcome.bind_eq_ok.mp he
    exact ⟨fs, as, .and as, s₁, .and, encodes_of_encodeNodes has, hd⟩
  | .or fs, s, s', z, h => by
    refine encodes_of_recallOr rfl h fun he => ?_
    obtain ⟨⟨as, s₁⟩, has, hd⟩ := Outcome.bind_eq_ok.mp he
    exact ⟨fs, as, .or as, s₁, .or, encodes_of_encodeNodes has, hd⟩
  | .xor f g, s, s', z, h => by
    refine encodes_of_recallOr rfl h fun he => ?_
    obtain ⟨⟨a, s₁⟩, ha, he⟩ := Outcome.bind_eq_ok.mp he
    obtain ⟨⟨b, s₂⟩, hb, hd⟩ := Outcome.bind_eq_ok.mp he
    exact ⟨[f, g], [a, b], .xor a b, s₂, .xor,
      (encodes_of_encodeNode ha).cons (encodes_of_encodeNode hb), hd⟩
  | .iff f g, s, s', z, h => by
    refine encodes_of_recallOr rfl h fun he => ?_
    obtain ⟨⟨a, s₁⟩, ha, he⟩ := Outcome.bind_eq_ok.mp he
    obtain ⟨⟨b, s₂⟩, hb, hd⟩ := Outcome.bind_eq_ok.mp he
    exact ⟨[f, g], [a, b], .iff a b, s₂, .iff,
      (encodes_of_encodeNode ha).cons (encodes_of_encodeNode hb), hd⟩

theorem encodes_of_encodeNodes : ∀ {fs : List Formula} {s s' : Session} {as : List Literal},
    encodeNodes fs s = .ok (as, s') → Encodes fs s as s'
  | [], s, s', as, h => by
    obtain ⟨rfl, rfl⟩ := Prod.mk.inj (Except.ok.inj h)
    exact .nil
  | f :: fs, s, s', as, h => by
    obtain ⟨⟨a, s₁⟩, ha, h⟩ := Outcome.bind_eq_ok.mp h
    obtain ⟨⟨bs, s₂⟩, hbs, h⟩ := Outcome.bind_eq_ok.mp h
    obtain ⟨rfl, rfl⟩ := Prod.mk.inj (Except.ok.inj h)
    exact (encodes_of_encodeNode ha).cons (encodes_of_encodeNodes hbs)
end

end Session

end Counterbalance
