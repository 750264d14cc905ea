import Counterbalance.Proofs.Logic.Capacity
import Counterbalance.Proofs.Logic.Freshness

/-! The size of encodings. An emission draws one variable and writes the clauses of one node, whose
number only depends on the connective and on how many arguments there are. Where nothing is
remembered, the emitted nodes are those of the formulas, each as often as it occurs. -/

namespace Counterbalance

namespace Formula

/-- The number of clauses that define the node. -/
def definitionSize : Formula → Nat
  | .literal _ => 0
  | .not _ => 2
  | .and fs => fs.length + 1
  | .or fs => fs.length + 1
  | .xor _ _ => 4
  | .iff _ _ => 4

mutual
theorem length_nodes : ∀ f : Formula, f.nodes.length = f.connectives
  | .literal _ => rfl
  | .not f => by rw [nodes, List.length_append, length_nodes f, connectives, Nat.add_comm]; rfl
  | .and fs => by rw [nodes, List.length_append, length_nodesAll fs, connectives, Nat.add_comm]; rfl
  | .or fs => by rw [nodes, List.length_append, length_nodesAll fs, connectives, Nat.add_comm]; rfl
  | .xor f g => by
      simp only [nodes, List.length_append, length_nodes, connectives, List.length_singleton]; omega
  | .iff f g => by
      simp only [nodes, List.length_append, length_nodes, connectives, List.length_singleton]; omega

theorem length_nodesAll : ∀ fs : List Formula, (nodesAll fs).length = connectivesAll fs
  | [] => rfl
  | f :: fs => by
      rw [nodesAll, List.length_append, length_nodes f, length_nodesAll fs, connectivesAll]
end

theorem Node.length_clauses {f : Formula} {fs : List Formula} {as : List Literal} {g : Gate}
    (h : Node f fs as g) (hlength : as.length = fs.length) (z : Literal) :
    (g.clauses z).length = f.definitionSize := by
  cases h <;> simp [Gate.clauses, definitionSize, hlength]

end Formula

namespace Session

variable {s s₁ s' : Session} {fs : List Formula} {as : List Literal} {es : List Emission}
  {f : Formula} {z : Literal}

/-! ## Emissions -/

theorem Emits.length_eq (h : Emits fs s as es s') : as.length = fs.length := by
  induction h with
  | nil => rfl
  | literal _ ih => exact congrArg Nat.succ ih
  | recalled _ _ _ _ ih => exact congrArg Nat.succ ih
  | node _ _ _ _ _ _ ih => exact congrArg Nat.succ ih

theorem Emits.length_clauses (h : Emits fs s as es s') :
    ∀ e ∈ es, e.clauses.length = e.node.definitionSize := by
  induction h with
  | nil => exact nofun
  | literal _ ih => exact ih
  | recalled _ _ _ _ ih => exact ih
  | node hn _ hargs _ _ ihargs ihrest =>
    exact List.forall_mem_append.mpr
      ⟨ihargs, List.forall_mem_cons.mpr ⟨hn.length_clauses hargs.length_eq _, ihrest⟩⟩

/-- The clauses of emissions are counted by their nodes. -/
theorem Emits.length_flatMap_clauses (h : Emits fs s as es s') :
    (es.flatMap Emission.clauses).length =
      ((es.map Emission.node).map Formula.definitionSize).sum := by
  rw [List.length_flatMap, List.map_map]
  exact congrArg List.sum (List.map_congr_left h.length_clauses)

/-- Where nothing is remembered, every node of the formulas is emitted, and nothing is recalled. -/
theorem Emits.nodes_eq (h : Emits fs s as es s') (hm : s.memoize = false) :
    es.map Emission.node = fs.flatMap Formula.nodes ∧ s'.stats.recalls = s.stats.recalls := by
  induction h with
  | nil => exact ⟨rfl, rfl⟩
  | literal _ ih => exact ih hm
  | recalled _ hmem _ _ _ => exact absurd (hm.symm.trans hmem) Bool.false_ne_true
  | @node f args bs g z fs as ds es s s₁ s₂ s' hn _ hargs hd _ ihargs ihrest =>
    obtain ⟨hds, hrecalls⟩ := ihargs hm
    have hm₂ : s₂.memoize = false :=
      (hargs.emitted.trans (emitted_of_define hd)).memoize_eq.trans hm
    obtain ⟨hes, hrecalls'⟩ := ihrest hm₂
    obtain ⟨_, _, rfl⟩ := define_eq_ok hd
    refine ⟨?_, hrecalls'.trans hrecalls⟩
    rw [List.map_append, List.map_cons, hds, hes, List.flatMap_cons, hn.nodes, List.append_assoc,
      List.singleton_append]

/-! ## Calls -/

/-- The number of clauses that a step adds itself, beside the definitions of nodes. -/
def Step.ownClauses : Step → Nat
  | .encode _ => 0
  | .assert _ => 1
  | .clause _ => 1
  | .reserve _ => 0

/-- The second session comes from the first by defining every node of the formula anew and adding
`own` more clauses. -/
structure DefinesAll (s : Session) (f : Formula) (own : Nat) (s' : Session) : Prop where
  auxiliaries_eq : s'.stats.auxiliaries = s.stats.auxiliaries + f.connectives
  last_eq : s'.supply.last = s.supply.last + f.connectives
  size_eq : s'.cnf.size = s.cnf.size + (f.nodes.map Formula.definitionSize).sum + own
  recalls_eq : s'.stats.recalls = s.stats.recalls

theorem Emitted.size_eq (h : s.Emitted es s') :
    s'.cnf.size = s.cnf.size + (es.flatMap Emission.clauses).length := by
  rw [Cnf.size_eq_length, h.cnf_eq, List.length_append, Cnf.size_eq_length]

theorem Emits.definesAll (h : Emits [f] s [z] es s') (hm : s.memoize = false) :
    s.DefinesAll f 0 s' := by
  obtain ⟨hnodes, hrecalls⟩ := h.nodes_eq hm
  rw [List.flatMap_singleton] at hnodes
  have hlength : es.length = f.connectives := by
    rw [← List.length_map Emission.node, hnodes, Formula.length_nodes]
  refine ⟨?_, ?_, ?_, hrecalls⟩
  · rw [h.emitted.auxiliaries_eq, hlength]
  · rw [h.emitted.last_eq, hlength]
  · rw [h.emitted.size_eq, h.length_flatMap_clauses, hnodes, Nat.add_zero]

theorem DefinesAll.addClause (h : s.DefinesAll f 0 s') (c : Clause) :
    s.DefinesAll f 1 (s'.addClause c) where
  auxiliaries_eq := h.auxiliaries_eq
  last_eq := h.last_eq
  size_eq := (Array.size_push c).trans (congrArg Nat.succ h.size_eq)
  recalls_eq := h.recalls_eq

/-- Where nothing is remembered, a step that encodes a formula defines all its nodes. -/
theorem Record.Writes.definesAll {r : Record} (h : r.Writes es) (hm : r.before.memoize = false)
    (hf : r.step.formula? = some f) : r.before.DefinesAll f r.step.ownClauses r.after := by
  cases h with
  | encode he =>
    obtain rfl := Option.some.inj hf
    exact { he.definesAll hm with }
  | assert he =>
    obtain rfl := Option.some.inj hf
    exact { (DefinesAll.addClause (he.definesAll hm) _) with }
  | clause => cases hf
  | reserve => cases hf

/-- A step does not change whether nodes are remembered. -/
theorem Record.Writes.memoize_eq {r : Record} (h : r.Writes es) :
    r.after.memoize = r.before.memoize := by
  cases h with
  | encode he => exact he.emitted.memoize_eq
  | assert he => exact he.emitted.memoize_eq
  | clause => rfl
  | reserve => rfl

/-- **Sizes without sharing.** Every step of a run that remembers nothing defines all nodes of its
formula. -/
theorem definesAll_of_run {steps : List Step} {rs : List Record} (h : s.run steps = .ok (rs, s'))
    (hm : s.memoize = false) :
    ∀ r ∈ rs, ∀ f, r.step.formula? = some f → r.before.DefinesAll f r.step.ownClauses r.after := by
  induction steps generalizing s rs with
  | nil =>
    obtain ⟨rfl, rfl⟩ := Prod.mk.inj (Except.ok.inj h)
    exact nofun
  | cons step steps ih =>
    obtain ⟨root, s₁, rs', hp, hr, rfl⟩ := run_cons.mp h
    obtain ⟨es, hw⟩ := exists_writes_of_perform hp
    exact List.forall_mem_cons.mpr ⟨fun f hf => hw.definesAll hm hf, ih hr (hw.memoize_eq.trans hm)⟩

/-- A step that encodes nothing draws no auxiliary variable and only adds clauses of its own. -/
theorem Record.Writes.eq_of_none {r : Record} (h : r.Writes es) (hf : r.step.formula? = none) :
    r.after.stats.auxiliaries = r.before.stats.auxiliaries ∧
      r.after.cnf.size = r.before.cnf.size + r.step.ownClauses := by
  cases h with
  | encode he => cases hf
  | assert he => cases hf
  | @clause c s => exact ⟨rfl, Array.size_push c⟩
  | reserve => exact ⟨rfl, rfl⟩

/-- The size of a run that remembers nothing: each node counts as often as it occurs. -/
theorem totals_of_run {steps : List Step} {rs : List Record} (h : s.run steps = .ok (rs, s'))
    (hm : s.memoize = false) :
    s'.stats.auxiliaries =
      s.stats.auxiliaries + ((steps.filterMap Step.formula?).flatMap Formula.nodes).length ∧
    s'.cnf.size = s.cnf.size +
      (((steps.filterMap Step.formula?).flatMap Formula.nodes).map Formula.definitionSize).sum +
      (steps.map Step.ownClauses).sum := by
  induction steps generalizing s rs with
  | nil =>
    obtain ⟨rfl, rfl⟩ := Prod.mk.inj (Except.ok.inj h)
    exact ⟨rfl, rfl⟩
  | cons step steps ih =>
    obtain ⟨root, s₁, rs', hp, hr, rfl⟩ := run_cons.mp h
    obtain ⟨es, hw⟩ := exists_writes_of_perform hp
    obtain ⟨hauxiliaries, hsize⟩ := ih hr (hw.memoize_eq.trans hm)
    rw [hauxiliaries, hsize, List.map_cons, List.sum_cons]
    cases hf : step.formula? with
    | none =>
      obtain ⟨hauxiliaries₁, hsize₁⟩ : s₁.stats.auxiliaries = s.stats.auxiliaries ∧
        s₁.cnf.size = s.cnf.size + step.ownClauses := hw.eq_of_none hf
      rw [List.filterMap_cons_none hf]
      omega
    | some f =>
      obtain ⟨hauxiliaries₁, _, hsize₁, _⟩ : s.DefinesAll f step.ownClauses s₁ :=
        hw.definesAll hm hf
      rw [List.filterMap_cons_some hf, List.flatMap_cons, List.length_append, List.map_append,
        List.sum_append, Formula.length_nodes]
      omega

end Session

end Counterbalance
