import Counterbalance.Proofs.Logic.Forest

/-! What encodings write down. Every variable that an encoding draws is the output of one emission:
a node of the formula, its gate, and the clauses of the gate, which are appended to the clause list.
So variables, clauses and counts are read off the list of emissions. The inputs of a gate are
literals of the formula, outputs of earlier emissions, or literals remembered for nodes of the
formula. -/

namespace Counterbalance

/-! ## Nodes of formulas -/

namespace Formula

mutual
/-- The nodes that are no literals, arguments first. -/
def nodes : Formula → List Formula
  | .literal _ => []
  | .not f => nodes f ++ [.not f]
  | .and fs => nodesAll fs ++ [.and fs]
  | .or fs => nodesAll fs ++ [.or fs]
  | .xor f g => nodes f ++ nodes g ++ [.xor f g]
  | .iff f g => nodes f ++ nodes g ++ [.iff f g]

def nodesAll : List Formula → List Formula
  | [] => []
  | f :: fs => nodes f ++ nodesAll fs
end

theorem nodesAll_eq_flatMap (fs : List Formula) : nodesAll fs = fs.flatMap nodes := by
  induction fs with
  | nil => rfl
  | cons f fs ih => rw [nodesAll, ih, List.flatMap_cons]

theorem Node.nodes {f : Formula} {fs : List Formula} {as : List Literal} {g : Gate}
    (h : Node f fs as g) : f.nodes = fs.flatMap Formula.nodes ++ [f] := by
  cases h <;> simp [Formula.nodes, nodesAll_eq_flatMap]

theorem mem_nodes_self {f : Formula} (h : f.isLiteral = false) : f ∈ f.nodes := by
  cases f <;> simp_all [nodes, isLiteral]

end Formula

/-- The clauses of a gate mention its output. -/
theorem Gate.exists_output_mem (g : Gate) (z : Literal) :
    ∃ c ∈ g.clauses z, ∃ l ∈ c, l.var = z.var := by
  cases g with
  | not a => exact ⟨_, List.mem_cons_self, -z, List.mem_cons_self, Literal.var_neg z⟩
  | and as => exact ⟨_, List.mem_concat_self, z, List.mem_cons_self, rfl⟩
  | or as => exact ⟨_, List.mem_concat_self, -z, List.mem_cons_self, Literal.var_neg z⟩
  | xor a b => exact ⟨_, List.mem_cons_self, -z, List.mem_cons_self, Literal.var_neg z⟩
  | iff a b => exact ⟨_, List.mem_cons_self, -z, List.mem_cons_self, Literal.var_neg z⟩

/-! ## Emissions -/

/-- The clauses that say that `output`, which is a new variable, stands for the node. -/
structure Emission where
  node : Formula
  gate : Gate
  output : Literal

namespace Emission

def id (e : Emission) : Nat := e.output.var

def clauses (e : Emission) : List Clause := e.gate.clauses e.output

end Emission

namespace Session

variable {s s₁ s' : Session} {fs : List Formula} {as : List Literal} {es ds : List Emission}

/-- From the first session, the formulas are encoded as the literals, which takes these emissions
and leads to the second session. -/
inductive Emits : List Formula → Session → List Literal → List Emission → Session → Prop
  | nil {s : Session} : Emits [] s [] [] s
  | literal {l : Literal} {fs : List Formula} {as : List Literal} {es : List Emission}
      {s s' : Session} :
      Emits fs s as es s' → Emits (.literal l :: fs) s (l :: as) es s'
  | recalled {f : Formula} {z : Literal} {fs : List Formula} {as : List Literal}
      {es : List Emission}
      {s s' : Session} : f.isLiteral = false → s.memoize = true → s.memo[f]? = some z →
      Emits fs { s with stats.recalls := s.stats.recalls + 1 } as es s' →
        Emits (f :: fs) s (z :: as) es s'
  | node {f : Formula} {args : List Formula} {bs : List Literal} {g : Gate} {z : Literal}
      {fs : List Formula}
      {as : List Literal} {ds es : List Emission} {s s₁ s₂ s' : Session} :
      f.Node args bs g → (s.memoize = true → s.memo[f]? = none) → Emits args s bs ds s₁ →
      s₁.define f g = .ok (z, s₂) → Emits fs s₂ as es s' →
      Emits (f :: fs) s (z :: as) (ds ++ ⟨f, g, z⟩ :: es) s'

theorem Encodes.exists_emits (h : Encodes fs s as s') : ∃ es, Emits fs s as es s' := by
  induction h with
  | nil => exact ⟨[], .nil⟩
  | literal _ ih =>
    obtain ⟨es, h⟩ := ih
    exact ⟨es, .literal h⟩
  | recalled hf hm hz _ ih =>
    obtain ⟨es, h⟩ := ih
    exact ⟨es, .recalled hf hm hz h⟩
  | node hn hm _ hd _ ihargs ihrest =>
    obtain ⟨ds, hargs⟩ := ihargs
    obtain ⟨es, hrest⟩ := ihrest
    exact ⟨_, .node hn hm hargs hd hrest⟩

/-- The second session comes from the first by these emissions. -/
structure Emitted (s : Session) (es : List Emission) (s' : Session) : Prop where
  memoize_eq : s'.memoize = s.memoize
  cnf_eq : s'.cnf.toList = s.cnf.toList ++ es.flatMap Emission.clauses
  /-- The outputs are the next variables of the supply, in order. -/
  ids_eq : es.map Emission.id = List.range' (s.supply.last + 1) es.length
  positive : ∀ e ∈ es, e.output.isPositive = true
  last_eq : s'.supply.last = s.supply.last + es.length
  last_le : s.supply.last ≤ maxVariable → s'.supply.last ≤ maxVariable
  formulas_eq : s'.stats.formulas = s.stats.formulas
  auxiliaries_eq : s'.stats.auxiliaries = s.stats.auxiliaries + es.length
  clauses_eq : s'.stats.clauses = s.stats.clauses + (es.flatMap Emission.clauses).length
  /-- What is remembered was remembered before or is an output. -/
  memo : ∀ (f : Formula) (z : Literal), s'.memo[f]? = some z →
    s.memo[f]? = some z ∨ ∃ e ∈ es, e.node = f ∧ e.output = z

theorem Emitted.refl (s : Session) : s.Emitted [] s where
  memoize_eq := rfl
  cnf_eq := (List.append_nil _).symm
  ids_eq := rfl
  positive := nofun
  last_eq := rfl
  last_le := id
  formulas_eq := rfl
  auxiliaries_eq := rfl
  clauses_eq := rfl
  memo := fun _ _ => .inl

/-- Recalling a literal emits nothing. -/
theorem emitted_recall (s : Session) :
    s.Emitted [] { s with stats.recalls := s.stats.recalls + 1 } :=
  { Emitted.refl s with }

theorem Emitted.trans (h : s.Emitted ds s₁) (h' : s₁.Emitted es s') : s.Emitted (ds ++ es) s' where
  memoize_eq := h'.memoize_eq.trans h.memoize_eq
  cnf_eq := by rw [h'.cnf_eq, h.cnf_eq, List.flatMap_append, List.append_assoc]
  ids_eq := by
    rw [List.map_append, h.ids_eq, h'.ids_eq, h.last_eq, List.length_append, Nat.add_right_comm,
      List.range'_append_1]
  positive := List.forall_mem_append.mpr ⟨h.positive, h'.positive⟩
  last_eq := by rw [h'.last_eq, h.last_eq, List.length_append, Nat.add_assoc]
  last_le := fun hle => h'.last_le (h.last_le hle)
  formulas_eq := h'.formulas_eq.trans h.formulas_eq
  auxiliaries_eq := by rw [h'.auxiliaries_eq, h.auxiliaries_eq, List.length_append, Nat.add_assoc]
  clauses_eq := by
    rw [h'.clauses_eq, h.clauses_eq, List.flatMap_append, List.length_append, Nat.add_assoc]
  memo := by
    intro f z hz
    rcases h'.memo f z hz with hz | ⟨e, he, hnode⟩
    · rcases h.memo f z hz with hz | ⟨e, he, hnode⟩
      · exact .inl hz
      · exact .inr ⟨e, List.mem_append_left _ he, hnode⟩
    · exact .inr ⟨e, List.mem_append_right _ he, hnode⟩

theorem emitted_of_define {f : Formula} {g : Gate} {z : Literal} (h : s.define f g = .ok (z, s')) :
    s.Emitted [⟨f, g, z⟩] s' := by
  obtain ⟨hcode, hlt, rfl⟩ := define_eq_ok h
  have hpositive : z.isPositive = true := by
    rw [Literal.isPositive, hcode, decide_eq_true_eq]
    omega
  refine ⟨rfl, by simp [Cnf.toList, Emission.clauses], ?_, List.forall_mem_singleton.mpr hpositive,
    rfl, fun _ => hlt, rfl, rfl, by simp [Emission.clauses], fun e y he => ?_⟩
  · rw [List.map_singleton, Emission.id, Literal.var, hcode]
    rfl
  · cases hm : s.memoize with
    | false => exact .inl (by simpa [hm] using he)
    | true =>
      simp only [hm, if_true, Std.HashMap.getElem?_insert] at he
      split at he
      · rename_i hfe
        exact .inr ⟨_, List.mem_singleton_self _, eq_of_beq hfe, Option.some.inj he⟩
      · exact .inl he

/-- What encodings do to a session is what their emissions do. -/
theorem Emits.emitted (h : Emits fs s as es s') : s.Emitted es s' := by
  induction h with
  | nil => exact Emitted.refl _
  | literal _ ih => exact ih
  | recalled _ _ _ _ ih => exact (emitted_recall _).trans ih
  | node _ _ _ hd _ ihargs ihrest => exact ihargs.trans ((emitted_of_define hd).trans ihrest)

/-! ## Where literals come from -/

/-- The literal is one of the formulas, or the output of an emission, or is remembered for a
node. -/
inductive Source (s : Session) (fs : List Formula) (es : List Emission) (l : Literal) : Prop
  | leaf {f : Formula} : f ∈ fs → l ∈ f.leaves → Source s fs es l
  | output {e : Emission} : e ∈ es → e.output = l → Source s fs es l
  | recalled {f e : Formula} : f ∈ fs → e ∈ f.nodes → s.memoize = true → s.memo[e]? = some l →
      Source s fs es l

/-- A source of one formula is one of all. -/
theorem Source.head {f : Formula} {l : Literal} (h : s.Source [f] ds l) :
    s.Source (f :: fs) (ds ++ es) l := by
  cases h with
  | leaf hf hl => exact .leaf (List.mem_cons.mpr (.inl (List.mem_singleton.mp hf))) hl
  | output he hout => exact .output (List.mem_append_left es he) hout
  | recalled hf he hm hl =>
    exact .recalled (List.mem_cons.mpr (.inl (List.mem_singleton.mp hf))) he hm hl

/-- What later encodings recall may be an output of the earlier ones. -/
theorem Source.tail {f : Formula} {l : Literal} (hds : s.Emitted ds s₁) (h : s₁.Source fs es l) :
    s.Source (f :: fs) (ds ++ es) l := by
  cases h with
  | leaf he hl => exact .leaf (List.mem_cons_of_mem f he) hl
  | output he hout => exact .output (List.mem_append_right ds he) hout
  | @recalled e node he hnode hm hl =>
    rcases hds.memo node l hl with hl | ⟨d, hd, _, hout⟩
    · exact .recalled (List.mem_cons_of_mem f he) hnode (hds.memoize_eq.symm.trans hm) hl
    · exact .output (List.mem_append_left es hd) hout

/-- A source of the arguments of a node is one of the node. -/
theorem Source.node {f : Formula} {args : List Formula} {bs : List Literal} {g : Gate} {l : Literal}
    (hn : f.Node args bs g) (h : s.Source args ds l) : s.Source [f] ds l := by
  cases h with
  | leaf he hl =>
    exact .leaf (List.mem_singleton_self f) (hn.leaves ▸ List.mem_flatMap.mpr ⟨_, he, hl⟩)
  | output he hout => exact .output he hout
  | recalled he hnode hm hl =>
    refine .recalled (List.mem_singleton_self f) ?_ hm hl
    exact hn.nodes ▸ List.mem_append_left _ (List.mem_flatMap.mpr ⟨_, he, hnode⟩)

/-- The literals that encodings answer with have a source, and so have the inputs of all gates. -/
theorem Emits.sources (h : Emits fs s as es s') :
    (∀ a ∈ as, s.Source fs es a) ∧ ∀ e ∈ es, ∀ l ∈ e.gate.inputs, s.Source fs es l := by
  induction h with
  | nil => exact ⟨nofun, nofun⟩
  | @literal l fs as es s s' _ ih =>
    have htail : ∀ x, s.Source fs es x → s.Source (.literal l :: fs) es x :=
      fun x hx => hx.tail (Emitted.refl s)
    refine ⟨List.forall_mem_cons.mpr ⟨?_, fun a ha => htail a (ih.1 a ha)⟩, fun e he x hx => ?_⟩
    · exact .leaf List.mem_cons_self (List.mem_singleton_self l)
    · exact htail x (ih.2 e he x hx)
  | @recalled f z fs as es s s' hf hm hz _ ih =>
    have htail : ∀ x, Source { s with stats.recalls := s.stats.recalls + 1 } fs es x →
        s.Source (f :: fs) es x :=
      fun x hx => hx.tail (emitted_recall s)
    refine ⟨List.forall_mem_cons.mpr ⟨?_, fun a ha => htail a (ih.1 a ha)⟩, fun e he x hx => ?_⟩
    · exact .recalled List.mem_cons_self (Formula.mem_nodes_self hf) hm hz
    · exact htail x (ih.2 e he x hx)
  | @node f args bs g z fs as ds es s s₁ s₂ s' hn _ hargs hd _ ihargs ihrest =>
    have hbefore : s.Emitted (ds ++ [⟨f, g, z⟩]) s₂ := hargs.emitted.trans (emitted_of_define hd)
    have hsplit : ds ++ ⟨f, g, z⟩ :: es = (ds ++ [⟨f, g, z⟩]) ++ es := List.append_cons ds _ es
    have hown : ∀ x, s.Source args ds x → s.Source (f :: fs) (ds ++ ⟨f, g, z⟩ :: es) x :=
      fun x hx => (hx.node hn).head
    have htail : ∀ x, s₂.Source fs es x → s.Source (f :: fs) (ds ++ ⟨f, g, z⟩ :: es) x :=
      fun x hx => hsplit ▸ hx.tail hbefore
    refine ⟨List.forall_mem_cons.mpr ⟨?_, fun a ha => htail a (ihrest.1 a ha)⟩, ?_⟩
    · exact .output (List.mem_append_right ds List.mem_cons_self) rfl
    · rw [List.forall_mem_append, List.forall_mem_cons]
      refine ⟨fun e he x hx => hown x (ihargs.2 e he x hx), fun x hx => ?_, ?_⟩
      · exact hown x (ihargs.1 x (hn.inputs ▸ hx))
      · exact fun e he x hx => htail x (ihrest.2 e he x hx)

end Session

end Counterbalance
