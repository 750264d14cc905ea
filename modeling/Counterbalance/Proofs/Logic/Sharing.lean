import Mathlib.Algebra.BigOperators.Group.Finset.Basic
import Mathlib.Algebra.Order.BigOperators.Group.List
import Mathlib.Algebra.Order.Group.Nat
import Counterbalance.Proofs.Logic.EncodingSize

/-! Sharing of nodes. A session that remembers nodes defines each node once, however often it occurs
in the formulas. The invariant is that the remembered nodes are those defined so far, and that the
nodes of their arguments are among them; no node occurs in its own arguments, so a node is still new
when they are defined. -/

namespace Counterbalance

namespace Formula

/-- The different nodes of the formulas. -/
def distinctNodes (fs : List Formula) : Finset Formula := (fs.flatMap nodes).toFinset

/-- The different nodes take no more clauses than all of them. -/
theorem sum_distinctNodes_le (fs : List Formula) :
    ∑ f ∈ distinctNodes fs, f.definitionSize ≤ ((fs.flatMap nodes).map definitionSize).sum := by
  have hdedup : distinctNodes fs = (fs.flatMap nodes).dedup.toFinset := by
    ext e
    rw [distinctNodes, List.mem_toFinset, List.mem_toFinset, List.mem_dedup]
  rw [hdedup, List.sum_toFinset _ (List.nodup_dedup _)]
  exact ((List.dedup_sublist _).map definitionSize).sum_le_sum fun _ _ => Nat.zero_le _

mutual
theorem connectives_le_of_mem_nodes : ∀ {f e : Formula}, e ∈ f.nodes → e.connectives ≤ f.connectives
  | .literal _, _, h => absurd h List.not_mem_nil
  | .not f, e, h => by
    rcases List.mem_append.mp h with h | h
    · exact Nat.le_trans (connectives_le_of_mem_nodes h) (Nat.le_add_left _ _)
    · rw [List.mem_singleton.mp h]
  | .and fs, e, h => by
    rcases List.mem_append.mp h with h | h
    · exact Nat.le_trans (connectives_le_of_mem_nodesAll h) (Nat.le_add_left _ _)
    · rw [List.mem_singleton.mp h]
  | .or fs, e, h => by
    rcases List.mem_append.mp h with h | h
    · exact Nat.le_trans (connectives_le_of_mem_nodesAll h) (Nat.le_add_left _ _)
    · rw [List.mem_singleton.mp h]
  | .xor f g, e, h => by
    simp only [nodes, List.mem_append, List.mem_singleton] at h
    rw [connectives]
    rcases h with (h | h) | rfl
    · have := connectives_le_of_mem_nodes h
      omega
    · have := connectives_le_of_mem_nodes h
      omega
    · rw [connectives]
  | .iff f g, e, h => by
    simp only [nodes, List.mem_append, List.mem_singleton] at h
    rw [connectives]
    rcases h with (h | h) | rfl
    · have := connectives_le_of_mem_nodes h
      omega
    · have := connectives_le_of_mem_nodes h
      omega
    · rw [connectives]

theorem connectives_le_of_mem_nodesAll : ∀ {fs : List Formula} {e : Formula}, e ∈ nodesAll fs →
    e.connectives ≤ connectivesAll fs
  | [], _, h => absurd h List.not_mem_nil
  | f :: fs, e, h => by
    rw [nodesAll, List.mem_append] at h
    rw [connectivesAll]
    rcases h with h | h
    · exact Nat.le_trans (connectives_le_of_mem_nodes h) (Nat.le_add_right _ _)
    · exact Nat.le_trans (connectives_le_of_mem_nodesAll h) (Nat.le_add_left _ _)
end

theorem Node.connectives_eq {f : Formula} {fs : List Formula} {as : List Literal} {g : Gate}
    (h : Node f fs as g) : f.connectives = 1 + connectivesAll fs := by
  cases h <;> simp [connectives, connectivesAll, Nat.add_assoc]

/-- No node occurs in its own arguments. -/
theorem Node.notMem_nodes {f : Formula} {fs : List Formula} {as : List Literal} {g : Gate}
    (h : Node f fs as g) : f ∉ fs.flatMap Formula.nodes := by
  intro hmem
  have hle := connectives_le_of_mem_nodesAll (nodesAll_eq_flatMap fs ▸ hmem)
  have heq := h.connectives_eq
  omega

end Formula

namespace Session

variable {s s₁ s' : Session} {fs gs : List Formula} {as : List Literal} {es : List Emission}
  {f : Formula}
  {z : Literal} {ns ns₁ ns' : List Formula} {own : Nat}

/-! ## What is remembered -/

/-- The nodes `ns` have been defined, each once, and are remembered; `own` clauses are no
definitions. -/
structure Shares (s : Session) (ns : List Formula) (own : Nat) : Prop where
  memoize_eq : s.memoize = true
  nodup : ns.Nodup
  /-- The nodes of the arguments have been defined, too. -/
  closed : ∀ f ∈ ns, f.nodes ⊆ ns
  mem_iff : ∀ f, f ∈ ns ↔ ∃ z, s.memo[f]? = some z
  auxiliaries_eq : s.stats.auxiliaries = ns.length
  size_eq : s.cnf.size = (ns.map Formula.definitionSize).sum + own

/-- Between the sessions the nodes of the formulas have been added, and nothing has been
forgotten. -/
structure Learns (s : Session) (ns : List Formula) (fs : List Formula) (s' : Session)
    (ns' : List Formula) : Prop where
  keeps : ∀ (f : Formula) (z : Literal), s.memo[f]? = some z → s'.memo[f]? = some z
  mem_iff : ∀ e, e ∈ ns' ↔ e ∈ ns ∨ e ∈ fs.flatMap Formula.nodes

/-- The session has the literal for the formula. -/
inductive Answers (s : Session) : Formula → Literal → Prop
  | literal {l : Literal} : Answers s (.literal l) l
  | remembered {f : Formula} {z : Literal} : f.isLiteral = false → s.memo[f]? = some z →
      Answers s f z

theorem Shares.start (supply : Supply) : (Session.start supply true).Shares [] 0 :=
  ⟨rfl, .nil, nofun, fun f => by simp [Session.start], rfl, rfl⟩

theorem Learns.refl (s : Session) (ns : List Formula) : s.Learns ns [] s ns :=
  ⟨fun _ _ => id, fun e => by simp⟩

theorem Learns.trans (h : s.Learns ns fs s₁ ns₁) (h' : s₁.Learns ns₁ gs s' ns') :
    s.Learns ns (fs ++ gs) s' ns' where
  keeps := fun f z hz => h'.keeps f z (h.keeps f z hz)
  mem_iff := fun e => by rw [h'.mem_iff, h.mem_iff, List.flatMap_append, List.mem_append, or_assoc]

theorem Answers.mono (hz : s.Answers f z)
    (h : ∀ (f : Formula) (z : Literal), s.memo[f]? = some z → s'.memo[f]? = some z) :
    s'.Answers f z := by
  cases hz with
  | literal => exact .literal
  | remembered hf hz => exact .remembered hf (h f z hz)

/-! ## Encodings -/

/-- A node that is recalled has been defined with the nodes of its arguments. -/
theorem Shares.learns_recalled (hs : s.Shares ns own) (hz : s.memo[f]? = some z) :
    s.Learns ns [f] { s with stats.recalls := s.stats.recalls + 1 } ns where
  keeps := fun _ _ => id
  mem_iff := fun e => by
    rw [List.flatMap_singleton]
    exact ⟨.inl, fun h => h.elim id fun he => hs.closed f ((hs.mem_iff f).mpr ⟨z, hz⟩) he⟩

/-- A definition adds its node to what is remembered. -/
theorem memo_of_define {g : Gate} (hm : s.memoize = true) (hd : s.define f g = .ok (z, s'))
    (e : Formula) : s'.memo[e]? = if f = e then some z else s.memo[e]? := by
  obtain ⟨_, _, rfl⟩ := define_eq_ok hd
  simp only [hm, if_true, Std.HashMap.getElem?_insert, beq_iff_eq]

/-- A new node is defined after the nodes of its arguments. -/
theorem Shares.define {g : Gate} (hs : s.Shares ns own) (hf : f ∉ ns) (hargs : f.nodes ⊆ ns ++ [f])
    (hsize : (g.clauses z).length = f.definitionSize) (hd : s.define f g = .ok (z, s')) :
    s'.Shares (ns ++ [f]) own := by
  have hmemo := memo_of_define hs.memoize_eq hd
  have hemitted := emitted_of_define hd
  refine ⟨hemitted.memoize_eq.trans hs.memoize_eq, ?_, ?_, fun e => ?_, ?_, ?_⟩
  · exact List.concat_eq_append ▸ hs.nodup.concat hf
  · exact List.forall_mem_append.mpr
      ⟨fun e he => List.subset_append_of_subset_left _ (hs.closed e he),
        List.forall_mem_singleton.mpr hargs⟩
  · rw [List.mem_append, List.mem_singleton, hs.mem_iff, hmemo]
    split
    · rename_i hfe
      exact iff_of_true (.inr hfe.symm) ⟨z, rfl⟩
    · rename_i hfe
      exact or_iff_left (Ne.symm hfe)
  · rw [hemitted.auxiliaries_eq, hs.auxiliaries_eq, List.length_append]
    rfl
  · rw [hemitted.size_eq, hs.size_eq, List.map_append, List.sum_append, List.flatMap_singleton,
      Emission.clauses, hsize, List.map_singleton, List.sum_singleton]
    omega

/-- Defining a new node after its arguments adds the nodes that are its own. -/
theorem Learns.define {g : Gate} {args : List Formula} {bs : List Literal}
    (h : s.Learns ns args s₁ ns₁) (hm : s₁.memoize = true) (hn : f.Node args bs g)
    (hf : s₁.memo[f]? = none) (hd : s₁.define f g = .ok (z, s')) :
    s.Learns ns [f] s' (ns₁ ++ [f]) where
  keeps := fun e y hy => by
    have hy₁ := h.keeps e y hy
    rw [memo_of_define hm hd, if_neg (fun hfe => ?_), hy₁]
    rw [← hfe, hf] at hy₁
    cases hy₁
  mem_iff := fun e => by
    rw [List.mem_append, h.mem_iff, List.flatMap_singleton, hn.nodes, List.mem_append, or_assoc]

/-- What encodings define: the nodes that are new. -/
theorem Emits.exists_learns (h : Emits fs s as es s') (hs : s.Shares ns own) :
    ∃ ns', s'.Shares ns' own ∧ s.Learns ns fs s' ns' ∧ List.Forall₂ s'.Answers fs as := by
  induction h generalizing ns with
  | nil => exact ⟨ns, hs, Learns.refl _ ns, .nil⟩
  | @literal l fs as es s s' _ ih =>
    obtain ⟨ns', hs', hlearns, hanswers⟩ := ih hs
    exact ⟨ns', hs', ⟨hlearns.keeps, hlearns.mem_iff⟩, .cons .literal hanswers⟩
  | @recalled f z fs as es s s' hf _ hz _ ih =>
    obtain ⟨ns', hs', hlearns, hanswers⟩ := ih { hs with }
    have hfirst := (hs.learns_recalled hz).trans hlearns
    exact ⟨ns', hs', hfirst, .cons (.remembered hf (hfirst.keeps f z hz)) hanswers⟩
  | @node f args bs g z fs as ds es s s₁ s₂ s' hn hnone hargs hd _ ihargs ihrest =>
    obtain ⟨ns₁, hs₁, hlearns, _⟩ := ihargs hs
    have hold : f ∉ ns := fun hmem => by
      obtain ⟨y, hy⟩ := (hs.mem_iff f).mp hmem
      rw [hnone hs.memoize_eq] at hy
      cases hy
    have hnew : f ∉ ns₁ := fun hmem => ((hlearns.mem_iff f).mp hmem).elim hold hn.notMem_nodes
    have hunknown : s₁.memo[f]? = none :=
      Option.eq_none_iff_forall_ne_some.mpr fun y hy => hnew ((hs₁.mem_iff f).mpr ⟨y, hy⟩)
    have hall := hlearns.define hs₁.memoize_eq hn hunknown hd
    have hnodes : f.nodes ⊆ ns₁ ++ [f] := fun e he =>
      (hall.mem_iff e).mpr (.inr (by rwa [List.flatMap_singleton]))
    have hs₂ := hs₁.define hnew hnodes (hn.length_clauses hargs.length_eq z) hd
    obtain ⟨ns', hs', hrest, hanswers⟩ := ihrest hs₂
    have hz : s₂.memo[f]? = some z := by rw [memo_of_define hs₁.memoize_eq hd, if_pos rfl]
    have hliteral : f.isLiteral = false := by cases hn <;> rfl
    exact ⟨ns', hs', hall.trans hrest, .cons (.remembered hliteral (hrest.keeps f z hz)) hanswers⟩

/-- A formula that has been encoded is encoded again without clauses or variables. -/
theorem Answers.encode_eq (h : s.Answers f z) (hm : s.memoize = true) :
    s.encode f = .ok (z, { s with
      stats.formulas := s.stats.formulas + 1
      stats.recalls := s.stats.recalls + if f.isLiteral then 0 else 1 }) := by
  cases h with
  | literal => rfl
  | remembered hf hz => cases f <;> simp_all [encode, encodeNode, recallOr, Formula.isLiteral]

/-! ## Runs -/

theorem Shares.addClause (h : s.Shares ns own) (c : Clause) :
    (s.addClause c).Shares ns (own + 1) where
  memoize_eq := h.memoize_eq
  nodup := h.nodup
  closed := h.closed
  mem_iff := h.mem_iff
  auxiliaries_eq := h.auxiliaries_eq
  size_eq := (Array.size_push c).trans (congrArg Nat.succ h.size_eq)

/-- What a step defines, and that it answers or asserts the literal of its formula. -/
theorem Record.Writes.exists_learns {r : Record} (h : r.Writes es) (hs : r.before.Shares ns own) :
    ∃ ns', r.after.Shares ns' (own + r.step.ownClauses) ∧
      r.before.Learns ns r.step.formula?.toList r.after ns' ∧
      ∀ f, r.step.formula? = some f → ∃ z, r.HasRoot z ∧ r.after.Answers f z := by
  cases h with
  | @encode f z es s s' he =>
    obtain ⟨ns', hs', hlearns, hanswers⟩ := he.exists_learns (show Shares _ ns own from { hs with })
    refine ⟨ns', hs', ⟨hlearns.keeps, hlearns.mem_iff⟩, ?_⟩
    rintro _ ⟨⟩
    exact ⟨z, rfl, (List.forall₂_cons.mp hanswers).1⟩
  | @assert f z es s s' he =>
    obtain ⟨ns', hs', hlearns, hanswers⟩ := he.exists_learns (show Shares _ ns own from { hs with })
    refine ⟨ns', hs'.addClause [z], ⟨hlearns.keeps, hlearns.mem_iff⟩, ?_⟩
    rintro _ ⟨⟩
    exact ⟨z, he.hasRoot_assert, (List.forall₂_cons.mp hanswers).1.mono fun _ _ => id⟩
  | @clause c s =>
    exact ⟨ns, hs.addClause c, ⟨fun _ _ => id, fun e => by simp [Step.formula?]⟩, nofun⟩
  | @reserve count s =>
    exact ⟨ns, { hs with }, ⟨fun _ _ => id, fun e => by simp [Step.formula?]⟩, nofun⟩

/-- What a run defines, and that at its end there are literals for all formulas encoded. -/
theorem exists_learns_of_run {steps : List Step} {rs : List Record} (h : s.run steps = .ok (rs, s'))
    (hs : s.Shares ns own) :
    ∃ ns', s'.Shares ns' (own + (steps.map Step.ownClauses).sum) ∧
      s.Learns ns (steps.filterMap Step.formula?) s' ns' ∧
      ∀ r ∈ rs, ∀ f, r.step.formula? = some f → ∃ z, r.HasRoot z ∧ s'.Answers f z := by
  induction steps generalizing s rs ns own with
  | nil =>
    obtain ⟨rfl, rfl⟩ := Prod.mk.inj (Except.ok.inj h)
    exact ⟨ns, hs, Learns.refl s ns, nofun⟩
  | cons step steps ih =>
    obtain ⟨root, s₁, rs', hp, hr, rfl⟩ := run_cons.mp h
    obtain ⟨es, hw⟩ := exists_writes_of_perform hp
    obtain ⟨ns₁, hs₁, hfirst, hroot⟩ := hw.exists_learns hs
    obtain ⟨ns', hs', hrest, hroots⟩ := ih hr hs₁
    refine ⟨ns', ?_, ?_, List.forall_mem_cons.mpr ⟨fun f hf => ?_, hroots⟩⟩
    · rw [List.map_cons, List.sum_cons, ← Nat.add_assoc]
      exact hs'
    · have hformulas : (step :: steps).filterMap Step.formula? =
          step.formula?.toList ++ steps.filterMap Step.formula? := by
        rw [List.filterMap_cons]
        cases step.formula? <;> rfl
      exact hformulas ▸ hfirst.trans hrest
    · obtain ⟨z, hz, hanswer⟩ := hroot f hf
      exact ⟨z, hz, hanswer.mono hrest.keeps⟩

/-- The size of a run that remembers nodes: each different node counts once. -/
structure Shared (steps : List Step) (rs : List Record) (s : Session) : Prop where
  auxiliaries_eq :
    s.stats.auxiliaries = (Formula.distinctNodes (steps.filterMap Step.formula?)).card
  size_eq : s.cnf.size = ∑ f ∈ Formula.distinctNodes (steps.filterMap Step.formula?),
    f.definitionSize + (steps.map Step.ownClauses).sum
  /-- A formula of an earlier step is encoded again by its literal alone. -/
  again : ∀ r ∈ rs, ∀ f, r.step.formula? = some f → ∃ z, r.HasRoot z ∧
    s.encode f = .ok (z, { s with
      stats.formulas := s.stats.formulas + 1
      stats.recalls := s.stats.recalls + if f.isLiteral then 0 else 1 })

theorem shared_of_run {supply : Supply} {steps : List Step} {rs : List Record}
    (h : (Session.start supply true).run steps = .ok (rs, s)) : Shared steps rs s := by
  obtain ⟨ns, hs, hlearns, hroots⟩ := exists_learns_of_run h (Shares.start supply)
  have hnodes : Formula.distinctNodes (steps.filterMap Step.formula?) = ns.toFinset := by
    ext e
    rw [Formula.distinctNodes, List.mem_toFinset, List.mem_toFinset, hlearns.mem_iff]
    exact (or_iff_right List.not_mem_nil).symm
  refine ⟨?_, ?_, fun r hr f hf => ?_⟩
  · rw [hs.auxiliaries_eq, hnodes, List.toFinset_card_of_nodup hs.nodup]
  · rw [hs.size_eq, hnodes, List.sum_toFinset _ hs.nodup, Nat.zero_add]
  · obtain ⟨z, hz, hanswer⟩ := hroots r hr f hf
    exact ⟨z, hz, hanswer.encode_eq hs.memoize_eq⟩

/-! ## With and without sharing -/

/-- Where nothing is remembered, a node is defined last, and by a variable in the range of
literals. -/
theorem Emits.last_le (h : Emits [f] s [z] es s') (hm : s.memoize = false)
    (hf : f.isLiteral = false) : s'.supply.last ≤ maxVariable := by
  cases h with
  | literal _ => cases hf
  | recalled _ hmem _ _ => exact absurd (hm.symm.trans hmem) Bool.false_ne_true
  | node _ _ _ hd hrest =>
    cases hrest
    obtain ⟨_, hlt, rfl⟩ := define_eq_ok hd
    exact hlt

/-- What can be encoded without remembering nodes can be encoded by any session that is not further
along. -/
theorem exists_encode_of_plain {t : Session} (h : s.encode f = .ok (z, s')) (hm : s.memoize = false)
    (hle : t.supply.last ≤ s.supply.last) :
    ∃ y t', t.encode f = .ok (y, t') ∧ t'.supply.last ≤ s'.supply.last := by
  obtain ⟨es, he⟩ := exists_emits_of_encode h
  have hlast : s'.supply.last = s.supply.last + f.connectives := (he.definesAll hm).last_eq
  cases hf : f.isLiteral with
  | true =>
    cases f with
    | literal l => exact ⟨l, _, rfl, by rw [hlast]; exact hle⟩
    | _ => cases hf
  | false =>
    have hmax := he.last_le hm hf
    obtain ⟨y, t', ht, hdraws⟩ :=
      exists_encodeNode f { t with stats.formulas := t.stats.formulas + 1 }
        (by show t.supply.last + _ ≤ _; omega)
    have hdrawn : t'.supply.last ≤ t.supply.last + f.connectives := hdraws.last_le
    exact ⟨y, t', ht, by omega⟩

theorem exists_perform_of_plain {t : Session} {step : Step} {root : Option Literal}
    (h : s.perform step = .ok (root, s')) (hm : s.memoize = false)
    (hle : t.supply.last ≤ s.supply.last) :
    ∃ root' t', t.perform step = .ok (root', t') ∧ t'.supply.last ≤ s'.supply.last := by
  cases step with
  | encode f =>
    obtain ⟨⟨z, s₁⟩, he, h⟩ := Outcome.bind_eq_ok.mp h
    obtain ⟨rfl, rfl⟩ := Prod.mk.inj (Except.ok.inj h)
    obtain ⟨y, t', ht, hle'⟩ := exists_encode_of_plain he hm hle
    exact ⟨some y, t', Outcome.bind_eq_ok.mpr ⟨(y, t'), ht, rfl⟩, hle'⟩
  | assert f =>
    obtain ⟨s₁, ha, h⟩ := Outcome.bind_eq_ok.mp h
    obtain ⟨rfl, rfl⟩ := Prod.mk.inj (Except.ok.inj h)
    obtain ⟨z, s₁, he, rfl⟩ := assert_eq_ok.mp ha
    obtain ⟨y, t', ht, hle'⟩ := exists_encode_of_plain he hm hle
    have hassert : t.assert f = .ok (t'.addClause [y]) := assert_eq_ok.mpr ⟨y, t', ht, rfl⟩
    exact ⟨none, t'.addClause [y], Outcome.bind_eq_ok.mpr ⟨_, hassert, rfl⟩, hle'⟩
  | clause c =>
    obtain ⟨rfl, rfl⟩ := Prod.mk.inj (Except.ok.inj h)
    exact ⟨none, t.addClause c, rfl, hle⟩
  | reserve count =>
    obtain ⟨rfl, rfl⟩ := Prod.mk.inj (Except.ok.inj h)
    exact ⟨none, t.reserve count, rfl, Nat.add_le_add_right hle count⟩

theorem exists_run_of_plain {t : Session} {steps : List Step} {rs : List Record}
    (h : s.run steps = .ok (rs, s')) (hm : s.memoize = false)
    (hle : t.supply.last ≤ s.supply.last) :
    ∃ rs' t', t.run steps = .ok (rs', t') ∧ t'.supply.last ≤ s'.supply.last := by
  induction steps generalizing s t rs with
  | nil =>
    obtain ⟨rfl, rfl⟩ := Prod.mk.inj (Except.ok.inj h)
    exact ⟨[], t, rfl, hle⟩
  | cons step steps ih =>
    obtain ⟨root, s₁, rs₁, hp, hr, rfl⟩ := run_cons.mp h
    obtain ⟨es, hw⟩ := exists_writes_of_perform hp
    obtain ⟨root', t₁, ht₁, hle₁⟩ := exists_perform_of_plain hp hm hle
    obtain ⟨rs', t', ht', hle'⟩ := ih hr (hw.memoize_eq.trans hm) hle₁
    exact ⟨_, t', run_cons.mpr ⟨root', t₁, rs', ht₁, ht', rfl⟩, hle'⟩

/-- **Sizes of encodings.** Without remembering, each call defines all nodes of its formula;
otherwise each different node of the run is defined once. So remembering nodes takes no more
variables and clauses. -/
theorem run_sized (supply : Supply) (steps : List Step) :
    (∀ rs s, (Session.start supply false).run steps = .ok (rs, s) →
      (∀ r ∈ rs, ∀ f, r.step.formula? = some f → r.before.DefinesAll f r.step.ownClauses r.after) ∧
      ∃ rs' s', (Session.start supply true).run steps = .ok (rs', s') ∧
        s'.stats.auxiliaries ≤ s.stats.auxiliaries ∧ s'.supply.last ≤ s.supply.last ∧
        s'.cnf.size ≤ s.cnf.size) ∧
    ∀ rs s, (Session.start supply true).run steps = .ok (rs, s) → Shared steps rs s := by
  refine ⟨fun rs s h => ⟨definesAll_of_run h rfl, ?_⟩, fun rs s h => shared_of_run h⟩
  obtain ⟨rs', s', h', hlast⟩ :=
    exists_run_of_plain (t := Session.start supply true) h rfl (Nat.le_refl _)
  obtain ⟨hauxiliaries, hsize⟩ := totals_of_run h rfl
  have hshared := shared_of_run h'
  refine ⟨rs', s', h', ?_, hlast, ?_⟩
  · rw [hshared.auxiliaries_eq, hauxiliaries]
    exact Nat.le_add_left_of_le (List.toFinset_card_le _)
  · rw [hshared.size_eq, hsize]
    exact Nat.add_le_add_right (Nat.le_add_left_of_le (Formula.sum_distinctNodes_le _)) _

/-- Steps whose formulas share a conjunction. -/
def conjunctionSteps : List Step :=
  [.encode (.and [.literal ⟨1, by decide⟩, .literal ⟨2, by decide⟩]),
    .assert (.or [.literal ⟨1, by decide⟩,
      .not (.and [.literal ⟨1, by decide⟩, .literal ⟨2, by decide⟩])]),
    .clause [⟨-3, by decide⟩]]

/-- The conjunction takes a variable and three clauses each time, or only once. -/
theorem run_sized_conjunction :
    ∃ rs s rs' s', (Session.start ⟨2⟩ false).run conjunctionSteps = .ok (rs, s) ∧
      (Session.start ⟨2⟩ true).run conjunctionSteps = .ok (rs', s') ∧
      s.stats.auxiliaries = 4 ∧ s'.stats.auxiliaries = 3 ∧ s.cnf.size = 13 ∧ s'.cnf.size = 10 ∧
      (∀ r ∈ rs, ∀ f, r.step.formula? = some f → r.before.DefinesAll f r.step.ownClauses r.after) ∧
      Shared conjunctionSteps rs' s' := by
  have hrun : ∀ memoize, ∃ rs s, (Session.start ⟨2⟩ memoize).run conjunctionSteps = .ok (rs, s) ∧
      s.stats.auxiliaries = (if memoize then 3 else 4) ∧
      s.cnf.size = if memoize then 10 else 13 := by
    intro memoize
    cases memoize <;>
      simp [conjunctionSteps, run, perform, encode, encodeNode, encodeNodes, recallOr, start,
        define, fresh, Supply.draw, Literal.positive, maxVariable, addClauses_eq, addClause, bind,
        Except.bind, assert, Cnf.size, Cnf.push, Gate.clauses]
  obtain ⟨rs, s, h, hauxiliaries, hsize⟩ := hrun false
  obtain ⟨rs', s', h', hauxiliaries', hsize'⟩ := hrun true
  obtain ⟨hfirst, hsecond⟩ := run_sized ⟨2⟩ conjunctionSteps
  exact ⟨rs, s, rs', s', h, h', hauxiliaries, hauxiliaries', hsize, hsize', (hfirst rs s h).1,
    hsecond rs' s' h'⟩

end Session

end Counterbalance
