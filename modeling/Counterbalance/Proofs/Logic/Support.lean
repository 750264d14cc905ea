import Counterbalance.Proofs.Logic.EncodingSize

/-! The variables of a formula. From turn to turn, the traversal with a stack keeps what it has
found together with what the leaves on its stack hold, so it ends with the variables of all leaves.
Truth values depend on no others, and encodings mention no others but those that they draw. -/

namespace Counterbalance

namespace Formula

/-! ## Traversal -/

theorem mem_leavesAll_push {stack fs : List Formula} {l : Literal} :
    l ∈ leavesAll (push stack fs) ↔ l ∈ leavesAll fs ∨ l ∈ leavesAll stack := by
  simp [leavesAll_eq_flatMap, or_and_right, exists_or]

/-- The traversal finds the variables of the leaves on its stack. -/
theorem mem_collect {stack : List Formula} {found : List Nat} {v : Nat} :
    v ∈ collect stack found ↔ v ∈ found ∨ ∃ l ∈ leavesAll stack, l.var = v := by
  fun_induction collect stack found with
  | case1 found => simp [leavesAll]
  | case2 l stack found ih =>
    have hinsert : v ∈ insertAscending l.var found ↔ v ∈ found ∨ l.var = v := by
      rw [mem_insertAscending, or_comm, eq_comm]
    simp [ih, hinsert, leavesAll, leaves, or_assoc]
  | case3 f stack found ih => simp [ih, mem_leavesAll_push, leavesAll, leaves]
  | case4 fs stack found ih => simp [ih, mem_leavesAll_push, leavesAll, leaves]
  | case5 fs stack found ih => simp [ih, mem_leavesAll_push, leavesAll, leaves]
  | case6 f g stack found ih => simp [ih, mem_leavesAll_push, leavesAll, leaves, or_assoc]
  | case7 f g stack found ih => simp [ih, mem_leavesAll_push, leavesAll, leaves, or_assoc]

theorem pairwise_collect {stack : List Formula} {found : List Nat} (h : found.Pairwise (· < ·)) :
    (collect stack found).Pairwise (· < ·) := by
  fun_induction collect stack found with
  | case1 found => exact h
  | case2 l stack found ih => exact ih (pairwise_insertAscending h)
  | case3 f stack found ih => exact ih h
  | case4 fs stack found ih => exact ih h
  | case5 fs stack found ih => exact ih h
  | case6 f g stack found ih => exact ih h
  | case7 f g stack found ih => exact ih h

variable {f : Formula}

theorem mem_support {v : Nat} : v ∈ f.support ↔ ∃ l ∈ f.leaves, l.var = v := by
  simp [support, mem_collect, leavesAll]

theorem pairwise_support (f : Formula) : f.support.Pairwise (· < ·) := pairwise_collect .nil

/-! ## Evaluation and encoding -/

theorem eval_eq_of_support {ν μ : Nat → Bool} (h : ∀ v ∈ f.support, μ v = ν v) :
    f.eval μ = f.eval ν :=
  eval_congr fun l hl => h l.var (mem_support.mpr ⟨l, hl, rfl⟩)

theorem encode_eq_ok {supply supply' : Supply} {root : Literal} {cnf : Cnf} :
    f.encode supply = .ok (root, cnf, supply') ↔
      ∃ s, (Session.start supply false).encode f = .ok (root, s) ∧ s.cnf = cnf ∧
        s.supply = supply' := by
  rw [Formula.encode, Outcome.bind_eq_ok]
  simp [Prod.exists]

/-- An encoding on its own draws one variable per connective, and its clauses mention these and the
variables of the formula. -/
theorem var_of_encode {supply supply' : Supply} {root : Literal} {cnf : Cnf}
    (h : f.encode supply = .ok (root, cnf, supply')) :
    supply'.last = supply.last + f.connectives ∧ ∀ c ∈ cnf.toList, ∀ l ∈ c,
      l.var ∈ f.support ∨ supply.last < l.var ∧ l.var ≤ supply'.last := by
  obtain ⟨s, hs, rfl, rfl⟩ := encode_eq_ok.mp h
  obtain ⟨es, hes⟩ := Session.exists_emits_of_encode hs
  have haccounted := (Session.Accounted.start supply false).counted
  have hcnf : s.cnf.toList = es.flatMap Emission.clauses := hes.emitted.cnf_eq
  refine ⟨(hes.definesAll rfl).last_eq, fun c hc l hl => ?_⟩
  rcases hes.var_eq haccounted (hcnf ▸ hc) hl with ⟨a, ha, hvar⟩ | ⟨e, he, hvar⟩ | ⟨hm, _⟩
  · exact .inl (mem_support.mpr ⟨a, ha, hvar.symm⟩)
  · have hid : e.id ∈ List.range' (supply.last + 1) es.length :=
      hes.emitted.ids_eq ▸ List.mem_map.mpr ⟨e, he, rfl⟩
    have hlast : s.supply.last = supply.last + es.length := hes.emitted.last_eq
    rw [List.mem_range'_1] at hid
    exact .inr (by omega)
  · cases hm

/-- **The variables of a formula.** The traversal ends with the variables of the leaves, ascending
and each once. The truth value depends on these only, and the clauses of an encoding on its own
mention these and the variables that it draws, which are one per connective. -/
theorem support_exact (f : Formula) :
    f.support.Pairwise (· < ·) ∧ (∀ v, v ∈ f.support ↔ ∃ l ∈ f.leaves, l.var = v) ∧
      (∀ ν μ : Nat → Bool, (∀ v ∈ f.support, μ v = ν v) → f.eval μ = f.eval ν) ∧
      ∀ (supply supply' : Supply) (root : Literal) (cnf : Cnf),
        f.encode supply = .ok (root, cnf, supply') →
        supply'.last = supply.last + f.connectives ∧ ∀ c ∈ cnf.toList, ∀ l ∈ c,
          l.var ∈ f.support ∨ supply.last < l.var ∧ l.var ≤ supply'.last :=
  ⟨pairwise_support f, fun _ => mem_support, fun _ _ => eval_eq_of_support,
    fun _ _ _ _ => var_of_encode⟩

/-- Two variables, one of which occurs twice. -/
def doubled : Formula :=
  .xor (.literal ⟨8, by decide⟩) (.and [.literal ⟨-6, by decide⟩, .literal ⟨8, by decide⟩])

/-- The variable between the two makes no difference, and after variable 8 the clauses mention the
auxiliaries 9 and 10. -/
theorem support_exact_doubled :
    doubled.support = [6, 8] ∧
      doubled.eval (fun v => v == 7 || v == 8) = doubled.eval (fun v => v == 8) ∧
      ∃ root cnf supply', doubled.encode ⟨8⟩ = .ok (root, cnf, supply') ∧ cnf.size = 7 ∧
        supply'.last = 10 ∧
        ∀ c ∈ cnf.toList, ∀ l ∈ c, l.var ∈ doubled.support ∨ 8 < l.var ∧ l.var ≤ supply'.last := by
  have hsupport : doubled.support = [6, 8] := by decide +kernel
  have hrun : ((doubled.encode ⟨8⟩).toOption.map fun r => r.2.1.size) = some 7 := by decide +kernel
  obtain ⟨⟨root, cnf, supply'⟩, h, hsize⟩ := Option.map_eq_some_iff.mp hrun
  rw [Outcome.toOption_eq_some] at h
  obtain ⟨_, _, heval, hencode⟩ := support_exact doubled
  obtain ⟨hlast, hvars⟩ := hencode ⟨8⟩ supply' root cnf h
  exact ⟨hsupport, heval _ _ (by simp [hsupport]), root, cnf, supply', h, hsize, hlast, hvars⟩

end Formula

end Counterbalance
