import Counterbalance.Proofs.Logic.Run

/-! Models of what a run emits. A truth assignment of the variables that were handed out before a
run extends to a model of the emitted clauses exactly if it meets every demand of the run. -/

namespace Counterbalance

/-- The truth values of the first `n` variables as signed entries. -/
def signedEntries (ν : Nat → Bool) (n : Nat) : Array Int :=
  Array.ofFn fun i : Fin n => if ν (i + 1) then (i + 1 : Int) else -(i + 1 : Int)

@[simp] theorem size_signedEntries (ν : Nat → Bool) (n : Nat) : (signedEntries ν n).size = n :=
  Array.size_ofFn

theorem valuation_signedEntries {ν : Nat → Bool} {n v : Nat} (hpos : 0 < v) (hle : v ≤ n) :
    valuation (signedEntries ν n) v = ν v := by
  have hlt : v - 1 < n := by omega
  have hsucc : v - 1 + 1 = v := by omega
  rw [valuation, signedEntries, Array.getElem?_ofFn, dif_pos hlt]
  simp only [hsucc]
  cases ν v with
  | false =>
    rw [if_neg Bool.false_ne_true]
    exact decide_eq_false (by omega)
  | true =>
    rw [if_pos rfl]
    exact decide_eq_true (by omega)

theorem signedEntries_congr {ν μ : Nat → Bool} {n : Nat} (h : ∀ v, 0 < v → v ≤ n → ν v = μ v) :
    signedEntries ν n = signedEntries μ n := by
  unfold signedEntries
  congr 1
  funext i
  rw [h (i + 1) (Nat.succ_pos i) i.isLt]

namespace Session

variable {s s' : Session} {ds : List Clause}

theorem Step.demands_congr {ν μ : Nat → Bool} {step : Step}
    (h : ∀ l ∈ step.literals, μ l.var = ν l.var) : step.Demands μ ↔ step.Demands ν := by
  cases step with
  | encode f => exact Iff.rfl
  | assert f => rw [Demands, Demands, Formula.eval_congr h]
  | clause c =>
    have hsame : c.eval μ = c.eval ν := Clause.eval_congr h
    rw [Demands, Demands, hsame]
  | reserve count => exact Iff.rfl

/-- Steps over variables that were handed out before the run are in scope all along. -/
theorem inScope_of_run {n : Nat} {steps : List Step} {rs : List Record}
    (h : s.run steps = .ok (rs, s')) (hn : n ≤ s.supply.last)
    (hsteps : ∀ step ∈ steps, ∀ l ∈ step.literals, l.var ≤ n) (hs : s.Recalls ds) :
    ∀ r ∈ rs, r.InScope := by
  induction steps generalizing s rs ds with
  | nil =>
    obtain ⟨rfl, _⟩ := Prod.mk.inj (Except.ok.inj h)
    exact fun r hr => absurd hr List.not_mem_nil
  | cons step steps ih =>
    obtain ⟨hstep, hrest⟩ := List.forall_mem_cons.mp hsteps
    obtain ⟨root, s₁, rs', hp, hr, rfl⟩ := run_cons.mp h
    have hin : Record.InScope ⟨step, root, s, s₁⟩ := fun l hl => Nat.le_trans (hstep l hl) hn
    have hfirst := follows_of_perform hp hin hs
    exact List.forall_mem_cons.mpr
      ⟨hin, ih hr (Nat.le_trans hn hfirst.last_le) hrest hfirst.recalls⟩

theorem follows_of_start {supply : Supply} {memoize : Bool} {steps : List Step} {rs : List Record}
    (h : (start supply memoize).run steps = .ok (rs, s))
    (hsteps : ∀ step ∈ steps, ∀ l ∈ step.literals, l.var ≤ supply.last) :
    Follows [] (start supply memoize) rs s := by
  have hs := Recalls.start supply memoize []
  exact follows_of_run h (inScope_of_run h (Nat.le_refl _) hsteps hs) hs

theorem forall_record_iff {steps : List Step} {rs : List Record} (h : s.run steps = .ok (rs, s'))
    {P : Step → Prop} : (∀ r ∈ rs, P r.step) ↔ ∀ step ∈ steps, P step := by
  rw [← steps_of_run h, List.forall_mem_map]

/-- A model of the clauses of a run meets the demands of the run. -/
theorem demands_of_isSatisfiedBy {supply : Supply} {memoize : Bool} {steps : List Step}
    {rs : List Record} (h : (start supply memoize).run steps = .ok (rs, s))
    (hsteps : ∀ step ∈ steps, ∀ l ∈ step.literals, l.var ≤ supply.last) {ν : Nat → Bool}
    (hν : s.cnf.isSatisfiedBy (signedEntries ν s.supply.last) = true) :
    ∀ step ∈ steps, step.Demands ν := by
  have hfollows := follows_of_start h hsteps
  rw [hfollows.isSatisfiedBy_iff fun v hpos hle =>
    valuation_signedEntries (Nat.pos_of_ne_zero hpos) hle] at hν
  exact (forall_record_iff h).mp hν.2

/-- **Models of a run.** A truth assignment of the variables handed out before the run extends to a
model of the clauses exactly if it meets the demands of the run. -/
theorem exists_model_iff {supply : Supply} {memoize : Bool} {steps : List Step} {rs : List Record}
    (h : (start supply memoize).run steps = .ok (rs, s))
    (hsteps : ∀ step ∈ steps, ∀ l ∈ step.literals, l.var ≤ supply.last) (g : Nat → Bool) :
    (∃ ν : Nat → Bool, (∀ v, 0 < v → v ≤ supply.last → ν v = g v) ∧
      s.cnf.isSatisfiedBy (signedEntries ν s.supply.last) = true) ↔
        ∀ step ∈ steps, step.Demands g := by
  have hfollows := follows_of_start h hsteps
  have hsame : ∀ ν : Nat → Bool, (∀ v, 0 < v → v ≤ supply.last → ν v = g v) →
      ((∀ step ∈ steps, step.Demands ν) ↔ ∀ step ∈ steps, step.Demands g) := by
    intro ν hν
    refine forall₂_congr fun step hstep => Step.demands_congr fun l hl => ?_
    exact hν _ (Nat.pos_of_ne_zero l.var_ne_zero) (hsteps step hstep l hl)
  constructor
  · intro h
    obtain ⟨ν, hν, hsat⟩ := h
    exact (hsame ν hν).mp (demands_of_isSatisfiedBy h hsteps hsat)
  · intro hdemands
    obtain ⟨ν, ⟨hagree, hdefs⟩, _⟩ := hfollows.defines g
    have hν : ∀ v, 0 < v → v ≤ supply.last → ν v = g v := by
      intro v _ hv
      exact hagree fun hdrawn => Nat.not_lt.mpr hv (hfollows.drawn hdrawn).1
    refine ⟨ν, hν, ?_⟩
    rw [hfollows.isSatisfiedBy_iff fun v hpos hle =>
      valuation_signedEntries (Nat.pos_of_ne_zero hpos) hle]
    exact ⟨hdefs, (forall_record_iff h).mpr ((hsame ν hν).mpr hdemands)⟩

/-! ## No second model -/

/-- All variables that are drawn during a run without reservations are auxiliary. -/
theorem Ioc_subset_auxiliaries {steps : List Step} {rs : List Record}
    (h : s.run steps = .ok (rs, s')) (hsteps : ∀ step ∈ steps, ∀ count, step ≠ .reserve count) :
    Set.Ioc s.supply.last s'.supply.last ⊆ auxiliaries rs := by
  induction steps generalizing s rs with
  | nil =>
    obtain ⟨_, rfl⟩ := Prod.mk.inj (Except.ok.inj h)
    rw [Set.Ioc_self]
    exact Set.empty_subset _
  | cons step steps ih =>
    obtain ⟨hstep, hrest⟩ := List.forall_mem_cons.mp hsteps
    obtain ⟨root, s₁, rs', hp, hr, rfl⟩ := run_cons.mp h
    have hfirst :
        Set.Ioc s.supply.last s₁.supply.last ⊆ (Record.mk step root s s₁).auxiliaries := by
      cases step with
      | encode f => exact subset_rfl
      | assert f => exact subset_rfl
      | clause c =>
        obtain ⟨_, rfl⟩ := Prod.mk.inj (Except.ok.inj hp)
        show Set.Ioc s.supply.last s.supply.last ⊆ _
        rw [Set.Ioc_self]
        exact Set.empty_subset _
      | reserve count => exact absurd rfl (hstep count)
    rw [← List.singleton_append, auxiliaries_append, auxiliaries_singleton]
    exact Set.Ioc_subset_Ioc_union_Ioc.trans (Set.union_subset_union hfirst (ih hr hrest))

/-- **One model per choice.** Models of the clauses of a run without reservations are equal if they
agree on the variables that were handed out before. -/
theorem eq_of_isSatisfiedBy {supply : Supply} {memoize : Bool} {steps : List Step}
    {rs : List Record} (h : (start supply memoize).run steps = .ok (rs, s))
    (hsteps : ∀ step ∈ steps, ∀ l ∈ step.literals, l.var ≤ supply.last)
    (hreserve : ∀ step ∈ steps, ∀ count, step ≠ .reserve count) {ν μ : Nat → Bool}
    (hν : s.cnf.isSatisfiedBy (signedEntries ν s.supply.last) = true)
    (hμ : s.cnf.isSatisfiedBy (signedEntries μ s.supply.last) = true)
    (hagree : ∀ v, 0 < v → v ≤ supply.last → ν v = μ v) :
    ∀ v, 0 < v → v ≤ s.supply.last → ν v = μ v := by
  have hfollows := follows_of_start h hsteps
  have hholds : ∀ κ : Nat → Bool, s.cnf.isSatisfiedBy (signedEntries κ s.supply.last) = true →
      Holds κ (definitions rs) := fun κ hκ =>
    ((hfollows.isSatisfiedBy_iff fun v hne hle =>
      valuation_signedEntries (Nat.pos_of_ne_zero hne) hle).mp hκ).1
  -- `μ` on the variables in use, and `ν` on those that no clause mentions
  let κ : Nat → Bool := fun v => if 0 < v ∧ v ≤ s.supply.last then μ v else ν v
  have hκ : ∀ v, 0 < v → v ≤ s.supply.last → κ v = μ v := fun v hpos hle => if_pos ⟨hpos, hle⟩
  have hκdefs : Holds κ (definitions rs) := by
    refine (holds_congr fun c hc l hl => ?_).mpr (hholds μ hμ)
    exact hκ _ (Nat.pos_of_ne_zero l.var_ne_zero) (hfollows.within c hc l hl)
  have hκν : Set.EqOn κ ν (auxiliaries rs)ᶜ := by
    intro v hv
    by_cases hused : 0 < v ∧ v ≤ s.supply.last
    · have hle : v ≤ supply.last := by
        by_contra hlt
        exact hv (Ioc_subset_auxiliaries h hreserve ⟨Nat.lt_of_not_le hlt, hused.2⟩)
      rw [hκ v hused.1 hused.2, hagree v hused.1 hle]
    · exact if_neg hused
  have hsame : κ = ν :=
    (hfollows.defines ν).unique ⟨hκν, hκdefs⟩ ⟨fun _ _ => rfl, hholds ν hν⟩
  intro v hpos hle
  rw [← hκ v hpos hle, hsame]

end Session

end Counterbalance
