import Mathlib.Algebra.Ring.Nat
import Counterbalance.Proofs.Logic.Run

/-! How many variables encodings draw: at most one per connective, and exactly one per connective if
nothing is remembered. As long as that many variables are in the range of literals, asserting
succeeds. -/

namespace Counterbalance

theorem Literal.exists_positive {v : Nat} (hpos : 0 < v) (hle : v ≤ maxVariable) :
    ∃ l, positive v = .ok l :=
  ⟨_, dif_pos ⟨Nat.ne_of_gt hpos, hle⟩⟩

namespace Formula

/-! ## Connectives of lists -/

variable {α : Type} {n : α → Nat} {xs : List α}

theorem connectivesAll_append (φs ψs : List Formula) :
    connectivesAll (φs ++ ψs) = connectivesAll φs + connectivesAll ψs := by
  induction φs with
  | nil => simp [connectivesAll]
  | cons φ φs ih => rw [List.cons_append, connectivesAll, connectivesAll, ih, Nat.add_assoc]

theorem connectivesAll_eq_sum {φs : List Formula}
    (h : List.Forall₂ (fun x φ => connectives φ = n x) xs φs) :
    connectivesAll φs = (xs.map n).sum := by
  induction h with
  | nil => rfl
  | cons hφ _ ih => rw [connectivesAll, List.map_cons, List.sum_cons, hφ, ih]

theorem connectivesAll_flatten {φss : List (List Formula)}
    (h : List.Forall₂ (fun x φs => connectivesAll φs = n x) xs φss) :
    connectivesAll φss.flatten = (xs.map n).sum := by
  induction h with
  | nil => rfl
  | cons hφs _ ih =>
    rw [List.flatten_cons, connectivesAll_append, List.map_cons, List.sum_cons, hφs, ih]

theorem connectivesAll_filterMap_id {φs? : List (Option Formula)}
    (h : List.Forall₂ (fun x φ? => ∃ φ, φ? = some φ ∧ connectives φ = n x) xs φs?) :
    connectivesAll (φs?.filterMap id) = (xs.map n).sum := by
  induction h with
  | nil => rfl
  | cons hφ _ ih =>
    obtain ⟨φ, rfl, hφ⟩ := hφ
    rw [List.filterMap_cons_some (show id (some φ) = some φ from rfl), connectivesAll,
      List.map_cons, List.sum_cons, hφ, ih]

end Formula

namespace Session

variable {s s₁ s' : Session}

/-- The second session comes from the first by drawing at most `n` variables, and `n` of them if
nothing is remembered. -/
structure Draws (s s' : Session) (n : Nat) : Prop where
  memoize_eq : s'.memoize = s.memoize
  last_le : s'.supply.last ≤ s.supply.last + n
  last_eq : s.memoize = false → s'.supply.last = s.supply.last + n

theorem Draws.refl (s : Session) : s.Draws s 0 :=
  ⟨rfl, Nat.le_refl _, fun _ => rfl⟩

theorem Draws.trans {m n : Nat} (h : s.Draws s₁ m) (h' : s₁.Draws s' n) : s.Draws s' (m + n) where
  memoize_eq := h'.memoize_eq.trans h.memoize_eq
  last_le := by
    have := h.last_le
    have := h'.last_le
    omega
  last_eq := fun hm => by
    rw [h'.last_eq (h.memoize_eq.trans hm), h.last_eq hm, Nat.add_assoc]

/-! ## Single operations -/

theorem exists_fresh (h : s.supply.last < maxVariable) :
    ∃ z s', s.fresh = .ok (z, s') ∧ s.Draws s' 1 := by
  obtain ⟨z, hz⟩ := Literal.exists_positive (Nat.succ_pos s.supply.last) h
  exact ⟨z, _, Outcome.bind_eq_ok.mpr ⟨z, hz, rfl⟩, rfl, Nat.le_refl _, fun _ => rfl⟩

/-- With room for one more variable, a node can be defined after its arguments. -/
theorem Draws.exists_define {n : Nat} (h : s.Draws s₁ n)
    (hroom : s.supply.last + (n + 1) ≤ maxVariable) (f : Formula) (g : Gate) :
    ∃ z s', s₁.define f g = .ok (z, s') ∧ s.Draws s' (n + 1) := by
  obtain ⟨z, s₂, hfresh, hdraw⟩ := exists_fresh (s := s₁) (by have := h.last_le; omega)
  have hall := h.trans hdraw
  refine ⟨z, _, Outcome.bind_eq_ok.mpr ⟨_, hfresh, rfl⟩, ?_⟩
  simp only [addClauses_eq]
  split
  · exact ⟨hall.memoize_eq, hall.last_le, hall.last_eq⟩
  · exact ⟨hall.memoize_eq, hall.last_le, hall.last_eq⟩

/-- A node that is recalled draws nothing. -/
theorem exists_recallOr {f : Formula} {encode : Session → Except LiteralError (Literal × Session)}
    {n : Nat} (h : ∃ z s', encode s = .ok (z, s') ∧ s.Draws s' n) :
    ∃ z s', s.recallOr f encode = .ok (z, s') ∧ s.Draws s' n := by
  unfold recallOr
  split
  · rename_i z hz
    refine ⟨z, _, rfl, rfl, Nat.le_add_right _ _, fun hm => ?_⟩
    rw [hm, if_neg Bool.false_ne_true] at hz
    cases hz
  · exact h

/-! ## Formulas -/

mutual
/-- Encoding succeeds where there is room for one variable per connective. -/
theorem exists_encodeNode :
    ∀ (f : Formula) (s : Session), s.supply.last + f.connectives ≤ maxVariable →
      ∃ z s', encodeNode f s = .ok (z, s') ∧ s.Draws s' f.connectives
  | .literal l, s, _ => ⟨l, s, rfl, Draws.refl s⟩
  | .not f, s, h => by
    rw [Formula.connectives, Nat.add_comm 1] at h ⊢
    obtain ⟨a, s₁, hf, hdraws⟩ := exists_encodeNode f s (Nat.le_of_succ_le h)
    obtain ⟨z, s', hz, hall⟩ := hdraws.exists_define h (.not f) (.not a)
    exact exists_recallOr ⟨z, s', Outcome.bind_eq_ok.mpr ⟨_, hf, hz⟩, hall⟩
  | .and fs, s, h => by
    rw [Formula.connectives, Nat.add_comm 1] at h ⊢
    obtain ⟨as, s₁, hfs, hdraws⟩ := exists_encodeNodes fs s (Nat.le_of_succ_le h)
    obtain ⟨z, s', hz, hall⟩ := hdraws.exists_define h (.and fs) (.and as)
    exact exists_recallOr ⟨z, s', Outcome.bind_eq_ok.mpr ⟨_, hfs, hz⟩, hall⟩
  | .or fs, s, h => by
    rw [Formula.connectives, Nat.add_comm 1] at h ⊢
    obtain ⟨as, s₁, hfs, hdraws⟩ := exists_encodeNodes fs s (Nat.le_of_succ_le h)
    obtain ⟨z, s', hz, hall⟩ := hdraws.exists_define h (.or fs) (.or as)
    exact exists_recallOr ⟨z, s', Outcome.bind_eq_ok.mpr ⟨_, hfs, hz⟩, hall⟩
  | .xor f g, s, h => by
    rw [Formula.connectives, Nat.add_assoc, Nat.add_comm 1] at h ⊢
    obtain ⟨a, s₁, hf, hfirst⟩ := exists_encodeNode f s (by omega)
    obtain ⟨b, s₂, hg, hsecond⟩ := exists_encodeNode g s₁ (by have := hfirst.last_le; omega)
    obtain ⟨z, s', hz, hall⟩ := (hfirst.trans hsecond).exists_define h (.xor f g) (.xor a b)
    exact exists_recallOr
      ⟨z, s', Outcome.bind_eq_ok.mpr ⟨_, hf, Outcome.bind_eq_ok.mpr ⟨_, hg, hz⟩⟩, hall⟩
  | .iff f g, s, h => by
    rw [Formula.connectives, Nat.add_assoc, Nat.add_comm 1] at h ⊢
    obtain ⟨a, s₁, hf, hfirst⟩ := exists_encodeNode f s (by omega)
    obtain ⟨b, s₂, hg, hsecond⟩ := exists_encodeNode g s₁ (by have := hfirst.last_le; omega)
    obtain ⟨z, s', hz, hall⟩ := (hfirst.trans hsecond).exists_define h (.iff f g) (.iff a b)
    exact exists_recallOr
      ⟨z, s', Outcome.bind_eq_ok.mpr ⟨_, hf, Outcome.bind_eq_ok.mpr ⟨_, hg, hz⟩⟩, hall⟩

theorem exists_encodeNodes : ∀ (fs : List Formula) (s : Session),
    s.supply.last + Formula.connectivesAll fs ≤ maxVariable →
    ∃ as s', encodeNodes fs s = .ok (as, s') ∧ s.Draws s' (Formula.connectivesAll fs)
  | [], s, _ => ⟨[], s, rfl, Draws.refl s⟩
  | f :: fs, s, h => by
    rw [Formula.connectivesAll] at h ⊢
    obtain ⟨a, s₁, hf, hfirst⟩ := exists_encodeNode f s (by omega)
    obtain ⟨as, s', hfs, hrest⟩ := exists_encodeNodes fs s₁ (by have := hfirst.last_le; omega)
    exact ⟨a :: as, s', Outcome.bind_eq_ok.mpr ⟨_, hf, Outcome.bind_eq_ok.mpr ⟨_, hfs, rfl⟩⟩,
      hfirst.trans hrest⟩
end

theorem exists_assert {f : Formula} (h : s.supply.last + f.connectives ≤ maxVariable) :
    ∃ s', s.assert f = .ok s' ∧ s.Draws s' f.connectives := by
  obtain ⟨z, s₁, hz, hdraws⟩ :=
    exists_encodeNode f { s with stats.formulas := s.stats.formulas + 1 } h
  exact ⟨_, assert_eq_ok.mpr ⟨z, s₁, hz, rfl⟩, hdraws.memoize_eq, hdraws.last_le, hdraws.last_eq⟩

/-- **Assertions succeed where there is room for one variable per connective.** -/
theorem exists_assertAll (fs : List Formula)
    (h : s.supply.last + Formula.connectivesAll fs ≤ maxVariable) :
    ∃ s', s.assertAll fs = .ok s' ∧ s.Draws s' (Formula.connectivesAll fs) := by
  induction fs generalizing s with
  | nil => exact ⟨s, rfl, Draws.refl s⟩
  | cons f fs ih =>
    rw [Formula.connectivesAll] at h ⊢
    obtain ⟨s₁, hf, hfirst⟩ := exists_assert (s := s) (f := f) (by omega)
    obtain ⟨s', hfs, hrest⟩ := ih (s := s₁) (by have := hfirst.last_le; omega)
    refine ⟨s', ?_, hfirst.trans hrest⟩
    rw [assertAll, List.foldlM_cons]
    exact Outcome.bind_eq_ok.mpr ⟨s₁, hf, hfs⟩

end Session

end Counterbalance
