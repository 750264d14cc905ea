import Mathlib.Order.Interval.Set.Basic
import Mathlib.Order.Interval.Set.LinearOrder
import Counterbalance.Proofs.Logic.Forest

/-! The meaning of encodings. The clauses that an encoding emits define exactly the variables that
it draws, and wherever they hold, the literal of a formula has the formula's truth value. The
invariant is that all remembered literals stand for their nodes; clauses and variables that come
later do not disturb it. -/

namespace Counterbalance

/-- Where the clauses hold, the literal has the truth value of the formula. It is among the
variables up to `n`. -/
structure Formula.Stands (n : Nat) (ds : List Clause) (f : Formula) (z : Literal) : Prop where
  var_le : z.var ≤ n
  eval_eq : ∀ ν, Holds ν ds → z.eval ν = f.eval ν

theorem Formula.Stands.mono {n m : Nat} {ds cs : List Clause} {f : Formula} {z : Literal}
    (h : f.Stands n ds z) (hnm : n ≤ m) : f.Stands m (ds ++ cs) z :=
  ⟨Nat.le_trans h.var_le hnm, fun ν hν => h.eval_eq ν (holds_append.mp hν).1⟩

namespace Session

/-- The second session comes from the first by emitting clauses that define the variables drawn. -/
structure Grows (s s' : Session) (cs : List Clause) : Prop where
  emitted : s'.cnf.toList = s.cnf.toList ++ cs
  last_le : s.supply.last ≤ s'.supply.last
  within : ∀ c ∈ cs, c.Within s'.supply.last
  defines : Defines (Set.Ioc s.supply.last s'.supply.last) cs

/-- Every remembered literal stands for its node. -/
def Recalls (s : Session) (ds : List Clause) : Prop :=
  ∀ (f : Formula) (z : Literal), s.memo[f]? = some z → f.Stands s.supply.last ds z

theorem Recalls.start (supply : Supply) (memoize : Bool) (ds : List Clause) :
    (Session.start supply memoize).Recalls ds := by
  intro f z h
  simp [Session.start] at h

theorem Grows.refl (s : Session) : s.Grows s [] :=
  ⟨by simp, Nat.le_refl _, by simp, by rw [Set.Ioc_self]; exact Defines.nil⟩

theorem Grows.trans {s s₁ s' : Session} {cs ds : List Clause} (h : s.Grows s₁ cs)
    (h' : s₁.Grows s' ds) : s.Grows s' (cs ++ ds) where
  emitted := by rw [h'.emitted, h.emitted, List.append_assoc]
  last_le := Nat.le_trans h.last_le h'.last_le
  within := by
    intro c hc
    rcases List.mem_append.mp hc with hc | hc
    · exact (h.within c hc).mono h'.last_le
    · exact h'.within c hc
  defines := by
    rw [← Set.Ioc_union_Ioc_eq_Ioc h.last_le h'.last_le]
    exact h.defines.append h'.defines fun c hc l hl hv =>
      Nat.not_lt.mpr (h.within c hc l hl) hv.1

/-- A definition emits the clauses of a gate, which define the variable drawn. -/
theorem grows_of_define {s s' : Session} {f : Formula} {g : Gate} {z : Literal}
    (h : s.define f g = .ok (z, s')) (hg : ∀ l ∈ g.inputs, l.var ≤ s.supply.last) :
    s.Grows s' (g.clauses z) := by
  obtain ⟨hz, _, rfl⟩ := define_eq_ok h
  have hvar : z.var = s.supply.last + 1 := by rw [Literal.var, hz]; rfl
  have hpos : z.isPositive = true := by
    rw [Literal.isPositive, hz, decide_eq_true_eq]
    omega
  refine ⟨by simp [Cnf.toList], Nat.le_succ _, ?_, ?_⟩
  · exact Gate.within_clauses (Nat.le_of_eq hvar) fun l hl => Nat.le_succ_of_le (hg l hl)
  · have hset : Set.Ioc s.supply.last (s.supply.last + 1) = {z.var} := by
      ext v
      rw [Set.mem_Ioc, Set.mem_singleton_iff, hvar]
      omega
    rw [hset]
    exact Gate.defines hpos fun l hl => by have := hg l hl; omega

/-- The variable of a defined node stands for it if the inputs of its gate stand for its
arguments. -/
theorem stands_of_define {s s' : Session} {f : Formula} {es : List Formula} {as : List Literal}
    {g : Gate} {z : Literal} {ds : List Clause} (h : s.define f g = .ok (z, s'))
    (hn : f.Node es as g) (has : List.Forall₂ (Formula.Stands s.supply.last ds) es as) :
    f.Stands s'.supply.last (ds ++ g.clauses z) z := by
  obtain ⟨hz, _, rfl⟩ := define_eq_ok h
  refine ⟨by rw [Literal.var, hz]; rfl, fun ν hν => ?_⟩
  obtain ⟨hds, hgate⟩ := holds_append.mp hν
  rw [Gate.holds_clauses_iff.mp hgate]
  exact hn.eval (has.imp fun e a ha => ha.eval_eq ν hds)

theorem recalls_of_define {s s' : Session} {f : Formula} {g : Gate} {z : Literal}
    {ds cs : List Clause} (h : s.define f g = .ok (z, s')) (hs : s.Recalls ds)
    (hz : f.Stands s'.supply.last (ds ++ cs) z) : s'.Recalls (ds ++ cs) := by
  obtain ⟨_, _, rfl⟩ := define_eq_ok h
  intro e y he
  have hold : s.memo[e]? = some y → e.Stands (s.supply.last + 1) (ds ++ cs) y :=
    fun he => (hs e y he).mono (Nat.le_succ _)
  cases hm : s.memoize with
  | false => exact hold (by simpa [hm] using he)
  | true =>
    simp only [hm, if_true, Std.HashMap.getElem?_insert] at he
    split at he
    · rename_i hfe
      obtain rfl := eq_of_beq hfe
      obtain rfl := Option.some.inj he
      exact hz
    · exact hold he

/-- Encoding a forest keeps what is remembered, and its literals stand for its formulas. -/
theorem Encodes.sound {fs : List Formula} {as : List Literal} {s s' : Session}
    (h : Encodes fs s as s') {ds : List Clause} (hin : ∀ f ∈ fs, f.Within s.supply.last)
    (hs : s.Recalls ds) :
    ∃ cs, s.Grows s' cs ∧ s'.Recalls (ds ++ cs) ∧
      List.Forall₂ (Formula.Stands s'.supply.last (ds ++ cs)) fs as := by
  induction h generalizing ds with
  | @nil s => exact ⟨[], Grows.refl s, by simpa using hs, .nil⟩
  | @literal l fs as s s' _ ih =>
    obtain ⟨cs, hgrow, hrec, hall⟩ := ih (fun f hf => hin f (List.mem_cons_of_mem _ hf)) hs
    have hl : l.var ≤ s.supply.last :=
      hin (.literal l) List.mem_cons_self l (by simp [Formula.leaves])
    exact ⟨cs, hgrow, hrec, .cons ⟨Nat.le_trans hl hgrow.last_le, fun ν _ => rfl⟩ hall⟩
  | @recalled f z fs as s s' _ _ hz _ ih =>
    obtain ⟨cs, hgrow, hrec, hall⟩ := ih (fun f hf => hin f (List.mem_cons_of_mem _ hf)) hs
    exact ⟨cs, ⟨hgrow.emitted, hgrow.last_le, hgrow.within, hgrow.defines⟩, hrec,
      .cons ((hs f z hz).mono hgrow.last_le) hall⟩
  | @node f es bs g z fs as s s₁ s₂ s' hn _ _ hd _ ihes ihfs =>
    obtain ⟨cs₁, hgrow₁, hrec₁, hall₁⟩ := ihes (hn.within (hin f List.mem_cons_self)) hs
    have hinputs : ∀ l ∈ g.inputs, l.var ≤ s₁.supply.last := by
      intro l hl
      obtain ⟨e, _, he⟩ := Lists.exists_left_of_mem hall₁ (hn.inputs ▸ hl)
      exact he.var_le
    have hgrow₂ := grows_of_define hd hinputs
    have hgrow₁₂ := hgrow₁.trans hgrow₂
    have hz := stands_of_define hd hn hall₁
    have hrec₂ : s₂.Recalls (ds ++ (cs₁ ++ g.clauses z)) := by
      rw [← List.append_assoc]
      exact recalls_of_define hd hrec₁ hz
    obtain ⟨cs₂, hgrow₃, hrec₃, hall₃⟩ :=
      ihfs (fun e he => (hin e (List.mem_cons_of_mem _ he)).mono hgrow₁₂.last_le) hrec₂
    refine ⟨cs₁ ++ g.clauses z ++ cs₂, hgrow₁₂.trans hgrow₃, ?_, ?_⟩
    · rw [← List.append_assoc]
      exact hrec₃
    · rw [← List.append_assoc]
      exact .cons (by simpa only [List.append_assoc] using hz.mono hgrow₃.last_le) hall₃

/-- Encoding a formula keeps what is remembered, and its root stands for it. -/
theorem encode_sound {s s' : Session} {f : Formula} {z : Literal} {ds : List Clause}
    (h : s.encode f = .ok (z, s')) (hin : f.Within s.supply.last) (hs : s.Recalls ds) :
    ∃ cs, s.Grows s' cs ∧ s'.Recalls (ds ++ cs) ∧ f.Stands s'.supply.last (ds ++ cs) z := by
  have hin' : ∀ e ∈ [f], e.Within s.supply.last := by
    simpa only [List.mem_singleton, forall_eq] using hin
  obtain ⟨cs, hgrow, hrec, hall⟩ := (encodes_of_encodeNode h).sound hin' hs
  rw [List.forall₂_cons] at hall
  exact ⟨cs, ⟨hgrow.emitted, hgrow.last_le, hgrow.within, hgrow.defines⟩, hrec, hall.1⟩

end Session

end Counterbalance
