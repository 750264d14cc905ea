import Mathlib.Logic.Relation
import Counterbalance.Proofs.Design.Cycle
import Counterbalance.Proofs.Design.Faultless

/-! When there is a dependency order, and which one is found. A dependency order numbers the factors
so that what a factor reads has a smaller number, which rules out cycles. Conversely an error is
made where a name is unknown or where the walk has closed a cycle. A design that is declared in such
an order keeps it, because every argument is done before a factor comes to be entered. -/

namespace Counterbalance.Design

variable {d : Design}

/-- No factor depends on itself, directly or through others. -/
def Acyclic (d : Design) : Prop := ∀ f, ¬ Relation.TransGen d.Reads f f

theorem Cycle.exists_transGen {cycle : List Nat} (h : d.Cycle cycle) :
    ∃ f, Relation.TransGen d.Reads f f := by
  obtain ⟨hlength, hclosed, _, _, hreads⟩ := h
  match cycle, hlength with
  | f :: g :: rest, _ =>
    rw [List.isChain_cons_cons] at hreads
    have hlast : (g :: rest).getLast (List.cons_ne_nil g rest) = f := by
      rw [List.getLast?_cons_cons, List.getLast?_eq_some_getLast (List.cons_ne_nil g rest)]
        at hclosed
      exact (Option.some.inj hclosed).symm
    exact ⟨f,
      .head' hreads.1 (List.relationReflTransGen_of_exists_isChain_cons rest hreads.2 hlast)⟩

/-! ## Numbers in an order -/

theorem lt_of_reads {f a : Nat} (h : d.Reads f a) : f < d.length := by
  obtain ⟨p, hp, _⟩ := h
  obtain ⟨l, level, hl, _⟩ := mem_argumentNames.mp hp
  exact lt_of_derivedLevel hl

/-- What a factor reads comes before it. -/
theorem Ordered.idxOf_lt {order : List Nat} (h : d.Ordered order) {f a : Nat} (hf : f ∈ order)
    (ha : d.Reads f a) : order.idxOf a < order.idxOf f := by
  induction h with
  | nil => cases hf
  | @snoc order g hord _ hnew hargs ih =>
    by_cases hold : f ∈ order
    · rw [List.idxOf_append_of_mem hold, List.idxOf_append_of_mem (hord.mem_of_reads hold ha)]
      exact ih hold
    · obtain rfl : f = g := by simpa [hold] using hf
      rw [List.idxOf_append_of_mem (ha.mem hargs), List.idxOf_append_of_notMem hnew]
      exact Nat.lt_add_right _ (List.idxOf_lt_length_of_mem (ha.mem hargs))

theorem Ordered.acyclic {order : List Nat} (h : d.Ordered order)
    (hall : ∀ f < d.length, f ∈ order) : d.Acyclic := by
  have hdecreases : ∀ f a, Relation.TransGen d.Reads f a → order.idxOf a < order.idxOf f := by
    intro f a hfa
    induction hfa with
    | single hreads => exact h.idxOf_lt (hall _ (lt_of_reads hreads)) hreads
    | tail _ hreads ih => exact Nat.lt_trans (h.idxOf_lt (hall _ (lt_of_reads hreads)) hreads) ih
  exact fun f hf => Nat.lt_irrefl _ (hdecreases f f hf)

/-! ## Existence -/

/-- Every argument of every derived level names a factor. -/
def Named (d : Design) : Prop :=
  ∀ f ∈ d, ∀ p ∈ f.derivedLevels, ∀ argument ∈ p.2.arguments, argument ∈ d.names

theorem Ordered.named {order : List Nat} (h : d.Ordered order) (hall : ∀ f < d.length, f ∈ order) :
    d.Named := by
  intro f hf p hp argument ha
  obtain ⟨i, hi, rfl⟩ := List.mem_iff_getElem.mp hf
  rw [← factorAt_eq_getElem hi] at hp
  obtain ⟨_, _, hindex⟩ := h.argument_mem (hall i hi) (p.2.name, argument)
    (mem_argumentNames.mpr ⟨p.1, p.2, hp, ha, rfl⟩)
  by_contra hnot
  rw [index?_eq_none_iff.mpr hnot] at hindex
  cases hindex

theorem Named.index?_ne_none (h : d.Named) {f : Nat} {p : String × String}
    (hp : p ∈ (d.factorAt f).argumentNames) : d.index? p.2 ≠ none := by
  obtain ⟨l, level, hl, ha, _⟩ := mem_argumentNames.mp hp
  rw [Ne, index?_eq_none_iff, not_not]
  exact h _ (factorAt_mem (lt_of_derivedLevel hl)) _ hl _ ha

theorem exists_dependencyOrder_iff :
    (∃ order, d.dependencyOrder = .ok order) ↔ d.Named ∧ d.Acyclic := by
  refine ⟨fun ⟨order, h⟩ => ?_, fun ⟨hnamed, hacyclic⟩ => ?_⟩
  · obtain ⟨hord, hall⟩ := ordered_of_dependencyOrder h
    exact ⟨hord.named hall, hord.acyclic hall⟩
  · cases h : d.dependencyOrder with
    | ok order => exact ⟨order, rfl⟩
    | error e =>
      exfalso
      cases raised_of_dependencyOrder h with
      | cycle hreached _ hfree =>
        obtain ⟨i, hi⟩ := hreached.exists_idxOf? hfree
        obtain ⟨f, hf⟩ := (hreached.trail.cycle hi).exists_transGen
        exact hacyclic f hf
      | unknown hp hnone => exact hnamed.index?_ne_none hp hnone

/-! ## Designs in order -/

/-- Every argument names a factor that is declared before. -/
def InOrder (d : Design) : Prop :=
  ∀ f < d.length, ∀ p ∈ (d.factorAt f).derivedLevels, ∀ argument ∈ p.2.arguments,
    ∃ a < f, d.index? argument = some a

/-- A factor whose arguments are all done is appended at once. -/
theorem visit_of_done {free path order : List Nat} {f : Nat} (h : f ∉ order) (hf : f ∈ free)
    (hdone : ∀ p ∈ (d.factorAt f).argumentNames, ∃ a ∈ order, d.index? p.2 = some a) :
    d.visit free path order f = .ok (order ++ [f]) := by
  have hargs : ∀ args ⊆ (d.factorAt f).argumentNames,
      args.foldlM (d.visitArgument free path f) order = .ok order := by
    intro args hsub
    induction args with
    | nil => rfl
    | cons p args ih =>
      obtain ⟨hp, hsub⟩ := List.cons_subset.mp hsub
      obtain ⟨a, ha, hindex⟩ := hdone p hp
      rw [List.foldlM_cons]
      simp only [visitArgument, hindex, visit_of_mem ha]
      exact ih hsub
  rw [visit_of_free h hf, hargs _ (List.Subset.refl _)]
  rfl

theorem InOrder.dependencyOrder_eq (h : d.InOrder) :
    d.dependencyOrder = .ok (List.range d.length) := by
  have hall : ∀ n ≤ d.length, (List.range n).foldlM (d.visit (List.range d.length) []) [] =
      .ok (List.range n) := by
    intro n hn
    induction n with
    | zero => rfl
    | succ n ih =>
      have hvisit : d.visit (List.range d.length) [] (List.range n) n =
          .ok (List.range n ++ [n]) := by
        refine visit_of_done (by simp) (List.mem_range.mpr hn) fun p hp => ?_
        obtain ⟨l, level, hl, ha, _⟩ := mem_argumentNames.mp hp
        obtain ⟨a, hlt, hindex⟩ := h n hn _ hl _ ha
        exact ⟨a, List.mem_range.mpr hlt, hindex⟩
      rw [List.range_succ, List.foldlM_append]
      refine Outcome.bind_eq_ok.mpr ⟨_, ih (Nat.le_of_succ_le hn), ?_⟩
      rw [List.foldlM_cons, hvisit]
      rfl
  exact hall d.length (Nat.le_refl _)

/-- **The dependency order is a topological sort.** The walk ends, on paths no longer than there are
factors. It finds an order exactly if all arguments name factors and no factor depends on itself;
the order lists every factor once, each after what it reads, and is that of the declarations if this
one will do. -/
theorem dependencyOrder_sorts (d : Design) :
    (∀ free path order f, d.Reached free path order f → path.length ≤ d.length) ∧
    ((∃ order, d.dependencyOrder = .ok order) ↔ d.Named ∧ d.Acyclic) ∧
    (∀ order, d.dependencyOrder = .ok order →
      order.Perm (List.range d.length) ∧ ∀ f a, d.Reads f a → order.idxOf a < order.idxOf f) ∧
    (d.InOrder → d.dependencyOrder = .ok (List.range d.length)) := by
  refine ⟨fun _ _ _ _ h => h.length_path_le, exists_dependencyOrder_iff, fun order h => ?_,
    InOrder.dependencyOrder_eq⟩
  obtain ⟨hord, hall⟩ := ordered_of_dependencyOrder h
  exact ⟨hord.perm_range hall, fun f a hreads => hord.idxOf_lt (hall f (lt_of_reads hreads)) hreads⟩

/-- Whether colour and text agree, declared before both. -/
def congruent : Design :=
  [⟨"congruent", [.derived ⟨"yes", .withinTrial, .equal, ["color", "text"]⟩]⟩,
    ⟨"color", [.simple "red", .simple "green"]⟩, ⟨"text", [.simple "red", .simple "green"]⟩]

/-- Colour and text are moved before what reads them; declared in the opposite order, the design
stays as it is. -/
theorem dependencyOrder_sorts_congruent :
    congruent.dependencyOrder = .ok [1, 2, 0] ∧ congruent.Named ∧ congruent.Acyclic ∧
    congruent.Reads 0 2 ∧ [1, 2, 0].idxOf 2 < [1, 2, 0].idxOf 0 ∧
    congruent.Reached [1, 2] [0] [] 1 ∧ [0].length ≤ congruent.length ∧
    InOrder congruent.reverse ∧ dependencyOrder congruent.reverse = .ok [0, 1, 2] := by
  have hrun : congruent.dependencyOrder = .ok [1, 2, 0] := by decide +kernel
  have hreads : congruent.Reads 0 2 := ⟨("yes", "text"), by decide, by decide⟩
  have hargs : (congruent.factorAt 0).argumentNames = [] ++ ("yes", "color") :: [("yes", "text")] :=
    rfl
  have hstart : congruent.Reached [0, 1, 2] [] [] 0 := .start (by decide) rfl
  have hreached : congruent.Reached [1, 2] [0] [] 1 :=
    hstart.argument (by decide) (by decide) hargs rfl (by decide)
  have hinOrder : InOrder congruent.reverse := by
    unfold InOrder
    decide
  obtain ⟨hends, hexists, hsorted, _⟩ := dependencyOrder_sorts congruent
  obtain ⟨hnamed, hacyclic⟩ := hexists.mp ⟨_, hrun⟩
  exact ⟨hrun, hnamed, hacyclic, hreads, (hsorted _ hrun).2 0 2 hreads, hreached,
    hends _ _ _ _ hreached, hinOrder, (dependencyOrder_sorts congruent.reverse).2.2.2 hinOrder⟩

end Counterbalance.Design
