import Mathlib.Data.List.Nodup
import Counterbalance.Design.DependencyOrder
import Counterbalance.Proofs.Outcome

/-! Dependency orders. The depth first walk only appends factors whose arguments are already there,
so what it returns lists every factor once and after all factors that it reads. Facts about all
factors follow by induction along what they read. -/

namespace Counterbalance.Design

variable {d : Design}

/-- A level of factor `f` has factor `a` as an argument. -/
def Reads (d : Design) (f a : Nat) : Prop :=
  ∃ p ∈ (d.factorAt f).argumentNames, d.index? p.2 = some a

theorem mem_argumentNames {f : Factor} {p : String × String} :
    p ∈ f.argumentNames ↔ ∃ l level, (l, level) ∈ f.derivedLevels ∧ p.2 ∈ level.arguments ∧
      p.1 = level.name := by
  simp only [Factor.argumentNames, List.mem_flatMap, List.mem_map, Prod.exists]
  constructor
  · rintro ⟨l, level, hl, a, ha, rfl⟩
    exact ⟨l, level, hl, ha, rfl⟩
  · rintro ⟨l, level, hl, ha, hp⟩
    exact ⟨l, level, hl, p.2, ha, Prod.ext hp.symm rfl⟩

theorem reads_of_argument {f a l : Nat} {level : DerivedLevel} {argument : String}
    (hl : (l, level) ∈ (d.factorAt f).derivedLevels) (ha : argument ∈ level.arguments)
    (hindex : d.index? argument = some a) : d.Reads f a :=
  ⟨(level.name, argument), mem_argumentNames.mpr ⟨l, level, hl, ha, rfl⟩, hindex⟩

/-- Where all argument names of a factor are taken, so is every factor that it reads. -/
theorem Reads.mem {order : List Nat} {f a : Nat} (h : d.Reads f a)
    (hargs : ∀ p ∈ (d.factorAt f).argumentNames, ∃ a ∈ order, d.index? p.2 = some a) :
    a ∈ order := by
  obtain ⟨p, hp, hindex⟩ := h
  obtain ⟨a', ha', hindex'⟩ := hargs p hp
  rw [hindex] at hindex'
  exact Option.some.inj hindex' ▸ ha'

/-- No factor occurs twice, and every factor comes after its arguments, which all name factors. -/
inductive Ordered (d : Design) : List Nat → Prop
  | nil : Ordered d []
  | snoc {order : List Nat} {f : Nat} : Ordered d order → f < d.length → f ∉ order →
      (∀ p ∈ (d.factorAt f).argumentNames, ∃ a ∈ order, d.index? p.2 = some a) →
        Ordered d (order ++ [f])

theorem Ordered.lt {order : List Nat} (h : d.Ordered order) : ∀ f ∈ order, f < d.length := by
  induction h with
  | nil => simp
  | snoc _ hlt _ _ ih =>
    intro g hg
    rcases List.mem_append.mp hg with hg | hg
    · exact ih g hg
    · exact List.mem_singleton.mp hg ▸ hlt

theorem Ordered.nodup {order : List Nat} (h : d.Ordered order) : order.Nodup := by
  induction h with
  | nil => exact List.nodup_nil
  | snoc _ _ hnew _ ih => exact List.nodup_append.mpr ⟨ih, List.nodup_singleton _, by grind⟩

theorem Ordered.perm_range {order : List Nat} (h : d.Ordered order)
    (hall : ∀ f < d.length, f ∈ order) : order.Perm (List.range d.length) := by
  rw [List.perm_ext_iff_of_nodup h.nodup List.nodup_range]
  exact fun f => ⟨fun hf => List.mem_range.mpr (h.lt f hf), fun hf => hall f (List.mem_range.mp hf)⟩

/-- All arguments of a factor of the order name factors of the order. -/
theorem Ordered.argument_mem {order : List Nat} (h : d.Ordered order) {f : Nat} (hf : f ∈ order) :
    ∀ p ∈ (d.factorAt f).argumentNames, ∃ a ∈ order, d.index? p.2 = some a := by
  induction h with
  | nil => cases hf
  | snoc _ _ _ hargs ih =>
    intro p hp
    rcases List.mem_append.mp hf with hf | hf
    · obtain ⟨a, ha, hindex⟩ := ih hf p hp
      exact ⟨a, List.mem_append_left _ ha, hindex⟩
    · obtain rfl := List.mem_singleton.mp hf
      obtain ⟨a, ha, hindex⟩ := hargs p hp
      exact ⟨a, List.mem_append_left _ ha, hindex⟩

/-- What a factor of the order reads is in the order, too. -/
theorem Ordered.mem_of_reads {order : List Nat} (h : d.Ordered order) {f a : Nat} (hf : f ∈ order)
    (ha : d.Reads f a) : a ∈ order :=
  ha.mem (h.argument_mem hf)

/-- Induction along the factors that a factor reads. -/
theorem Ordered.induct {order : List Nat} {P : Nat → Prop} (h : d.Ordered order)
    (step : ∀ f < d.length, (∀ a, d.Reads f a → P a) → P f) : ∀ f ∈ order, P f := by
  induction h with
  | nil => simp
  | snoc _ hlt _ hargs ih =>
    intro g hg
    rcases List.mem_append.mp hg with hg | hg
    · exact ih g hg
    · obtain rfl := List.mem_singleton.mp hg
      exact step g hlt fun a ha => ih a (ha.mem hargs)

/-! ## The walk -/

/-- What the walk does to an order: it appends factors that are not on its path. -/
structure Extended (d : Design) (free order order' : List Nat) : Prop where
  ordered : d.Ordered order'
  keeps : ∀ g ∈ order, g ∈ order'
  drawn : ∀ g ∈ order', g ∈ order ∨ g ∈ free

theorem Extended.refl {free order : List Nat} (h : d.Ordered order) : d.Extended free order order :=
  ⟨h, fun _ hg => hg, fun _ hg => .inl hg⟩

theorem Extended.trans {free order order₁ order' : List Nat} (h : d.Extended free order order₁)
    (h' : d.Extended free order₁ order') : d.Extended free order order' where
  ordered := h'.ordered
  keeps := fun g hg => h'.keeps g (h.keeps g hg)
  drawn := by
    intro g hg
    rcases h'.drawn g hg with hg | hg
    · exact h.drawn g hg
    · exact .inr hg

/-- A fold whose steps extend the order, each by the factor that its element names, does so as a
whole. -/
theorem extended_of_foldlM {α : Type} (free : List Nat) (names : α → Nat → Prop)
    {step : List Nat → α → Except DesignError (List Nat)} {xs : List α} {order order' : List Nat}
    (hstep : ∀ x ∈ xs, ∀ order order', d.Ordered order → step order x = .ok order' →
      d.Extended free order order' ∧ ∃ a ∈ order', names x a)
    (hord : d.Ordered order) (h : xs.foldlM step order = .ok order') :
    d.Extended free order order' ∧ ∀ x ∈ xs, ∃ a ∈ order', names x a := by
  induction xs generalizing order with
  | nil => exact Except.ok.inj h ▸ ⟨Extended.refl hord, by simp⟩
  | cons x xs ih =>
    rw [List.foldlM_cons] at h
    obtain ⟨order₁, hx, hxs⟩ := Outcome.bind_eq_ok.mp h
    obtain ⟨hext, a, ha, hname⟩ := hstep x List.mem_cons_self order order₁ hord hx
    obtain ⟨hext', hall⟩ := ih (fun y hy => hstep y (List.mem_cons_of_mem x hy)) hext.ordered hxs
    refine ⟨hext.trans hext', fun y hy => ?_⟩
    rcases List.mem_cons.mp hy with rfl | hy
    · exact ⟨a, hext'.keeps a ha, hname⟩
    · exact hall y hy

/-- A visit that succeeds leaves its factor behind all factors that this one reads. -/
theorem extended_of_visit {free path order order' : List Nat} {f : Nat} (hfree : free.Nodup)
    (hord : d.Ordered order) (hf : f < d.length) (h : d.visit free path order f = .ok order') :
    d.Extended free order order' ∧ f ∈ order' := by
  rw [visit] at h
  split at h
  · rename_i hmem
    exact Except.ok.inj h ▸ ⟨Extended.refl hord, hmem⟩
  · rename_i hnew
    split at h
    · rename_i hin
      obtain ⟨order₁, hfold, h⟩ := Outcome.bind_eq_ok.mp h
      obtain rfl := Except.ok.inj h
      -- inside the walk `f` is on the path, so the visits of its arguments do not append it
      obtain ⟨hext, hargs⟩ := extended_of_foldlM (free.erase f) (fun p a => d.index? p.2 = some a)
        (fun ⟨level, argument⟩ _ o o' ho hstep => by
          simp only at hstep
          split at hstep
          · cases hstep
          · rename_i a ha
            obtain ⟨hlt, _⟩ := factorAt_of_index? ha
            obtain ⟨he, hm⟩ := extended_of_visit (hfree.erase f) ho hlt hstep
            exact ⟨he, a, hm, ha⟩) hord hfold
      have hnew₁ : f ∉ order₁ := fun hmem => (hext.drawn f hmem).elim hnew hfree.not_mem_erase
      refine ⟨⟨hext.ordered.snoc hf hnew₁ hargs, ?_, ?_⟩, by simp⟩
      · exact fun g hg => List.mem_append_left _ (hext.keeps g hg)
      · intro g hg
        rcases List.mem_append.mp hg with hg | hg
        · exact (hext.drawn g hg).imp_right List.mem_of_mem_erase
        · exact .inr (List.mem_singleton.mp hg ▸ hin)
    · cases h
termination_by free.length
decreasing_by exact Lists.length_erase_lt ‹_›

/-- **The dependency order lists every factor once, after all factors that it reads.** -/
theorem ordered_of_dependencyOrder {order : List Nat} (h : d.dependencyOrder = .ok order) :
    d.Ordered order ∧ ∀ f < d.length, f ∈ order := by
  obtain ⟨hext, hall⟩ := extended_of_foldlM (List.range d.length) (fun f a => f = a)
    (fun f hf o o' ho hv => by
      obtain ⟨he, hm⟩ := extended_of_visit List.nodup_range ho (List.mem_range.mp hf) hv
      exact ⟨he, f, hm, rfl⟩) Ordered.nil h
  refine ⟨hext.ordered, fun f hf => ?_⟩
  obtain ⟨a, ha, rfl⟩ := hall f (List.mem_range.mpr hf)
  exact ha

end Counterbalance.Design
