import Mathlib.Data.List.Forall2
import Counterbalance.Proofs.Design.Faultless
import Counterbalance.Proofs.Design.Order

/-! Designs that declare the same factors in another order. Faults, names and dependencies do not
depend on positions, and neither does it depend on the order of declaration whether there is a
dependency order. -/

namespace Counterbalance.Design

variable {d d' : Design} {f f' t : Nat}

/-- Factor `f` of one design is factor `f'` of the other. -/
structure Twins (d d' : Design) (f f' : Nat) : Prop where
  lt : f < d.length
  lt' : f' < d'.length
  same : d.factorAt f = d'.factorAt f'

theorem Twins.symm (h : d.Twins d' f f') : d'.Twins d f' f := ⟨h.lt', h.lt, h.same.symm⟩

theorem Twins.exists_level (h : d.Twins d' f f') {l : Nat} (hl : l < (d.factorAt f).size) :
    ∃ level, (d.factorAt f).levels[l]? = some level ∧ (d'.factorAt f').levels[l]? = some level := by
  rw [← h.same]
  exact ⟨_, List.getElem?_eq_getElem hl, List.getElem?_eq_getElem hl⟩

theorem Faultless.of_perm (hd : d.Faultless) (h : d.Perm d') : d'.Faultless := by
  have hnames : d.names.Perm d'.names := h.map _
  refine ⟨hnames.nodup_iff.mp hd.names_nodup, fun f hf => hd.fits f (h.mem_iff.mpr hf),
    fun f hf p hp a ha => ?_⟩
  exact hnames.mem_iff.mp (hd.named f (h.mem_iff.mpr hf) p hp a ha)

theorem exists_twin (h : d.Perm d') (hf : f < d.length) : ∃ f', d.Twins d' f f' := by
  obtain ⟨f', hf', hsame⟩ := List.mem_iff_getElem.mp (h.mem_iff.mp (factorAt_mem hf))
  exact ⟨f', hf, hf', by rw [factorAt_eq_getElem hf', hsame]⟩

/-- The name of a factor leads to its twin. -/
theorem Twins.index?_name (ht : d.Twins d' f f') (hd' : d'.Faultless) :
    d'.index? (d.factorAt f).name = some f' := by
  rw [ht.same, hd'.index?_name ht.lt']

theorem Twins.right_unique (hd' : d'.Faultless) {g : Nat} (ht : d.Twins d' f f')
    (hg : d.Twins d' f g) : f' = g :=
  Option.some.inj ((ht.index?_name hd').symm.trans (hg.index?_name hd'))

theorem Twins.index? (ht : d.Twins d' f f') (hd' : d'.Faultless) {name : String}
    (hname : d.index? name = some f) : d'.index? name = some f' := by
  rw [← (factorAt_of_index? hname).2, ht.index?_name hd']

theorem exists_twin_of_index? (h : d.Perm d') (hd' : d'.Faultless) {name : String}
    (hname : d.index? name = some f) : ∃ f', d'.index? name = some f' ∧ d.Twins d' f f' := by
  obtain ⟨f', ht⟩ := exists_twin h (factorAt_of_index? hname).1
  exact ⟨f', ht.index? hd' hname, ht⟩

/-- What a name stands for in both designs. -/
theorem twins_of_index? (h : d.Perm d') (hd' : d'.Faultless) {name : String}
    (hname : d.index? name = some f) (hname' : d'.index? name = some f') : d.Twins d' f f' := by
  obtain ⟨g, hg, ht⟩ := exists_twin_of_index? h hd' hname
  exact Option.some.inj (hg.symm.trans hname') ▸ ht

/-! ## Dependency orders -/

/-- A dependency order of one design is one of the other, twin by twin. -/
theorem Ordered.exists_twins (h : d.Perm d') (hd : d.Faultless) {order : List Nat}
    (hord : d.Ordered order) :
    ∃ order', d'.Ordered order' ∧ List.Forall₂ (d.Twins d') order order' := by
  have hd' := hd.of_perm h
  induction hord with
  | nil => exact ⟨[], .nil, .nil⟩
  | @snoc order f _ hf hnew hargs ih =>
    obtain ⟨order', hord', htwins⟩ := ih
    obtain ⟨f', ht⟩ := exists_twin h hf
    refine ⟨order' ++ [f'], hord'.snoc ht.lt' ?_ ?_, List.rel_append htwins (.cons ht .nil)⟩
    · intro hmem
      obtain ⟨g, hg, htg⟩ := Lists.exists_left_of_mem htwins hmem
      exact hnew (ht.symm.right_unique hd htg.symm ▸ hg)
    · intro p hp
      obtain ⟨a, ha, hindex⟩ := hargs p (ht.same ▸ hp)
      obtain ⟨a', ha', hta⟩ := Lists.exists_right_of_mem htwins ha
      exact ⟨a', ha', hta.index? hd' hindex⟩

/-- A visit succeeds if its factor is in some dependency order and no factor of this one is on the
path. -/
theorem exists_visit {reference : List Nat} (hord : d.Ordered reference) :
    ∀ f ∈ reference, ∀ free path order, reference ⊆ free →
      ∃ order', d.visit free path order f = .ok order' := by
  induction hord with
  | nil => exact fun f hf => absurd hf List.not_mem_nil
  | @snoc reference g hreference hg hnew hargs ih =>
    intro f hf free path order hsub
    obtain ⟨hearlier, hlast⟩ := List.append_subset.mp hsub
    rcases List.mem_append.mp hf with hf | hf
    · exact ih f hf free path order hearlier
    · obtain rfl := List.mem_singleton.mp hf
      rw [visit]
      split
      · exact ⟨order, rfl⟩
      · rw [dif_pos (hlast List.mem_cons_self)]
        -- the arguments are earlier in the reference, so they stay off the path that `f` is put on
        have hfree : reference ⊆ free.erase f := fun a ha =>
          (List.mem_erase_of_ne fun heq : a = f => hnew (heq ▸ ha)).mpr (hearlier ha)
        refine Outcome.exists_bind_eq_ok (Outcome.exists_foldlM_eq_ok (fun p hp o => ?_) order)
          fun order₁ => ⟨order₁ ++ [f], rfl⟩
        obtain ⟨a, ha, hindex⟩ := hargs p hp
        obtain ⟨o', ho'⟩ := ih a ha (free.erase f) (path ++ [f]) o hfree
        exact ⟨o', by simp only [hindex, ho']⟩

/-- **The walk finds a dependency order if there is one.** -/
theorem exists_dependencyOrder {reference : List Nat} (hord : d.Ordered reference)
    (hall : ∀ f < d.length, f ∈ reference) : ∃ order, d.dependencyOrder = .ok order :=
  Outcome.exists_foldlM_eq_ok (fun f hf order =>
    exists_visit hord f (hall f (List.mem_range.mp hf)) _ [] order fun g hg =>
      List.mem_range.mpr (hord.lt g hg)) []

theorem exists_dependencyOrder_of_perm (h : d.Perm d') (hd : d.Faultless) {order : List Nat}
    (horder : d.dependencyOrder = .ok order) : ∃ order', d'.dependencyOrder = .ok order' := by
  obtain ⟨hord, hall⟩ := ordered_of_dependencyOrder horder
  obtain ⟨order', hord', htwins⟩ := hord.exists_twins h hd
  refine exists_dependencyOrder hord' fun f' hf' => ?_
  obtain ⟨f, ht⟩ := exists_twin h.symm hf'
  obtain ⟨g, hg, htg⟩ := Lists.exists_right_of_mem htwins (hall f ht.lt')
  exact htg.right_unique (hd.of_perm h) ht.symm ▸ hg

end Counterbalance.Design
