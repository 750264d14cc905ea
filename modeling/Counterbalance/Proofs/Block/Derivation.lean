import Counterbalance.Block.Derivation
import Counterbalance.Proofs.Block.Layout
import Counterbalance.Proofs.Design.Odometer
import Counterbalance.Proofs.Design.Product

/-! The derivation table. After the walk along the dependency order every derived level has one
derivation: the combinations of its arguments' levels that its predicate accepts, where a derived
argument only ranges over levels with a derivation of at least one combination. No other data index
has a derivation. -/

namespace Counterbalance

namespace DerivationTable

theorem mem_toList {table : DerivationTable} {drv : Derivation} :
    drv ∈ table.toList ↔ ∃ i, table.get? i = some drv := by
  rw [toList, List.mem_filterMap]
  simp only [id_eq, exists_eq_right, List.mem_iff_getElem?, Array.getElem?_toList, get?,
    Option.join_eq_some_iff]

theorem size_insert (table : DerivationTable) (drv : Derivation) :
    (table.insert drv).slots.size = table.slots.size := Array.size_setIfInBounds

theorem get?_replicate_none (n i : Nat) :
    (DerivationTable.mk (Array.replicate n none)).get? i = none := by
  rw [get?, Array.getElem?_replicate]
  split <;> rfl

end DerivationTable

namespace Block

variable {b : Block}

theorem accepted_eq_filter (level : DerivedLevel) (domains : List (List Nat)) :
    b.accepted level domains =
      (product domains).filter fun c => level.predicate.accepts (c.filterMap b.levelName?) := by
  rw [accepted, Odometer.readings_eq_product]

theorem mem_accepted {level : DerivedLevel} {domains : List (List Nat)} {c : Combination} :
    c ∈ b.accepted level domains ↔ List.Forall₂ (fun i domain => i ∈ domain) c domains ∧
      level.predicate.accepts (c.filterMap b.levelName?) = true := by
  rw [accepted_eq_filter, List.mem_filter, mem_product]

theorem mem_domain {table : DerivationTable} {a i : Nat} :
    i ∈ b.domain table a ↔ ∃ l < (b.design.factorAt a).size, i = b.dataIndex a l ∧
      ((b.design.factorAt a).isDerived = true →
        ∃ drv, table.get? i = some drv ∧ drv.combinations ≠ []) := by
  have hindices : i ∈ b.dataIndices a ↔ ∃ l < (b.design.factorAt a).size, i = b.dataIndex a l := by
    simp only [dataIndices, List.mem_map, List.mem_range, eq_comm]
  unfold domain
  split
  · rename_i hderived
    have hentry : (table.get? i).any (!·.isEmpty) = true ↔
        ∃ drv, table.get? i = some drv ∧ drv.combinations ≠ [] := by
      simp [Option.any_eq_true, Derivation.isEmpty]
    rw [List.mem_filter, hindices, hentry]
    grind
  · rename_i hsimple
    rw [hindices]
    grind

/-- The domain of a factor only depends on the derivations of its own levels. -/
theorem domain_congr {table table' : DerivationTable} {a : Nat}
    (h : ∀ l < (b.design.factorAt a).size,
      table'.get? (b.dataIndex a l) = table.get? (b.dataIndex a l)) :
    b.domain table' a = b.domain table a := by
  unfold domain
  split
  · refine List.filter_congr fun i hi => ?_
    obtain ⟨l, hl, rfl⟩ := List.mem_map.mp hi
    rw [h l (List.mem_range.mp hl)]
  · rfl

/-- The derivation `drv` of level `l` of factor `f`, where `table` holds those of its arguments. -/
def Derives (b : Block) (table : DerivationTable) (f l : Nat) (w : Window) (level : DerivedLevel)
    (drv : Derivation) : Prop :=
  level.predicate.arity = level.arguments.length ∧
  ∃ domains, List.Forall₂
      (fun argument domain => ∃ a, b.design.index? argument = some a ∧ domain = b.domain table a)
      level.arguments domains ∧
    drv = ⟨b.dataIndex f l, (b.accepted level domains).map (w.shift b.trialSize)⟩

theorem Derives.level_eq {table : DerivationTable} {f l : Nat} {w : Window} {level : DerivedLevel}
    {drv : Derivation} (h : b.Derives table f l w level drv) :
    drv.level = b.dataIndex f l := by
  obtain ⟨_, _, _, rfl⟩ := h
  rfl

/-- Arguments that name factors have the domains of these. -/
theorem domains_of_mapM {table : DerivationTable} {unknown : String → DesignError}
    {arguments : List String} {domains : List (List Nat)}
    (h : arguments.mapM (fun argument => match b.design.index? argument with
      | some a => Except.ok (b.domain table a)
      | none => Except.error (unknown argument)) = Except.ok domains) :
    List.Forall₂
      (fun argument domain => ∃ a, b.design.index? argument = some a ∧ domain = b.domain table a)
      arguments domains := by
  refine (Outcome.mapM_eq_ok.mp h).imp fun argument domain hdomain => ?_
  split at hdomain
  · rename_i a ha
    exact ⟨a, ha, (Except.ok.inj hdomain).symm⟩
  · cases hdomain

theorem derives_of_derive {table : DerivationTable} {f l : Nat} {w : Window} {level : DerivedLevel}
    {drv : Derivation} (h : b.derive table f w l level = .ok drv) :
    b.Derives table f l w level drv := by
  unfold derive at h
  simp only at h
  split at h
  · cases h
  · rename_i harity
    obtain ⟨domains, hdomains, h⟩ := Outcome.bind_eq_ok.mp h
    exact ⟨not_not.mp harity, domains, domains_of_mapM hdomains, (Except.ok.inj h).symm⟩

/-- A derivation stays right as long as the domains of its arguments do not change. -/
theorem Derives.congr {table table' : DerivationTable} {f l : Nat} {w : Window}
    {level : DerivedLevel} {drv : Derivation} (h : b.Derives table f l w level drv)
    (hl : (l, level) ∈ (b.design.factorAt f).derivedLevels)
    (hsame : ∀ a, b.design.Reads f a → b.domain table' a = b.domain table a) :
    b.Derives table' f l w level drv := by
  obtain ⟨harity, domains, hdomains, rfl⟩ := h
  refine ⟨harity, domains, ?_, rfl⟩
  rw [List.forall₂_iff_get] at hdomains ⊢
  refine ⟨hdomains.1, fun i hi hi' => ?_⟩
  obtain ⟨a, ha, hdomain⟩ := hdomains.2 i hi hi'
  rw [← hsame a (Design.reads_of_argument hl (List.get_mem _ _) ha)] at hdomain
  exact ⟨a, ha, hdomain⟩

/-- What filling in the derivations of the levels `ps` of factor `f` does to a table. -/
structure Fills (b : Block) (f : Nat) (w : Window) (ps : List (Nat × DerivedLevel))
    (table table' : DerivationTable) : Prop where
  size_eq : table'.slots.size = table.slots.size
  listed : ∀ p ∈ ps, ∃ drv, table'.get? (b.dataIndex f p.1) = some drv ∧
    b.Derives table' f p.1 w p.2 drv
  /-- The entries of all other levels stay as they are. -/
  others : ∀ i, (∀ p ∈ ps, i ≠ b.dataIndex f p.1) → table'.get? i = table.get? i

theorem lt_of_mem_derivedLevels {f : Factor} {l : Nat} {level : DerivedLevel}
    (h : (l, level) ∈ f.derivedLevels) : l < f.size :=
  (List.getElem?_eq_some_iff.mp (Factor.mem_derivedLevels.mp h)).1

/-- Changes to the entries of one factor's levels leave the domains of all other factors alone. -/
theorem domain_eq_of_others (hb : b.WellFormed) {f a : Nat} {ps : List (Nat × DerivedLevel)}
    {table table' : DerivationTable} (hps : ∀ p ∈ ps, p ∈ (b.design.factorAt f).derivedLevels)
    (hothers : ∀ i, (∀ p ∈ ps, i ≠ b.dataIndex f p.1) → table'.get? i = table.get? i)
    (hf : f < b.design.length) (ha : a < b.design.length) (hne : a ≠ f) :
    b.domain table' a = b.domain table a := by
  refine domain_congr fun l hl => hothers _ fun p hp hindex => hne ?_
  exact (hb.dataIndex_inj ha hl hf (lt_of_mem_derivedLevels (hps p hp)) hindex).1

/-- One level after the other, all derivations of the levels are filled in. -/
theorem fills_of_foldlM (hb : b.WellFormed) {f : Nat} {w : Window} (hf : f < b.design.length)
    (hreads : ∀ a, b.design.Reads f a → a < b.design.length ∧ a ≠ f)
    {ps : List (Nat × DerivedLevel)} (hps : ∀ p ∈ ps, p ∈ (b.design.factorAt f).derivedLevels)
    {table table' : DerivationTable} (hsize : table.slots.size = b.trialSize)
    (h : ps.foldlM (fun table (l, level) =>
      return table.insert (← b.derive table f w l level)) table = .ok table') :
    b.Fills f w ps table table' := by
  induction ps generalizing table with
  | nil =>
    obtain rfl := Except.ok.inj h
    exact ⟨rfl, fun p hp => absurd hp List.not_mem_nil, fun _ _ => rfl⟩
  | cons p ps ih =>
    obtain ⟨l, level⟩ := p
    obtain ⟨hp, hrest⟩ := List.forall_mem_cons.mp hps
    rw [List.foldlM_cons] at h
    obtain ⟨table₁, hstep, h⟩ := Outcome.bind_eq_ok.mp h
    obtain ⟨drv, hderive, hstep⟩ := Outcome.bind_eq_ok.mp hstep
    obtain rfl := Except.ok.inj hstep
    have hderives := derives_of_derive hderive
    have hlevel := hderives.level_eq
    have hslot : drv.level < table.slots.size := by
      rw [hlevel, hsize]
      exact hb.dataIndex_lt hf (lt_of_mem_derivedLevels hp)
    have hfills := ih hrest ((table.size_insert drv).trans hsize) h
    have hothers : ∀ i, (∀ q ∈ (l, level) :: ps, i ≠ b.dataIndex f q.1) →
        table'.get? i = table.get? i := by
      intro i hi
      rw [List.forall_mem_cons] at hi
      rw [hfills.others i hi.2, DerivationTable.get?_insert hslot, if_neg (hlevel ▸ hi.1)]
    refine ⟨hfills.size_eq.trans (table.size_insert drv), ?_, hothers⟩
    rw [List.forall_mem_cons]
    refine ⟨?_, hfills.listed⟩
    by_cases hlater : ∃ q ∈ ps, q.1 = l
    · obtain ⟨⟨l', level'⟩, hq, rfl⟩ := hlater
      have hsame := (Prod.mk.inj (Factor.derivedLevels_inj (hrest _ hq) hp rfl)).2
      exact hsame ▸ hfills.listed _ hq
    · refine ⟨drv, ?_, hderives.congr hp fun a ha => ?_⟩
      · have hkept : ∀ q ∈ ps, b.dataIndex f l ≠ b.dataIndex f q.1 := by
          intro q hq hindex
          have hinj := hb.dataIndex_inj hf (lt_of_mem_derivedLevels hp) hf
            (lt_of_mem_derivedLevels (hrest q hq)) hindex
          exact hlater ⟨q, hq, hinj.2.symm⟩
        rw [hfills.others _ hkept, DerivationTable.get?_insert hslot, if_pos hlevel.symm]
      · exact domain_eq_of_others hb hps hothers hf (hreads a ha).1 (hreads a ha).2

/-- The table holds the derivations of the derived levels of the factors in the list, and no
others. -/
structure Tabulated (b : Block) (order : List Nat) (table : DerivationTable) : Prop where
  size_eq : table.slots.size = b.trialSize
  listed : ∀ f ∈ order, ∀ w, (b.design.factorAt f).window? = some w →
    ∀ p ∈ (b.design.factorAt f).derivedLevels, ∃ drv, table.get? (b.dataIndex f p.1) = some drv ∧
      b.Derives table f p.1 w p.2 drv
  drawn : ∀ i drv, table.get? i = some drv → ∃ f ∈ order, ∃ w,
    (b.design.factorAt f).window? = some w ∧
      ∃ p ∈ (b.design.factorAt f).derivedLevels, i = b.dataIndex f p.1

/-- A table for the factors of an order becomes one for the next factor of the order, too. -/
theorem Tabulated.snoc (hb : b.WellFormed) {order : List Nat} {f : Nat}
    {table table' : DerivationTable} (ht : b.Tabulated order table)
    (hord : b.design.Ordered order) (hf : f < b.design.length) (hnew : f ∉ order)
    (hargs : ∀ a, b.design.Reads f a → a ∈ order) (h : b.deriveFactor table f = .ok table') :
    b.Tabulated (order ++ [f]) table' := by
  unfold deriveFactor at h
  split at h
  · rename_i hw
    obtain rfl := Except.ok.inj h
    refine ⟨ht.size_eq, fun g hg w hgw => ?_, fun i drv hi => ?_⟩
    · rcases List.mem_append.mp hg with hg | hg
      · exact ht.listed g hg w hgw
      · rw [List.mem_singleton.mp hg, hw] at hgw
        cases hgw
    · obtain ⟨g, hg, hdrawn⟩ := ht.drawn i drv hi
      exact ⟨g, List.mem_append_left _ hg, hdrawn⟩
  · rename_i w hw
    have hlt : ∀ a ∈ order, a < b.design.length ∧ a ≠ f := fun a ha =>
      ⟨hord.lt a ha, fun he => hnew (he ▸ ha)⟩
    have hfills :=
      fills_of_foldlM hb hf (fun a ha => hlt a (hargs a ha)) (fun _ hp => hp) ht.size_eq h
    refine ⟨hfills.size_eq.trans ht.size_eq, fun g hg w' hgw p hp => ?_, fun i drv hi => ?_⟩
    · rcases List.mem_append.mp hg with hg | hg
      · obtain ⟨drv, hget, hderives⟩ := ht.listed g hg w' hgw p hp
        refine ⟨drv, ?_, hderives.congr hp fun a ha => ?_⟩
        · rw [hfills.others _ fun q hq hindex => (hlt g hg).2 ?_, hget]
          exact (hb.dataIndex_inj (hlt g hg).1 (lt_of_mem_derivedLevels hp) hf
            (lt_of_mem_derivedLevels hq) hindex).1
        · obtain ⟨ha, hne⟩ := hlt a (hord.mem_of_reads hg ha)
          exact domain_eq_of_others hb (fun _ hq => hq) hfills.others hf ha hne
      · obtain rfl := List.mem_singleton.mp hg
        obtain rfl := Option.some.inj (hw.symm.trans hgw)
        exact hfills.listed p hp
    · by_cases hown : ∃ p ∈ (b.design.factorAt f).derivedLevels, i = b.dataIndex f p.1
      · exact ⟨f, List.mem_append_right _ List.mem_cons_self, w, hw, hown⟩
      · rw [hfills.others i fun p hp hindex => hown ⟨p, hp, hindex⟩] at hi
        obtain ⟨g, hg, hdrawn⟩ := ht.drawn i drv hi
        exact ⟨g, List.mem_append_left _ hg, hdrawn⟩

theorem tabulated_of_foldlM (hb : b.WellFormed) {order : List Nat} {table : DerivationTable}
    (hord : b.design.Ordered order)
    (h : order.foldlM b.deriveFactor ⟨Array.replicate b.trialSize none⟩ = .ok table) :
    b.Tabulated order table := by
  induction hord generalizing table with
  | nil =>
    obtain rfl := Except.ok.inj h
    refine ⟨Array.size_replicate, fun f hf => absurd hf List.not_mem_nil, fun i drv hi => ?_⟩
    rw [DerivationTable.get?_replicate_none] at hi
    cases hi
  | @snoc order f hord hf hnew hargs ih =>
    rw [List.foldlM_append] at h
    obtain ⟨table₁, hfold, h⟩ := Outcome.bind_eq_ok.mp h
    rw [List.foldlM_cons] at h
    obtain ⟨table₂, hstep, h⟩ := Outcome.bind_eq_ok.mp h
    obtain rfl := Except.ok.inj h
    exact (ih hfold).snoc hb hord hf hnew (fun a ha => ha.mem hargs) hstep

/-- **The derivation table is complete and exact.** Every derived level of the design has its
derivation, and there are no others. -/
theorem tabulated_of_derivationTable (hb : b.WellFormed) {table : DerivationTable}
    (h : b.derivationTable = .ok table) : b.Tabulated b.order table :=
  tabulated_of_foldlM hb hb.ordered h

/-- Level `p` of factor `f` is derived over window `w`, and the table has the derivation `drv` for
it. -/
structure Listed (b : Block) (table : DerivationTable) (f : Nat) (w : Window)
    (p : Nat × DerivedLevel) (drv : Derivation) : Prop where
  window : (b.design.factorAt f).window? = some w
  mem : p ∈ (b.design.factorAt f).derivedLevels
  get?_eq : table.get? (b.dataIndex f p.1) = some drv
  derives : b.Derives table f p.1 w p.2 drv

variable {f : Nat} {w : Window}

/-- Every derived level has its derivation in the table. -/
theorem Tabulated.exists_listed (hb : b.WellFormed) {table : DerivationTable}
    (ht : b.Tabulated b.order table) (hw : (b.design.factorAt f).window? = some w)
    {p : Nat × DerivedLevel} (hp : p ∈ (b.design.factorAt f).derivedLevels) :
    ∃ drv, b.Listed table f w p drv := by
  obtain ⟨drv, hget, hderives⟩ := ht.listed f (hb.mem_order f (Design.lt_of_window? hw)) w hw p hp
  exact ⟨drv, hw, hp, hget, hderives⟩

theorem Tabulated.mem_toList (hb : b.WellFormed) {table : DerivationTable}
    (ht : b.Tabulated b.order table) {drv : Derivation} :
    drv ∈ table.toList ↔ ∃ f w p, b.Listed table f w p drv := by
  rw [DerivationTable.mem_toList]
  constructor
  · intro h
    obtain ⟨i, hi⟩ := h
    obtain ⟨f, _, w, hw, p, hp, rfl⟩ := ht.drawn i drv hi
    obtain ⟨drv', hdrv'⟩ := ht.exists_listed hb hw hp
    have hsame := hdrv'.get?_eq
    rw [hi] at hsame
    exact ⟨f, w, p, Option.some.inj hsame ▸ hdrv'⟩
  · intro h
    obtain ⟨f, w, p, hp⟩ := h
    exact ⟨_, hp.get?_eq⟩

end Block

end Counterbalance
