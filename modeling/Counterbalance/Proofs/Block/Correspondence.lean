import Counterbalance.Proofs.Block.Renumbering
import Counterbalance.Proofs.Block.Valid

/-! What is the same in blocks of designs that declare the same factors in another order. Their
derivations differ in all data indices, yet say the same once each index is read by the names of
factor and level and by the number of trials after the start of the window. -/

namespace Counterbalance

namespace Block

variable {b b' : Block} {f f' : Nat} {w : Window} {table table' : DerivationTable}
  {drv drv' : Derivation}

/-! ## Reading data indices -/

/-- A level of a factor, a number of trials after the start of a window. -/
structure Place where
  trial : Nat
  factor : String
  level : String

/-- What a data index, or an element of a combination, stands for. -/
def Spells (b : Block) (x : Nat) (place : Place) : Prop :=
  ∃ f l level, b.design.index? place.factor = some f ∧
    (b.design.factorAt f).levels[l]? = some level ∧
    level.name = place.level ∧ x = b.dataIndex f l + place.trial * b.trialSize

/-- Indices of two blocks that stand for the same. -/
def Alike (b b' : Block) (x x' : Nat) : Prop := ∃ place, b.Spells x place ∧ b'.Spells x' place

/-- Derivations of the same level from the same combinations in the same order. -/
structure SameDerivation (b b' : Block) (drv drv' : Derivation) : Prop where
  level : b.Alike b' drv.level drv'.level
  combinations : List.Forall₂ (List.Forall₂ (b.Alike b')) drv.combinations drv'.combinations

/-- An index stands for one place only. -/
theorem Spells.place_eq (hb : b.WellFormed) {x : Nat} {place place' : Place} (h : b.Spells x place)
    (h' : b.Spells x place') : place = place' := by
  obtain ⟨f, l, level, hf, hl, hname, hx⟩ := h
  obtain ⟨f', l', level', hf', hl', hname', hx'⟩ := h'
  obtain ⟨hlt, hfactor⟩ := Design.factorAt_of_index? hf
  obtain ⟨hlt', hfactor'⟩ := Design.factorAt_of_index? hf'
  have hsize := (List.getElem?_eq_some_iff.mp hl).1
  have hsize' := (List.getElem?_eq_some_iff.mp hl').1
  obtain ⟨htrial, hindex⟩ :=
    eq_of_add_mul_eq (hb.dataIndex_lt hlt hsize) (hb.dataIndex_lt hlt' hsize')
    (hx.symm.trans hx')
  obtain ⟨rfl, rfl⟩ := hb.dataIndex_inj hlt hsize hlt' hsize' hindex
  obtain rfl := Option.some.inj (hl.symm.trans hl')
  obtain ⟨trial, factor, name⟩ := place
  obtain ⟨trial', factor', name'⟩ := place'
  simp only at htrial hfactor hfactor' hname hname'
  rw [htrial, ← hfactor, ← hfactor', ← hname, ← hname']

/-- One index only stands for a place. -/
theorem Spells.index_eq (hb : b.WellFormed) {x y : Nat} {place : Place} (h : b.Spells x place)
    (h' : b.Spells y place) : x = y := by
  obtain ⟨f, l, level, hf, hl, hname, rfl⟩ := h
  obtain ⟨f', l', level', hf', hl', hname', rfl⟩ := h'
  obtain rfl := Option.some.inj (hf.symm.trans hf')
  rw [hb.level_inj (Design.factorAt_of_index? hf).1 hl hl' (hname.trans hname'.symm)]

theorem Alike.symm {x x' : Nat} (h : b.Alike b' x x') : b'.Alike b x' x :=
  h.imp fun _ h => h.symm

theorem Alike.right_unique (hb : b.WellFormed) (hb' : b'.WellFormed) {x y z : Nat}
    (hy : b.Alike b' x y) (hz : b.Alike b' x z) : y = z := by
  obtain ⟨place, hx, hy⟩ := hy
  obtain ⟨place', hx', hz⟩ := hz
  obtain rfl := hx.place_eq hb hx'
  exact hy.index_eq hb' hz

theorem SameDerivation.symm (h : b.SameDerivation b' drv drv') : b'.SameDerivation b drv' drv :=
  ⟨h.level.symm, (h.combinations.imp fun _ _ hc => (hc.imp fun _ _ hx => hx.symm).flip).flip⟩

/-! ## Levels of twins -/

/-- Data indices of one level of a factor that both designs declare. -/
def SameLevel (b b' : Block) (x x' : Nat) : Prop :=
  ∃ f f' l, b.design.Twins b'.design f f' ∧ l < (b.design.factorAt f).size ∧ x = b.dataIndex f l ∧
    x' = b'.dataIndex f' l

theorem SameLevel.levelName?_eq (hb : b.WellFormed) (hb' : b'.WellFormed) {x x' : Nat}
    (h : b.SameLevel b' x x') : b.levelName? x = b'.levelName? x' := by
  obtain ⟨f, f', l, ht, hl, rfl, rfl⟩ := h
  obtain ⟨level, hlevel, hlevel'⟩ := ht.exists_level hl
  rw [hb.levelName?_dataIndex ht.lt hlevel, hb'.levelName?_dataIndex ht.lt' hlevel']

theorem SameLevel.alike (hb : b.WellFormed) (hb' : b'.WellFormed) {x x' : Nat}
    (h : b.SameLevel b' x x') (k : Nat) :
    b.Alike b' (x + k * b.trialSize) (x' + k * b'.trialSize) := by
  obtain ⟨f, f', l, ht, hl, rfl, rfl⟩ := h
  obtain ⟨level, hlevel, hlevel'⟩ := ht.exists_level hl
  exact ⟨⟨k, (b.design.factorAt f).name, _⟩,
    ⟨f, l, _, hb.faultless.index?_name ht.lt, hlevel, rfl, rfl⟩,
    ⟨f', l, _, ht.index?_name hb'.faultless, hlevel', rfl, rfl⟩⟩

theorem alike_shift (hb : b.WellFormed) (hb' : b'.WellFormed) {c c' : Combination}
    (h : List.Forall₂ (b.SameLevel b') c c') (w : Window) :
    List.Forall₂ (b.Alike b') (w.shift b.trialSize c) (w.shift b'.trialSize c') := by
  refine Lists.forall₂_of_getElem? (by simp [h.length_eq]) fun i x x' hx hx' => ?_
  rw [Window.getElem?_shift, Option.map_eq_some_iff] at hx hx'
  obtain ⟨d, hd, rfl⟩ := hx
  obtain ⟨d', hd', rfl⟩ := hx'
  obtain ⟨e, he, hsame⟩ := Lists.getElem?_right_of_forall₂ h hd
  obtain rfl := Option.some.inj (he.symm.trans hd')
  split
  · simpa using hsame.alike hb hb' 0
  · exact hsame.alike hb hb' i

/-! ## Combinations -/

theorem forall₂_accepted (hb : b.WellFormed) (hb' : b'.WellFormed) (level : DerivedLevel)
    {domains domains' : List (List Nat)}
    (h : List.Forall₂ (List.Forall₂ (b.SameLevel b')) domains domains') :
    List.Forall₂ (List.Forall₂ (b.SameLevel b')) (b.accepted level domains)
      (b'.accepted level domains') := by
  rw [accepted_eq_filter, accepted_eq_filter]
  refine List.rel_filter (fun c c' hc => ?_) (forall₂_product h)
  have hnames : c.filterMap b.levelName? = c'.filterMap b'.levelName? := by
    induction hc with
    | nil => rfl
    | cons hx _ ih => rw [List.filterMap_cons, List.filterMap_cons, hx.levelName?_eq hb hb', ih]
  exact iff_of_eq (congrArg (level.predicate.accepts · = true) hnames)

/-- Domains of twins whose levels can hold alike. -/
theorem forall₂_domain {a a' : Nat} (ht : b.design.Twins b'.design a a')
    (h : (b.design.factorAt a).isDerived = true → ∀ l < (b.design.factorAt a).size,
      (table.get? (b.dataIndex a l)).any (!·.isEmpty) =
        (table'.get? (b'.dataIndex a' l)).any (!·.isEmpty)) :
    List.Forall₂ (b.SameLevel b') (b.domain table a) (b'.domain table' a') := by
  have hlevels : ∀ ls : List Nat, (∀ l ∈ ls, l < (b.design.factorAt a).size) →
      List.Forall₂ (b.SameLevel b') (ls.map (b.dataIndex a)) (ls.map (b'.dataIndex a')) := by
    intro ls hls
    rw [List.forall₂_map_left_iff, List.forall₂_map_right_iff, List.forall₂_same]
    exact fun l hl => ⟨a, a', l, ht, hls l hl, rfl, rfl⟩
  unfold domain dataIndices
  rw [← ht.same]
  split
  · rename_i hderived
    rw [List.filter_map, List.filter_map]
    have hfilter : (List.range (b.design.factorAt a).size).filter
        ((fun d => (table.get? d).any (!·.isEmpty)) ∘ b.dataIndex a) =
        (List.range (b.design.factorAt a).size).filter
          ((fun d => (table'.get? d).any (!·.isEmpty)) ∘ b'.dataIndex a') :=
      List.filter_congr fun l hl => h hderived l (List.mem_range.mp hl)
    rw [hfilter]
    exact hlevels _ fun l hl => List.mem_range.mp (List.mem_of_mem_filter hl)
  · exact hlevels _ fun l hl => List.mem_range.mp hl

/-! ## Derivations -/

/-- Twins have the same derivations, by induction along what they read. -/
theorem sameDerivation_of_listed (hperm : b.design.Perm b'.design) (hb : b.WellFormed)
    (hb' : b'.WellFormed) (ht : b.Tabulated b.order table) (ht' : b'.Tabulated b'.order table') :
    ∀ f ∈ b.order, ∀ f', b.design.Twins b'.design f f' → ∀ w p drv drv',
      b.Listed table f w p drv → b'.Listed table' f' w p drv' → b.SameDerivation b' drv drv' := by
  refine hb.ordered.induct fun f _ ih f' htwins w p drv drv' h h' => ?_
  obtain ⟨_, domains, hdomains, rfl⟩ := h.derives
  obtain ⟨_, domains', hdomains', rfl⟩ := h'.derives
  have hsame : List.Forall₂ (List.Forall₂ (b.SameLevel b')) domains domains' := by
    refine Lists.forall₂_of_getElem? (hdomains.length_eq.symm.trans hdomains'.length_eq)
      fun i domain domain' hd hd' => ?_
    obtain ⟨argument, hargument, a, ha, rfl⟩ := Lists.getElem?_right_of_forall₂ hdomains.flip hd
    obtain ⟨argument', hargument', a', ha', rfl⟩ :=
      Lists.getElem?_right_of_forall₂ hdomains'.flip hd'
    obtain rfl := Option.some.inj (hargument.symm.trans hargument')
    have hta := Design.twins_of_index? hperm hb'.faultless ha ha'
    have hreads := Design.reads_of_argument h.mem (List.mem_of_getElem? hargument) ha
    refine forall₂_domain hta fun hderived l hl => ?_
    -- both arguments have a derivation for this level, which are empty together
    obtain ⟨v, hv⟩ := Option.isSome_iff_exists.mp hderived
    obtain ⟨level, hlevel⟩ := (hb.faultless.fitsAt hta.lt).derived v hv l hl
    obtain ⟨e, he⟩ := ht.exists_listed hb hv hlevel
    obtain ⟨e', he'⟩ := ht'.exists_listed hb' (hta.same ▸ hv) (hta.same ▸ hlevel)
    have hlength := (ih a hreads a' hta v _ e e' he he').combinations.length_eq
    have hempty : e.isEmpty = e'.isEmpty := by
      rw [Bool.eq_iff_iff, Derivation.isEmpty, Derivation.isEmpty, List.isEmpty_iff_length_eq_zero,
        List.isEmpty_iff_length_eq_zero, hlength]
    rw [he.get?_eq, he'.get?_eq, Option.any_some, Option.any_some, hempty]
  have hlevel : b.SameLevel b' (b.dataIndex f p.1) (b'.dataIndex f' p.1) :=
    ⟨f, f', p.1, htwins, lt_of_mem_derivedLevels h.mem, rfl, rfl⟩
  refine ⟨by simpa using hlevel.alike hb hb' 0, ?_⟩
  rw [List.forall₂_map_left_iff, List.forall₂_map_right_iff]
  exact (forall₂_accepted hb hb' p.2 hsame).imp fun c c' hc => alike_shift hb hb' hc w

theorem exists_sameDerivation (hperm : b.design.Perm b'.design) (hb : b.WellFormed)
    (hb' : b'.WellFormed) (ht : b.Tabulated b.order table) (ht' : b'.Tabulated b'.order table')
    (h : drv ∈ table.toList) : ∃ drv' ∈ table'.toList, b.SameDerivation b' drv drv' := by
  obtain ⟨f, w, p, hlisted⟩ := (ht.mem_toList hb).mp h
  have hf := Design.lt_of_window? hlisted.window
  obtain ⟨f', htwins⟩ := Design.exists_twin hperm hf
  obtain ⟨drv', hlisted'⟩ :=
    ht'.exists_listed hb' (htwins.same ▸ hlisted.window) (htwins.same ▸ hlisted.mem)
  exact ⟨drv', (ht'.mem_toList hb').mpr ⟨f', w, p, hlisted'⟩,
    sameDerivation_of_listed hperm hb hb' ht ht' f (hb.mem_order f hf) f' htwins w p drv drv'
      hlisted hlisted'⟩

/-- A table has one derivation per level. -/
theorem Exact.eq_of_level_eq (h : b.Exact table) (hdrv : drv ∈ table.toList)
    (hdrv' : drv' ∈ table.toList) (hlevel : drv.level = drv'.level) : drv = drv' := by
  obtain ⟨i, hi⟩ := DerivationTable.mem_toList.mp hdrv
  obtain ⟨j, hj⟩ := DerivationTable.mem_toList.mp hdrv'
  rw [h.level_eq i drv hi, h.level_eq j drv' hj] at hlevel
  exact Option.some.inj (hi.symm.trans (hlevel ▸ hj))

theorem Exact.nodup_toList (h : b.Exact table) : table.toList.Nodup :=
  (DerivationTable.pairwise_toList h.level_eq).imp fun hlt heq => Nat.ne_of_lt hlt (congrArg _ heq)

/-- The derivations of the blocks are the same, level by level. -/
def SameDerivations (b b' : Block) : Prop :=
  ∃ drvs drvs' matched, b.derivations = .ok drvs ∧ b'.derivations = .ok drvs' ∧ matched.Perm drvs' ∧
    List.Forall₂ (b.SameDerivation b') drvs matched

theorem sameDerivations_of_perm (hperm : b.design.Perm b'.design) (hb : b.WellFormed)
    (hb' : b'.WellFormed) (harity : b.design.Matching) : b.SameDerivations b' := by
  have harity' : b'.design.Matching := fun f hf => harity f (hperm.mem_iff.mpr hf)
  obtain ⟨table, htable⟩ := exists_derivationTable hb harity
  obtain ⟨table', htable'⟩ := exists_derivationTable hb' harity'
  have ht := tabulated_of_derivationTable hb htable
  have ht' := tabulated_of_derivationTable hb' htable'
  have hexact := ht.exact hb
  have hexact' := ht'.exact hb'
  obtain ⟨matched, hmatched, hsame⟩ := Lists.exists_perm_of_partners (R := b.SameDerivation b')
    hexact.nodup_toList hexact'.nodup_toList
    (fun _ h => exists_sameDerivation hperm hb hb' ht ht' h)
    (fun _ h => by
      obtain ⟨drv, hdrv, hsame⟩ := exists_sameDerivation hperm.symm hb' hb ht' ht h
      exact ⟨drv, hdrv, hsame.symm⟩)
    (fun _ h _ h' _ _ hs hs' =>
      hexact.eq_of_level_eq h h' (hs.level.symm.right_unique hb' hb hs'.level.symm))
    (fun _ _ _ h _ h' hs hs' => hexact'.eq_of_level_eq h h'
      (hs.level.right_unique hb hb' hs'.level))
  refine ⟨table.toList, table'.toList, matched, ?_, ?_, hmatched, hsame⟩
  · rw [derivations, htable]
    rfl
  · rw [derivations, htable']
    rfl

/-! ## Blocks -/

/-- What is the same in two blocks, by the names of factors. -/
structure Corresponds (b b' : Block) : Prop where
  trials_eq : b'.trials = b.trials
  crossing_eq : b'.crossing.map (fun f => (b'.design.factorAt f).name) =
    b.crossing.map fun f => (b.design.factorAt f).name
  applies : ∀ name f, b.design.index? name = some f →
    ∃ f', b'.design.index? name = some f' ∧ ∀ t, b'.applies f' t = b.applies f t
  derivations : b.design.Matching → b.SameDerivations b'

/-- Both are accepted and correspond, or both are rejected. -/
inductive Agree : Except DesignError Block → Except DesignError Block → Prop where
  | accepted {b b' : Block} (h : b.Corresponds b') : Agree (.ok b) (.ok b')
  | rejected {e e' : DesignError} : Agree (.error e) (.error e')

theorem Matches.corresponds (h : b.Matches b') (hb : b.WellFormed) (hb' : b'.WellFormed) :
    b.Corresponds b' := by
  refine ⟨h.trials_eq, ?_, fun name f hf => ?_, sameDerivations_of_perm h.perm hb hb'⟩
  · have hnames : List.Forall₂ (· = ·) (b'.crossing.map fun f => (b'.design.factorAt f).name)
        (b.crossing.map fun f => (b.design.factorAt f).name) := by
      rw [List.forall₂_map_left_iff, List.forall₂_map_right_iff]
      exact (h.crossing.imp fun f f' ht => congrArg Factor.name ht.same.symm).flip
    rwa [List.forall₂_eq_eq_eq] at hnames
  · obtain ⟨f', hf', ht⟩ := Design.exists_twin_of_index? h.perm hb'.faultless hf
    exact ⟨f', hf', h.applies_eq hb hb' ht⟩

variable {d d' : Design}

theorem agree_of_exists {x x' : Except DesignError Block}
    (h : ∀ b, x = .ok b → ∃ b', x' = .ok b' ∧ b.Corresponds b')
    (h' : ∀ b', x' = .ok b' → ∃ b, x = .ok b) : Agree x x' := by
  cases x with
  | ok b =>
    obtain ⟨b', rfl, hb⟩ := h b rfl
    exact .accepted hb
  | error e =>
    cases x' with
    | ok b' =>
      obtain ⟨b, hb⟩ := h' b' rfl
      cases hb
    | error e' => exact .rejected

/-- **The order in which factors are declared is irrelevant.** Designs that declare the same factors
make corresponding blocks, or none. -/
theorem declaration_order_irrelevant (h : d.Perm d') (names : List String)
    (constraints : List Constraint) :
    (∀ trials, Agree (ofTrials d names trials constraints) (ofTrials d' names trials constraints)) ∧
    Agree (fullyCrossed d names constraints) (fullyCrossed d' names constraints) := by
  refine ⟨fun trials => agree_of_exists (fun b hb => ?_) fun b' hb' => ?_,
    agree_of_exists (fun b hb => ?_) fun b' hb' => ?_⟩
  · obtain ⟨b', hb', hmatches⟩ := exists_ofTrials_of_perm h hb
    exact ⟨b', hb', hmatches.corresponds (Accepted.wellFormed ⟨_, _, _, .inl ⟨_, hb⟩⟩)
      (Accepted.wellFormed ⟨_, _, _, .inl ⟨_, hb'⟩⟩)⟩
  · obtain ⟨b, hb, _⟩ := exists_ofTrials_of_perm h.symm hb'
    exact ⟨b, hb⟩
  · obtain ⟨b', hb', hmatches⟩ := exists_fullyCrossed_of_perm h hb
    exact ⟨b', hb', hmatches.corresponds (Accepted.wellFormed ⟨_, _, _, .inr hb⟩)
      (Accepted.wellFormed ⟨_, _, _, .inr hb'⟩)⟩
  · obtain ⟨b, hb, _⟩ := exists_fullyCrossed_of_perm h.symm hb'
    exact ⟨b, hb⟩

/-- A colour, its hue and whether the hue repeats, declared in this order and in the opposite one,
which is no dependency order. -/
theorem declaration_order_irrelevant_hues :
    Design.hues.Perm Design.hues.reverse ∧ ∃ b b', fullyCrossed .hues ["color"] [] = .ok b ∧
      fullyCrossed Design.hues.reverse ["color"] [] = .ok b' ∧ b.order = [0, 1, 2] ∧
      b'.order = [2, 1, 0] ∧ b.Corresponds b' ∧ b.SameDerivations b' := by
  have hperm := (List.reverse_perm Design.hues).symm
  have hrun : ((fullyCrossed .hues ["color"] []).map fun b => (b.order, decide b.design.Matching)) =
      .ok ([0, 1, 2], true) := by
    decide +kernel
  have hreverse : ((fullyCrossed Design.hues.reverse ["color"] []).map Block.order) =
      .ok [2, 1, 0] := by
    decide +kernel
  obtain ⟨b, hb, hrun⟩ := Outcome.map_eq_ok.mp hrun
  obtain ⟨b', hb', hreverse⟩ := Outcome.map_eq_ok.mp hreverse
  simp only [Prod.mk.injEq, decide_eq_true_eq] at hrun
  have hagree := (declaration_order_irrelevant hperm ["color"] []).2
  rw [hb, hb'] at hagree
  cases hagree with
  | accepted h => exact ⟨hperm, b, b', hb, hb', hrun.1, hreverse, h, h.derivations hrun.2⟩

end Block

end Counterbalance
