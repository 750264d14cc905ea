import Counterbalance.Proofs.Block.Sequence

/-! What decoding makes of any entries: of the faults it names the first in a fixed order, that
there are too few entries, that one is out of turn, and that a factor that applies has another
number of levels than one. If there is none, it names the level of every cell. Entries that are
written for a choice of levels are read as this choice. -/

namespace Counterbalance

namespace Block

variable {b : Block} {entries : List Int} {choice : Nat → Nat → Nat} {f t : Nat}

/-! ## Specification -/

/-- The entry is one of the variable that stands at place `i`. -/
def InTurn (i : Nat) (entry : Int) : Prop := entry = i + 1 ∨ entry = -(i + 1)

/-- The entries of factor `f` in trial `t`, one per level. -/
def cellEntries (b : Block) (entries : List Int) (f t : Nat) : List Int :=
  (entries.drop (t * b.trialSize + b.offset f)).take (b.design.factorAt f).size

/-- The number of levels that factor `f` has in trial `t`. -/
def positives (b : Block) (entries : List Int) (f t : Nat) : Nat :=
  (b.cellEntries entries f t).countP (0 < ·)

/-- The sequence in which every factor has its chosen level, wherever it applies. -/
def sequenceOf (b : Block) (choice : Nat → Nat → Nat) : Sequence where
  columns := (List.range b.design.length).map fun f => {
    factor := (b.design.factorAt f).name
    levels := ((List.range b.trials).map fun t =>
      if b.applies f t then
        ((b.design.factorAt f).levels[choice f t]?).map Level.name
      else none).toArray }
  trials := b.trials

/-- What the entries are read as. -/
inductive Decodes (b : Block) (entries : List Int) : Except DecodeError Sequence → Prop
  | tooShort : entries.length < b.gridVariables →
      Decodes b entries (.error (.tooShort b.gridVariables entries.length))
  /-- No entry before is out of turn. -/
  | misordered {i : Nat} {entry : Int} : b.gridVariables ≤ entries.length →
      entries[i]? = some entry → ¬ InTurn i entry →
      (∀ j < i, ∀ x, entries[j]? = some x → InTurn j x) →
      Decodes b entries (.error (.misordered i entry))
  /-- No factor before, and this one in no trial before, has another number of levels than one. -/
  | levelCount {f t : Nat} : b.gridVariables ≤ entries.length →
      (∀ i x, entries[i]? = some x → InTurn i x) →
      b.applies f t = true → b.positives entries f t ≠ 1 →
      (∀ g u, b.applies g u = true → g < f ∨ g = f ∧ u < t → b.positives entries g u = 1) →
      Decodes b entries
        (.error (.levelCount (b.design.factorAt f).name t (b.positives entries f t)))
  | sequence {choice : Nat → Nat → Nat} : b.gridVariables ≤ entries.length →
      (∀ i x, entries[i]? = some x → InTurn i x) →
      (∀ f t, b.applies f t = true → b.positives entries f t = 1 ∧
        ∃ x, (b.cellEntries entries f t)[choice f t]? = some x ∧ 0 < x) →
      Decodes b entries (.ok (b.sequenceOf choice))

/-- The trial variables as entries that are positive exactly at the chosen levels. -/
def entriesOf (b : Block) (choice : Nat → Nat → Nat) : List Int :=
  (List.range b.gridVariables).map fun i =>
    if (List.range b.design.length).any fun f => (List.range b.trials).any fun t =>
      b.applies f t && b.variableAt t (b.dataIndex f (choice f t)) = i + 1
    then (i + 1 : Int) else -(i + 1 : Int)

/-! ## Entries out of turn -/

theorem misorderedEntry?_eq_none (h : ∀ i x, entries[i]? = some x → InTurn i x) :
    misorderedEntry? entries.toArray = none := by
  unfold misorderedEntry?
  rw [Option.map_eq_none_iff, List.find?_eq_none]
  intro p hp hne
  have hturn := h p.2 p.1 (List.mem_zipIdx_iff_getElem?.mp hp)
  exact of_decide_eq_true hne (Int.natAbs_eq_iff.mpr hturn)

/-- The search finds the first entry that is out of turn. -/
theorem misorderedEntry?_eq_some {i : Nat} {entry : Int} (hi : entries[i]? = some entry)
    (hwrong : ¬ InTurn i entry) (hfirst : ∀ j < i, ∀ x, entries[j]? = some x → InTurn j x) :
    misorderedEntry? entries.toArray = some (.misordered i entry) := by
  obtain ⟨hlt, rfl⟩ := List.getElem?_eq_some_iff.mp hi
  have hfind : entries.zipIdx.find? (fun p => p.1.natAbs ≠ p.2 + 1) = some (entries[i], i) := by
    rw [List.find?_eq_some_iff_getElem]
    refine ⟨decide_eq_true fun habs => hwrong (Int.natAbs_eq_iff.mp habs),
      i, by simpa using hlt, by simp, fun j hj => ?_⟩
    have hturn := hfirst j hj _ (List.getElem?_eq_getElem (by omega))
    simpa using Int.natAbs_eq_iff.mpr hturn
  unfold misorderedEntry?
  exact Option.map_eq_some_iff.mpr ⟨_, hfind, rfl⟩

/-! ## Cells -/

/-- A level is chosen if its entry is positive. -/
theorem isChosen_iff (hb : b.WellFormed) (hr : b.InRange) (hf : f < b.design.length)
    (ht : t < b.trials) {l : Nat} (hl : l < (b.design.factorAt f).size) :
    b.isChosen entries.toArray f t l =
      ((b.cellEntries entries f t)[l]?).any (0 < ·) := by
  have hplace : b.variableAt t (b.dataIndex f l) - 1 = t * b.trialSize + b.offset f + l := by
    rw [hr.uncut.variableAt_eq ht (hb.dataIndex_lt hf hl), dataIndex]
    omega
  rw [isChosen, hplace, cellEntries, List.getElem?_take_of_lt hl, List.getElem?_drop,
    List.getElem?_toArray]
  cases entries[t * b.trialSize + b.offset f + l]? <;> rfl

/-- The levels that decoding finds in a cell. -/
theorem filter_isChosen (hb : b.WellFormed) (hr : b.InRange) (happ : b.applies f t = true) :
    (List.range (b.design.factorAt f).size).filter (b.isChosen entries.toArray f t) =
      (List.range (b.design.factorAt f).size).filter fun l =>
        ((b.cellEntries entries f t)[l]?).any (0 < ·) := by
  obtain ⟨hf, ht, _⟩ := hb.applies_iff.mp happ
  exact List.filter_congr fun l hl => isChosen_iff hb hr hf ht (List.mem_range.mp hl)

theorem length_filter_isChosen (hb : b.WellFormed) (hr : b.InRange) (happ : b.applies f t = true) :
    ((List.range (b.design.factorAt f).size).filter (b.isChosen entries.toArray f t)).length =
      b.positives entries f t := by
  rw [filter_isChosen hb hr happ]
  exact Lists.length_filter_range_getElem? _ (List.length_take_le _ _)

theorem exists_positive (h : b.positives entries f t = 1) :
    ∃ (l : Nat) (x : Int), (b.cellEntries entries f t)[l]? = some x ∧ 0 < x := by
  have hpos : 0 < (b.cellEntries entries f t).countP (0 < ·) := by
    rw [show (b.cellEntries entries f t).countP (0 < ·) = 1 from h]
    exact Nat.one_pos
  obtain ⟨x, hx, hpositive⟩ := List.countP_pos_iff.mp hpos
  obtain ⟨l, hl⟩ := List.mem_iff_getElem?.mp hx
  exact ⟨l, x, hl, of_decide_eq_true hpositive⟩

theorem decodeCell_eq_error (hb : b.WellFormed) (hr : b.InRange) (happ : b.applies f t = true)
    (hcount : b.positives entries f t ≠ 1) : b.decodeCell entries.toArray f t =
      .error (.levelCount (b.design.factorAt f).name t (b.positives entries f t)) := by
  rw [← length_filter_isChosen hb hr happ] at hcount ⊢
  rw [decodeCell, if_pos happ]
  split
  · rename_i l hl
    rw [hl] at hcount
    exact absurd rfl hcount
  · rfl

/-- Decoding finds one level exactly if one entry is positive and this is the level's. -/
theorem filter_isChosen_eq_singleton_iff (hb : b.WellFormed) (hr : b.InRange)
    (happ : b.applies f t = true) {l : Nat} :
    (List.range (b.design.factorAt f).size).filter (b.isChosen entries.toArray f t) = [l] ↔
      b.positives entries f t = 1 ∧ ∃ x, (b.cellEntries entries f t)[l]? = some x ∧ 0 < x := by
  have hmem : l ∈ (List.range (b.design.factorAt f).size).filter (b.isChosen entries.toArray f t) ↔
      ∃ x, (b.cellEntries entries f t)[l]? = some x ∧ 0 < x := by
    rw [filter_isChosen hb hr happ, List.mem_filter, List.mem_range, Option.any_eq_true]
    simp only [decide_eq_true_eq, and_iff_right_iff_imp]
    intro h
    obtain ⟨x, hx, _⟩ := h
    exact Nat.lt_of_lt_of_le (List.getElem?_eq_some_iff.mp hx).1 (List.length_take_le _ _)
  rw [← length_filter_isChosen hb hr happ, ← hmem, List.length_eq_one_iff]
  constructor
  · intro h
    exact ⟨⟨l, h⟩, h ▸ List.mem_singleton_self l⟩
  · intro h
    obtain ⟨⟨m, hm⟩, hl⟩ := h
    rw [hm] at hl ⊢
    rw [List.mem_singleton.mp hl]

theorem decodeCell_eq_name (hb : b.WellFormed) (hr : b.InRange) {l : Nat}
    (h : b.applies f t = true → b.positives entries f t = 1 ∧
      ∃ x, (b.cellEntries entries f t)[l]? = some x ∧ 0 < x) :
    b.decodeCell entries.toArray f t = .ok (if b.applies f t then
      ((b.design.factorAt f).levels[l]?).map Level.name else none) := by
  unfold decodeCell
  split
  · rename_i happ
    simp only [(filter_isChosen_eq_singleton_iff hb hr happ).mpr (h happ)]
  · rfl

/-- A cell with one positive entry has a name, and one whose factor does not apply has nothing to
fail over. -/
theorem exists_decodeCell (hb : b.WellFormed) (hr : b.InRange)
    (h : b.applies f t = true → b.positives entries f t = 1) :
    ∃ name?, b.decodeCell entries.toArray f t = .ok name? := by
  cases happ : b.applies f t with
  | false => exact ⟨none, by rw [decodeCell, happ]; rfl⟩
  | true =>
    obtain ⟨l, x, hx, hpos⟩ := exists_positive (h happ)
    exact ⟨_, decodeCell_eq_name hb hr fun _ => ⟨h happ, x, hx, hpos⟩⟩

/-! ## Columns and sequences -/

theorem exists_decodeColumn (hb : b.WellFormed) (hr : b.InRange)
    (h : ∀ t, b.applies f t = true → b.positives entries f t = 1) :
    ∃ column, b.decodeColumn entries.toArray f = .ok column := by
  have hcells : ∃ levels, (List.range b.trials).mapM (b.decodeCell entries.toArray f) =
      .ok levels :=
    Outcome.exists_mapM_eq_ok.mpr fun t _ => exists_decodeCell hb hr (h t)
  obtain ⟨levels, hlevels⟩ := hcells
  exact ⟨_, decodeColumn_eq_ok.mpr ⟨levels, hlevels, rfl⟩⟩

theorem decode_eq_mapM (hlength : b.gridVariables ≤ entries.length)
    (hturn : ∀ i x, entries[i]? = some x → InTurn i x) : b.decode entries.toArray =
      ((List.range b.design.length).mapM (b.decodeColumn entries.toArray) >>= fun columns =>
          .ok ⟨columns, b.trials⟩) := by
  rw [decode, List.size_toArray, if_neg (Nat.not_lt.mpr hlength), misorderedEntry?_eq_none hturn]

/-- Decoding stops in the first cell that has not one level, factor by factor and trial by trial. -/
theorem decode_eq_levelCount (hb : b.WellFormed) (hr : b.InRange)
    (hlength : b.gridVariables ≤ entries.length)
    (hturn : ∀ i x, entries[i]? = some x → InTurn i x) (happ : b.applies f t = true)
    (hcount : b.positives entries f t ≠ 1)
    (hfirst : ∀ g u, b.applies g u = true → g < f ∨ g = f ∧ u < t → b.positives entries g u = 1) :
    b.decode entries.toArray =
      .error (.levelCount (b.design.factorAt f).name t (b.positives entries f t)) := by
  obtain ⟨hf, ht, _⟩ := hb.applies_iff.mp happ
  have hcells := Outcome.mapM_range_eq_error ht (decodeCell_eq_error hb hr happ hcount) fun u hu =>
    exists_decodeCell hb hr fun happ => hfirst f u happ (.inr ⟨rfl, hu⟩)
  have hcolumn : b.decodeColumn entries.toArray f =
      .error (.levelCount (b.design.factorAt f).name t (b.positives entries f t)) :=
    Outcome.bind_eq_error.mpr (.inl hcells)
  have hcolumns := Outcome.mapM_range_eq_error hf hcolumn fun g hg =>
    exists_decodeColumn hb hr fun u happ => hfirst g u happ (.inl hg)
  rw [decode_eq_mapM hlength hturn]
  exact Outcome.bind_eq_error.mpr (.inl hcolumns)

/-- Decoding goes through if every cell has one level. -/
theorem decode_eq_sequenceOf (hb : b.WellFormed) (hr : b.InRange)
    (hlength : b.gridVariables ≤ entries.length)
    (hturn : ∀ i x, entries[i]? = some x → InTurn i x)
    (hcells : ∀ f t, b.applies f t = true → b.positives entries f t = 1 ∧
      ∃ x, (b.cellEntries entries f t)[choice f t]? = some x ∧ 0 < x) :
    b.decode entries.toArray = .ok (b.sequenceOf choice) := by
  rw [decode_eq_mapM hlength hturn, Outcome.bind_eq_ok]
  refine ⟨_, Outcome.mapM_range_eq_ok fun f _ => decodeColumn_eq_ok.mpr ⟨_, ?_, rfl⟩, rfl⟩
  exact Outcome.mapM_range_eq_ok fun t _ => decodeCell_eq_name hb hr (hcells f t)

theorem Decodes.decode_eq (hb : b.WellFormed) (hr : b.InRange) {r : Except DecodeError Sequence}
    (h : b.Decodes entries r) : b.decode entries.toArray = r := by
  cases h with
  | tooShort hshort => rw [decode, List.size_toArray, if_pos hshort]
  | misordered hlength hi hwrong hfirst =>
    rw [decode, List.size_toArray, if_neg (Nat.not_lt.mpr hlength),
      misorderedEntry?_eq_some hi hwrong hfirst]
  | levelCount hlength hturn happ hcount hfirst =>
    exact decode_eq_levelCount hb hr hlength hturn happ hcount hfirst
  | sequence hlength hturn hcells => exact decode_eq_sequenceOf hb hr hlength hturn hcells

/-- Something is said of all entries: of several faults, the first. -/
theorem exists_decodes (b : Block) (entries : List Int) : ∃ r, b.Decodes entries r := by
  classical
  by_cases hlength : b.gridVariables ≤ entries.length
  · by_cases hturn : ∀ i x, entries[i]? = some x → InTurn i x
    · by_cases hcells : ∀ f t, b.applies f t = true → b.positives entries f t = 1
      · have hlevel : ∀ f t, ∃ l : Nat, b.applies f t = true →
            ∃ x, (b.cellEntries entries f t)[l]? = some x ∧ 0 < x := by
          intro f t
          by_cases happ : b.applies f t = true
          · obtain ⟨l, hl⟩ := exists_positive (hcells f t happ)
            exact ⟨l, fun _ => hl⟩
          · exact ⟨0, fun h => absurd h happ⟩
        choose choice hchoice using hlevel
        exact ⟨_, .sequence hlength hturn fun f t happ => ⟨hcells f t happ, hchoice f t happ⟩⟩
      · push Not at hcells
        obtain ⟨f, hf, hfactors⟩ := Nat.findX hcells
        obtain ⟨t, ⟨happ, hcount⟩, htrials⟩ := Nat.findX hf
        refine ⟨_, .levelCount hlength hturn happ hcount fun g u hgu hbefore => ?_⟩
        by_contra hne
        rcases hbefore with hg | ⟨rfl, hu⟩
        · exact hfactors g hg ⟨u, hgu, hne⟩
        · exact htrials u hu ⟨hgu, hne⟩
    · push Not at hturn
      obtain ⟨i, ⟨x, hi, hwrong⟩, hfirst⟩ := Nat.findX hturn
      refine ⟨_, .misordered hlength hi hwrong fun j hj y hy => ?_⟩
      by_contra hne
      exact hfirst j hj ⟨y, hy, hne⟩
  · exact ⟨_, .tooShort (Nat.lt_of_not_le hlength)⟩

/-! ## Entries of a choice -/

theorem length_entriesOf : (b.entriesOf choice).length = b.gridVariables := by
  rw [entriesOf, List.length_map, List.length_range]

theorem inTurn_entriesOf {i : Nat} {x : Int} (hi : (b.entriesOf choice)[i]? = some x) :
    InTurn i x := by
  rw [entriesOf, List.getElem?_map, Option.map_eq_some_iff] at hi
  obtain ⟨j, hj, rfl⟩ := hi
  obtain ⟨_, rfl⟩ := List.getElem?_eq_some_iff.mp hj
  rw [List.getElem_range]
  split
  · exact .inl rfl
  · exact .inr rfl

/-- The variable of a level is that of a chosen level only if the level is chosen. -/
theorem exists_variableAt_eq_iff (hb : b.WellFormed) (hr : b.InRange)
    (hchoice : ∀ f t, b.applies f t = true → choice f t < (b.design.factorAt f).size)
    (happ : b.applies f t = true) {l : Nat} (hl : l < (b.design.factorAt f).size) :
    (∃ g u, b.applies g u = true ∧
      b.variableAt u (b.dataIndex g (choice g u)) = b.variableAt t (b.dataIndex f l)) ↔
        l = choice f t := by
  obtain ⟨hf, ht, _⟩ := hb.applies_iff.mp happ
  constructor
  · intro h
    obtain ⟨g, u, happ', hvar⟩ := h
    obtain ⟨hg, hu, _⟩ := hb.applies_iff.mp happ'
    have hm := hchoice g u happ'
    obtain ⟨rfl, hindex⟩ :=
      hr.uncut.variableAt_inj hu (hb.dataIndex_lt hg hm) ht (hb.dataIndex_lt hf hl) hvar
    obtain ⟨rfl, hlevel⟩ := hb.dataIndex_inj hg hm hf hl hindex
    exact hlevel.symm
  · intro h
    exact ⟨f, t, happ, by rw [h]⟩

/-- Of the entries of a cell, that of the chosen level is positive. -/
theorem isChosen_entriesOf (hb : b.WellFormed) (hr : b.InRange)
    (hchoice : ∀ f t, b.applies f t = true → choice f t < (b.design.factorAt f).size)
    {aux : List Int} (happ : b.applies f t = true) {l : Nat} (hl : l < (b.design.factorAt f).size) :
    b.isChosen (b.entriesOf choice ++ aux).toArray f t l = true ↔ l = choice f t := by
  obtain ⟨hf, ht, _⟩ := hb.applies_iff.mp happ
  have hd := hb.dataIndex_lt hf hl
  have hle := hr.uncut.variableAt_le ht hd
  obtain ⟨i, hi⟩ := Nat.exists_eq_succ_of_ne_zero (Nat.ne_of_gt (hr.uncut.variableAt_pos ht hd))
  have hplace : i < b.gridVariables := by omega
  have htaken : ((List.range b.design.length).any fun g => (List.range b.trials).any fun u =>
      b.applies g u && b.variableAt u (b.dataIndex g (choice g u)) = i + 1) = true ↔
        l = choice f t := by
    rw [← exists_variableAt_eq_iff hb hr hchoice happ hl, hi]
    simp only [List.any_eq_true, List.mem_range, Bool.and_eq_true, decide_eq_true_eq]
    constructor
    · rintro ⟨g, _, u, _, h⟩
      exact ⟨g, u, h⟩
    · rintro ⟨g, u, h⟩
      obtain ⟨hg, hu, _⟩ := hb.applies_iff.mp h.1
      exact ⟨g, hg, u, hu, h⟩
  have hentry : (b.entriesOf choice ++ aux)[i]? =
      some (if l = choice f t then (i + 1 : Int) else -(i + 1 : Int)) := by
    rw [List.getElem?_append_left (length_entriesOf ▸ hplace), entriesOf, List.getElem?_map,
      List.getElem?_range hplace, Option.map_some]
    simp only [htaken]
  rw [isChosen, hi, Nat.succ_sub_one, List.getElem?_toArray, hentry, decide_eq_true_eq]
  split
  · rename_i heq
    exact iff_of_true (by omega) heq
  · rename_i hne
    exact iff_of_false (by omega) hne

/-- **Entries that are written for a choice are read as the choice**, whatever auxiliary entries
follow. -/
theorem decode_entriesOf (hb : b.WellFormed) (hr : b.InRange)
    (hchoice : ∀ f t, b.applies f t = true → choice f t < (b.design.factorAt f).size)
    {aux : List Int} (haux : ∀ i x, aux[i]? = some x → InTurn (b.gridVariables + i) x) :
    b.decode (b.entriesOf choice ++ aux).toArray = .ok (b.sequenceOf choice) := by
  refine decode_eq_sequenceOf hb hr ?_ (fun i x hi => ?_) fun f t happ => ?_
  · rw [List.length_append, length_entriesOf]
    exact Nat.le_add_right _ _
  · rw [List.getElem?_append, length_entriesOf] at hi
    split at hi
    · exact inTurn_entriesOf hi
    · rename_i hge
      have hturn := haux _ x hi
      rwa [Nat.add_sub_cancel' (Nat.not_lt.mp hge)] at hturn
  · rw [← filter_isChosen_eq_singleton_iff hb hr happ, Lists.filter_range_eq_singleton]
    refine ⟨⟨hchoice f t happ, ?_⟩, fun m hm => ?_⟩
    · exact (isChosen_entriesOf hb hr hchoice happ (hchoice f t happ)).mpr rfl
    · exact (isChosen_entriesOf hb hr hchoice happ hm.1).mp hm.2

/-- **Decoding says of entries what is true of them**, and gives back every choice of levels that
the trial variables were written for. -/
theorem decode_exact (hb : b.Accepted) (hr : b.InRange) :
    (∀ entries r, b.decode entries.toArray = r ↔ b.Decodes entries r) ∧
    ∀ choice, (∀ f t, b.applies f t = true → choice f t < (b.design.factorAt f).size) →
      ∀ aux : List Int, (∀ i x, aux[i]? = some x → InTurn (b.gridVariables + i) x) →
        b.decode (b.entriesOf choice ++ aux).toArray = .ok (b.sequenceOf choice) := by
  have hwf := hb.wellFormed
  refine ⟨fun entries r => ⟨fun h => ?_, fun h => h.decode_eq hwf hr⟩,
    fun choice hchoice aux haux => decode_entriesOf hwf hr hchoice haux⟩
  obtain ⟨r', hr'⟩ := b.exists_decodes entries
  exact h ▸ hr'.decode_eq hwf hr ▸ hr'

/-- Two trials of two colours, and whether the second repeats the first: a model that breaks off,
one with two entries exchanged, one with two colours in the first trial, and one that was written
for red and then green, with two auxiliary entries behind it. -/
theorem decode_exact_colors :
    ∃ b, ofTrials .colorRepeats ["color"] 2 [] = .ok b ∧
      b.Decodes [1, 2, -4, -3, -5, 6, -7] (.error (.tooShort 8 7)) ∧
      b.Decodes [1, 2, -4, -3, -5, 6, -7, 8] (.error (.misordered 2 (-4))) ∧
      b.Decodes [1, 2, -3, -4, -5, -6, -7, 8] (.error (.levelCount "color" 0 2)) ∧
      b.decode (b.entriesOf (fun f t => if f = 0 then t else 1) ++ [9, -10]).toArray =
        .ok (b.sequenceOf fun f t => if f = 0 then t else 1) := by
  have hblock : (ofTrials .colorRepeats ["color"] 2 []).map (fun b =>
      (decide (b.trials * b.trialSize ≤ maxVariable), b.gridVariables,
        [#[1, 2, -4, -3, -5, 6, -7], #[1, 2, -4, -3, -5, 6, -7, 8],
          #[1, 2, -3, -4, -5, -6, -7, 8]].map b.decode,
        (List.range b.design.length).all fun f => (List.range b.trials).all fun t =>
          (if f = 0 then t else 1) < (b.design.factorAt f).size)) =
      .ok (true, 8,
        [.error (.tooShort 8 7), .error (.misordered 2 (-4)), .error (.levelCount "color" 0 2)],
        true) := by
    decide +kernel
  obtain ⟨b, hb, hblock⟩ := Outcome.map_eq_ok.mp hblock
  simp only [Prod.mk.injEq, decide_eq_true_eq, List.all_eq_true, List.mem_range, List.map_cons,
    List.map_nil, List.cons.injEq, and_true] at hblock
  obtain ⟨hr, hgrid, ⟨hshort, hturn, hcount⟩, hchoice⟩ := hblock
  have haccepted : b.Accepted := ⟨_, _, _, .inl ⟨_, hb⟩⟩
  obtain ⟨hdecodes, hencoded⟩ := decode_exact haccepted hr
  refine ⟨b, hb, (hdecodes _ _).mp hshort, (hdecodes _ _).mp hturn, (hdecodes _ _).mp hcount,
    hencoded _ (fun f t happ => ?_) _ fun i x hi => ?_⟩
  · obtain ⟨hf, ht, _⟩ := haccepted.wellFormed.applies_iff.mp happ
    exact hchoice f hf t ht
  · rw [hgrid]
    match i with
    | 0 => exact .inl (Option.some.inj hi).symm
    | 1 => exact .inr (Option.some.inj hi).symm

end Block

end Counterbalance
