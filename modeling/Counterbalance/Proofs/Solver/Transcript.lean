import Mathlib.Data.List.Sort
import Counterbalance.Proofs.Outcome
import Counterbalance.Proofs.Text.Words
import Counterbalance.Solver.Transcript

/-! What a transcript says. The words of a line decide what it contributes, however they are set
apart; a transcript is read exactly if each of its lines has one of the known forms and there is an
answer. -/

namespace Counterbalance.Transcript

variable {cs w : List Char} {line : Line} {lines : List Line} {b : Bool}

/-- The word that states whether there is a model, and what it may be shortened to. -/
def statusWord : Bool → List Char
  | true => "SATISFIABLE".toList
  | false => "UNSATISFIABLE".toList

def shortStatusWord : Bool → List Char
  | true => "SAT".toList
  | false => "UNSAT".toList

theorem isWord_statusWord (b : Bool) : Text.IsWord (statusWord b) := by
  cases b <;> decide

theorem isWord_shortStatusWord (b : Bool) : Text.IsWord (shortStatusWord b) := by
  cases b <;> decide

/-- The lines that state whether there is a model, as words. -/
def statusLines (b : Bool) : List (List (List Char)) :=
  [[['s'], statusWord b], [shortStatusWord b], [statusWord b]]

/-- The words are integers of 32 bits. -/
def Entries (ws : List (List Char)) (xs : List Int) : Prop :=
  List.Forall₂ (fun w x => Text.readInt32? w = some x) ws xs

/-- What a line with these words contributes. -/
inductive Form : List (List Char) → Line → Prop where
  | blank : Form [] .nothing
  | comment {w : List Char} {ws : List (List Char)} (h : w.head? = some 'c') :
      Form (w :: ws) .nothing
  | noEntries : Form [['v']] .nothing
  | status {b : Bool} {ws : List (List Char)} (h : ws ∈ statusLines b) : Form ws (.status b)
  | marked {ws : List (List Char)} {xs : List Int} (hne : ws ≠ []) (h : Entries ws xs) :
      Form (['v'] :: ws) (.entries (xs.filter (· ≠ 0)))
  | unmarked {ws : List (List Char)} {xs : List Int} (hne : ws ≠ []) (h : Entries ws xs) :
      Form ws (.entries (xs.filter (· ≠ 0)))

/-! ## Words -/

/-- An integer begins with a digit or a sign. -/
theorem readInt32?_eq_none {c : Char} (hw : w.head? = some c) (hdigit : c.isDigit = false)
    (hminus : c ≠ '-') (hplus : c ≠ '+') : Text.readInt32? w = none := by
  obtain ⟨cs, rfl⟩ : ∃ cs, w = c :: cs := List.head?_eq_some_iff.mp hw
  have hnat : Text.readNat? (c :: cs) = none := by
    rw [Text.readNat?, if_neg fun h => ?_]
    rw [List.all_cons, hdigit, Bool.false_and] at h
    exact Bool.false_ne_true h.2
  rw [Text.readInt32?, Text.readInt?, hnat]
  · rfl
  · exact fun _ he => hminus (List.cons.inj he).1
  · exact fun _ he => hplus (List.cons.inj he).1

theorem readEntries_eq_ok :
    readEntries cs = .ok line ↔
      ∃ xs, Entries (Text.words cs) xs ∧ line = .entries (xs.filter (· ≠ 0)) := by
  have hentry : ∀ w x, readEntry w = .ok x ↔ Text.readInt32? w = some x := by
    intro w x
    unfold readEntry
    cases Text.readInt32? w with
    | none => exact iff_of_false nofun nofun
    | some y => rw [Except.ok.injEq, Option.some.injEq]
  rw [readEntries, Outcome.bind_eq_ok]
  simp only [Outcome.mapM_eq_ok, hentry, Except.ok.injEq, Entries, eq_comm (a := line)]

theorem readStatus_eq_ok :
    readStatus (Text.trim cs) = .ok b ↔ Text.words cs = [statusWord b] := by
  rw [← Text.trim_eq_iff (isWord_statusWord b)]
  constructor
  · intro h
    unfold readStatus at h
    split at h
    · obtain rfl := Except.ok.inj h
      assumption
    · split at h
      · obtain rfl := Except.ok.inj h
        assumption
      · cases h
  · intro h
    rw [h]
    cases b <;> rfl

theorem bareStatus?_eq_some_iff :
    bareStatus? w = some b ↔ w = shortStatusWord b ∨ w = statusWord b := by
  constructor
  · intro h
    unfold bareStatus? at h
    split at h
    · obtain rfl := Option.some.inj h
      assumption
    · split at h
      · obtain rfl := Option.some.inj h
        assumption
      · cases h
  · intro h
    obtain rfl | rfl := h <;> cases b <;> rfl

theorem words_of_bareStatus? (h : bareStatus? (Text.trim cs) = some b) :
    Text.words cs ∈ statusLines b := by
  obtain h | h := bareStatus?_eq_some_iff.mp h
  · rw [(Text.trim_eq_iff (isWord_shortStatusWord b)).mp h]
    exact List.mem_of_getElem? (i := 1) rfl
  · rw [(Text.trim_eq_iff (isWord_statusWord b)).mp h]
    exact List.mem_of_getElem? (i := 2) rfl

/-! ## Lines -/

/-- A line that is read has a form. -/
theorem form_of_readTrimmed (h : readTrimmed (Text.trim cs) = .ok line) :
    Form (Text.words cs) line := by
  unfold readTrimmed at h
  by_cases hne : Text.trim cs = []
  · rw [if_pos (.inl hne)] at h
    obtain rfl := Except.ok.inj h
    rw [Text.trim_eq_nil_iff.mp hne]
    exact .blank
  split at h
  · rename_i hcomment
    obtain rfl := Except.ok.inj h
    obtain ⟨w, ws, hwords, hhead, _⟩ := Text.exists_word_of_trim hne
    rw [hwords]
    exact .comment (hhead.symm.trans (hcomment.resolve_left hne))
  · split at h
    · -- a status after the letter that marks it
      rename_i rest hcut
      obtain ⟨hwords, _, _⟩ := Text.words_of_cutAtBlank? hcut
      obtain ⟨b, hb, rfl⟩ := Outcome.map_eq_ok.mp h
      rw [hwords, readStatus_eq_ok.mp hb]
      exact .status List.mem_cons_self
    · -- entries after the letter that marks them
      rename_i rest hcut
      obtain ⟨hwords, _, hmore⟩ := Text.words_of_cutAtBlank? hcut
      obtain ⟨xs, hxs, rfl⟩ := readEntries_eq_ok.mp h
      rw [hwords]
      exact .marked hmore hxs
    · split at h
      · rename_i b hb
        obtain rfl := Except.ok.inj h
        exact .status (words_of_bareStatus? hb)
      · split at h
        · rename_i hmark
          obtain rfl := Except.ok.inj h
          rw [(Text.trim_eq_iff (by decide)).mp hmark]
          exact .noEntries
        · obtain ⟨xs, hxs, rfl⟩ := readEntries_eq_ok.mp h
          rw [Text.words_trim] at hxs
          exact .unmarked (mt Text.trim_eq_nil_iff.mpr hne) hxs

theorem not_mem_statusLines {x : Int} {ws : List (List Char)} (hw : Text.readInt32? w = some x) :
    w :: ws ∉ statusLines b := by
  intro hmem
  have hnone : ∀ us ∈ statusLines b, us.head?.bind Text.readInt32? = none := by cases b <;> decide
  have hw' := hnone _ hmem
  rw [List.head?_cons, Option.bind_some, hw] at hw'
  cases hw'

theorem ne_of_readInt32? {x : Int} {u : List Char} (hw : Text.readInt32? w = some x)
    (hu : Text.readInt32? u = none) : w ≠ u := by
  intro h
  rw [h, hu] at hw
  cases hw

theorem readTrimmed_of_status (h : Text.words cs ∈ statusLines b) :
    readTrimmed (Text.trim cs) = .ok (.status b) := by
  simp only [statusLines, List.mem_cons, List.not_mem_nil, or_false] at h
  obtain hwords | hwords | hwords := h
  · obtain ⟨hne, hhead, ⟨_, _, hnil⟩ | ⟨rest, hcut, hrest, _⟩⟩ := Text.trim_of_words hwords
    · cases hnil
    · unfold readTrimmed
      rw [if_neg fun h => h.elim hne fun h => absurd (hhead.symm.trans h) (by decide), hcut]
      exact Outcome.map_eq_ok.mpr ⟨b, readStatus_eq_ok.mpr hrest.symm, rfl⟩
  · rw [(Text.trim_eq_iff (isWord_shortStatusWord b)).mpr hwords]
    cases b <;> rfl
  · rw [(Text.trim_eq_iff (isWord_statusWord b)).mpr hwords]
    cases b <;> rfl

theorem readTrimmed_of_entries {ws : List (List Char)} {xs : List Int} (hwords : Text.words cs = ws)
    (hne : ws ≠ []) (h : Entries ws xs) :
    readTrimmed (Text.trim cs) = .ok (.entries (xs.filter (· ≠ 0))) := by
  obtain ⟨w, ws, rfl⟩ := List.exists_cons_of_ne_nil hne
  obtain ⟨x, _, hx, _⟩ := List.forall₂_cons_left_iff.mp h
  obtain ⟨htrim, hhead, _⟩ := Text.trim_of_words hwords
  have hcomment : (Text.trim cs).head? ≠ some 'c' := by
    intro hc
    rw [readInt32?_eq_none (hhead.symm.trans hc) (by decide) (by decide) (by decide)] at hx
    cases hx
  have hcut :
      ∀ u rest, Text.readInt32? u = none → Text.cutAtBlank? (Text.trim cs) ≠ some (u, rest) := by
    intro u rest hu hcut
    obtain ⟨hcutwords, _, _⟩ := Text.words_of_cutAtBlank? hcut
    exact ne_of_readInt32? hx hu (List.cons.inj (hwords.symm.trans hcutwords)).1
  have hbare : bareStatus? (Text.trim cs) = none := by
    cases h : bareStatus? (Text.trim cs) with
    | none => rfl
    | some b => exact absurd (hwords ▸ words_of_bareStatus? h) (not_mem_statusLines hx)
  have hmark : Text.trim cs ≠ ['v'] := by
    intro htrim
    have hv := (Text.trim_eq_iff (by decide)).mp htrim
    exact ne_of_readInt32? hx (by decide) (List.cons.inj (hwords.symm.trans hv)).1
  unfold readTrimmed
  rw [if_neg fun h => h.elim htrim hcomment]
  split
  · rename_i rest h
    exact absurd h (hcut ['s'] rest (by decide))
  · rename_i rest h
    exact absurd h (hcut ['v'] rest (by decide))
  · rw [hbare]
    show (if _ then _ else _) = _
    rw [if_neg hmark]
    exact readEntries_eq_ok.mpr ⟨xs, by rwa [Text.words_trim, hwords], rfl⟩

/-- A line of a known form is read. -/
theorem readTrimmed_of_form (h : Form (Text.words cs) line) :
    readTrimmed (Text.trim cs) = .ok line := by
  generalize hwords : Text.words cs = ws at h
  cases h with
  | blank =>
    rw [Text.trim_eq_nil_iff.mpr hwords]
    rfl
  | comment hc =>
    obtain ⟨_, hhead, _⟩ := Text.trim_of_words hwords
    exact if_pos (.inr (hhead.trans hc))
  | noEntries =>
    rw [(Text.trim_eq_iff (by decide)).mpr hwords]
    rfl
  | status h => exact readTrimmed_of_status (hwords ▸ h)
  | marked hne h =>
    obtain ⟨htrim, hhead, ⟨_, _, hnil⟩ | ⟨rest, hcut, hrest, _⟩⟩ := Text.trim_of_words hwords
    · exact absurd hnil hne
    · unfold readTrimmed
      rw [if_neg fun h => h.elim htrim fun h => absurd (hhead.symm.trans h) (by decide), hcut]
      exact readEntries_eq_ok.mpr ⟨_, hrest ▸ h, rfl⟩
  | unmarked hne h => exact readTrimmed_of_entries hwords hne h

/-- The words of a line decide how it is read. -/
theorem readTrimmed_eq_ok : readTrimmed (Text.trim cs) = .ok line ↔ Form (Text.words cs) line :=
  ⟨form_of_readTrimmed, readTrimmed_of_form⟩

/-! ## Transcripts -/

/-- What the lines contribute, each of them readable and of a known form. -/
def Says (source : List (Option (List Char))) (lines : List Line) : Prop :=
  List.Forall₂ (fun cs? line => ∃ cs, cs? = some cs ∧ Form (Text.words cs) line) source lines

variable {source : List (Option (List Char))} {v : Verdict} {xs : List Int}

theorem readLines_eq_ok {number : Nat} :
    readLines number source = .ok lines ↔ Says source lines := by
  unfold Says
  induction source generalizing number lines with
  | nil =>
    rw [readLines, Except.ok.injEq, List.forall₂_nil_left_iff]
    exact eq_comm
  | cons cs? source ih =>
    rw [List.forall₂_cons_left_iff]
    cases cs? with
    | none => exact iff_of_false nofun fun ⟨_, _, ⟨_, hnone, _⟩, _⟩ => nomatch hnone
    | some cs =>
      rw [readLines, Outcome.bind_eq_ok]
      simp only [Outcome.mapError_eq_ok, Outcome.bind_eq_ok, readTrimmed_eq_ok, ih, Except.ok.injEq,
        Option.some.injEq]
      grind

theorem ofLines_eq_ok :
    ofLines source = .ok v ↔ ∃ lines, Says source lines ∧ conclude lines = .ok v := by
  rw [ofLines, Outcome.bind_eq_ok]
  simp only [readLines_eq_ok]

/-- A reported model has the entries of all lines. -/
theorem eq_of_conclude_satisfiable (h : conclude lines = .ok (.satisfiable xs)) :
    xs = sortByVariable (lines.flatMap Line.contents) := by
  unfold conclude at h
  split at h
  · cases h
  · cases h
  · exact (Verdict.satisfiable.inj (Except.ok.inj h)).symm

/-- Entries of which no status says otherwise are a model. -/
theorem conclude_of_entries (hstatus : ∀ line ∈ lines, line ≠ .status false)
    (hentries : lines.flatMap Line.contents ≠ []) :
    conclude lines = .ok (.satisfiable (sortByVariable (lines.flatMap Line.contents))) := by
  unfold conclude
  split
  · rename_i hlast
    obtain ⟨line, hline, hfalse⟩ := List.mem_filterMap.mp (List.mem_of_getLast? hlast)
    cases line with
    | nothing => cases hfalse
    | status b =>
      obtain rfl := Option.some.inj hfalse
      exact absurd rfl (hstatus _ hline)
    | entries xs => cases hfalse
  · rename_i hnil
    exact absurd hnil hentries
  · rfl

/-! ## Order of entries -/

theorem sortByVariable_perm (xs : List Int) : (sortByVariable xs).Perm xs :=
  List.mergeSort_perm xs _

/-- The order of variables, as the sort compares them, is transitive and total. -/
theorem variableOrder_trans (x y z : Int) :
    decide (x.natAbs ≤ y.natAbs) = true → decide (y.natAbs ≤ z.natAbs) = true →
      decide (x.natAbs ≤ z.natAbs) = true := by
  simp only [decide_eq_true_eq]
  exact Nat.le_trans

theorem variableOrder_total (x y : Int) :
    (decide (x.natAbs ≤ y.natAbs) || decide (y.natAbs ≤ x.natAbs)) = true := by
  simp only [Bool.or_eq_true, decide_eq_true_eq]
  exact Nat.le_total _ _

theorem pairwise_sortByVariable (xs : List Int) :
    (sortByVariable xs).Pairwise fun x y => x.natAbs ≤ y.natAbs := by
  have hpairs := List.pairwise_mergeSort variableOrder_trans variableOrder_total xs
  unfold sortByVariable
  simpa only [decide_eq_true_eq] using hpairs

/-- Sorted entries are those of the variables in turn exactly if none is missing and none is there
twice. -/
theorem map_natAbs_sortByVariable {n : Nat} :
    (sortByVariable xs).map Int.natAbs = List.range' 1 n ↔
      (xs.map Int.natAbs).Perm (List.range' 1 n) := by
  have hperm := (sortByVariable_perm xs).map Int.natAbs
  constructor
  · intro h
    exact h ▸ hperm.symm
  · intro h
    exact List.Perm.eq_of_pairwise (fun _ _ _ _ => Nat.le_antisymm)
      (List.pairwise_map.mpr (pairwise_sortByVariable xs)) (List.pairwise_le_range' 1)
        (hperm.trans h)

end Counterbalance.Transcript
