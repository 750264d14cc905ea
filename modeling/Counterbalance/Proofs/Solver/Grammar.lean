import Counterbalance.Proofs.Solver.Entries
import Counterbalance.Proofs.Text.Lines

/-! The grammar of transcripts. A text is read exactly if each of its lines has one of the known
forms and one of them answers; the error of any other text names the first line at fault. What is
read depends on the last status and on the literals, in order, and on nothing else about how the
text is set out. -/

namespace Counterbalance

namespace Transcript

variable {cs : List Char} {line : Line} {lines lines' : List Line} {source : List (List Char)}
  {n : Nat}

/-! ## Specification -/

/-- The line has one of the known forms. -/
def HasForm (cs : List Char) : Prop := ∃ line, Form (Text.words cs) line

/-- The line states whether there is a model, or has an entry of one. -/
def Line.Answers (line : Line) : Prop := line.status? ≠ none ∨ line.contents ≠ []

/-- What the last status line states. -/
def lastStatus? (lines : List Line) : Option Bool := (lines.filterMap Line.status?).getLast?

theorem isSome_readTrimmed_iff :
    (readTrimmed (Text.trim cs)).toOption.isSome = true ↔ HasForm cs := by
  simp only [Option.isSome_iff_exists, Outcome.toOption_eq_some, readTrimmed_eq_ok, HasForm]

instance (cs : List Char) : Decidable (HasForm cs) := decidable_of_iff _ isSome_readTrimmed_iff

/-- The number of the first line that has no known form, counted from 1, or 0 if there is none. -/
def faultyLine (source : List (List Char)) : Nat :=
  (source.findIdx? fun cs => ¬ HasForm cs).elim 0 (· + 1)

/-- What the lines of a text are read as. -/
structure ReadsByForm (source : List (List Char)) (verdict? : Except TranscriptError Verdict) :
    Prop where
  accepts : (∃ v, verdict? = .ok v) ↔
    (∀ cs ∈ source, HasForm cs) ∧ ∃ cs ∈ source, ∃ line, Form (Text.words cs) line ∧ line.Answers
  decides : ∀ v, verdict? = .ok v → ∃ lines, Says (source.map some) lines ∧
    (v = .unsatisfiable ↔ lastStatus? lines = some false) ∧
    ∀ xs, v = .satisfiable xs → SortedByVariable (lines.flatMap Line.contents) xs
  refuses : ∀ e, verdict? = .error e →
    ∃ what, e.message = "DIMACS line " ++ Nat.repr (faultyLine source) ++ ": " ++ what

/-- The lines of both have known forms, and say the same: the last status, and the literals in
order. -/
def SayAlike (source source' : List (List Char)) : Prop :=
  ∃ lines lines', Says (source.map some) lines ∧ Says (source'.map some) lines' ∧
    lastStatus? lines = lastStatus? lines' ∧
    lines.flatMap Line.contents = lines'.flatMap Line.contents

/-! ## Lines -/

theorem Form.unique {line' : Line} (h : Form (Text.words cs) line)
    (h' : Form (Text.words cs) line') : line = line' :=
  Except.ok.inj ((readTrimmed_of_form h).symm.trans (readTrimmed_of_form h'))

theorem says_map_some_iff :
    Says (source.map some) lines ↔
      List.Forall₂ (fun cs line => Form (Text.words cs) line) source lines := by
  unfold Says
  rw [List.forall₂_map_left_iff]
  simp only [Option.some.injEq, exists_eq_left']

theorem exists_says_iff : (∃ lines, Says (source.map some) lines) ↔ ∀ cs ∈ source, HasForm cs := by
  simp only [says_map_some_iff]
  induction source with
  | nil => exact iff_of_true ⟨[], .nil⟩ fun cs hcs => absurd hcs List.not_mem_nil
  | cons cs source ih =>
    rw [List.forall_mem_cons, ← ih]
    constructor
    · rintro ⟨_, _ | ⟨hform, hsays⟩⟩
      exact ⟨⟨_, hform⟩, _, hsays⟩
    · rintro ⟨⟨line, hform⟩, lines, hsays⟩
      exact ⟨line :: lines, .cons hform hsays⟩

theorem exists_answers_iff (h : Says (source.map some) lines) :
    (∃ cs ∈ source, ∃ line, Form (Text.words cs) line ∧ line.Answers) ↔
      ∃ line ∈ lines, line.Answers := by
  have hsays := says_map_some_iff.mp h
  constructor
  · rintro ⟨cs, hcs, line, hform, hanswers⟩
    obtain ⟨line', hline', hform'⟩ := Lists.exists_right_of_mem hsays hcs
    exact ⟨line', hline', hform.unique hform' ▸ hanswers⟩
  · rintro ⟨line, hline, hanswers⟩
    obtain ⟨cs, hcs, hform⟩ := Lists.exists_left_of_mem hsays hline
    exact ⟨cs, hcs, line, hform, hanswers⟩

/-- Reading lines fails at the first that has no known form. -/
theorem badLine_of_readLines {e : TranscriptError} (h : readLines n (source.map some) = .error e) :
    ∃ i fault, (source.findIdx? fun cs => ¬ HasForm cs) = some i ∧ e = .badLine (n + i) fault := by
  induction source generalizing n with
  | nil => cases h
  | cons cs source ih =>
    rw [List.map_cons, readLines] at h
    rw [List.findIdx?_cons]
    rcases Outcome.bind_eq_error.mp h with hfault | ⟨line, hline, hrest⟩
    · obtain ⟨fault, hread, rfl⟩ := Outcome.mapError_eq_error.mp hfault
      have hform : ¬ HasForm cs := by
        rintro ⟨_, hform⟩
        exact Outcome.ne_error (readTrimmed_of_form hform) fault hread
      exact ⟨0, fault, if_pos (decide_eq_true hform), rfl⟩
    · have hform : HasForm cs := ⟨line, form_of_readTrimmed (Outcome.mapError_eq_ok.mp hline)⟩
      rcases Outcome.bind_eq_error.mp hrest with hrest | ⟨_, _, hok⟩
      · obtain ⟨i, fault, hi, rfl⟩ := ih hrest
        refine ⟨i + 1, fault, ?_, by rw [Nat.add_assoc, Nat.add_comm 1]⟩
        rw [if_neg (by simpa using hform), hi]
        rfl
      · cases hok

/-- Lines are read trimmed. -/
theorem readLines_congr {source' : List (List Char)}
    (h : source.map Text.trim = source'.map Text.trim) :
    readLines n (source.map some) = readLines n (source'.map some) := by
  induction source generalizing source' n with
  | nil => rw [List.map_eq_nil_iff.mp h.symm]
  | cons cs source ih =>
    obtain ⟨cs', source', rfl, hcs, hsource⟩ := List.map_eq_cons_iff.mp h.symm
    rw [List.map_cons, List.map_cons, readLines, readLines, hcs, ih hsource.symm]

/-! ## Conclusions -/

theorem conclude_eq_unsatisfiable_iff :
    conclude lines = .ok .unsatisfiable ↔ lastStatus? lines = some false := by
  unfold conclude lastStatus?
  split
  · rename_i h
    exact iff_of_true rfl h
  · rename_i h _
    rw [h]
    exact iff_of_false nofun nofun
  · rename_i hne _
    exact iff_of_false nofun hne

theorem conclude_eq_error_iff {e : TranscriptError} :
    conclude lines = .error e ↔ e = .noAnswer ∧ lastStatus? lines = none ∧
      lines.flatMap Line.contents = [] := by
  unfold conclude lastStatus?
  split
  · rename_i h
    rw [h]
    exact iff_of_false nofun nofun
  · rename_i hstatus hentries
    rw [hstatus, hentries, Except.error.injEq, and_iff_left ⟨rfl, rfl⟩]
    exact eq_comm
  · rename_i _ hnone
    exact iff_of_false nofun fun h => hnone h.2.1 h.2.2

/-- There is no answer exactly if no line gives one. -/
theorem exists_line_answers_iff :
    (∃ line ∈ lines, line.Answers) ↔
      ¬ (lastStatus? lines = none ∧ lines.flatMap Line.contents = []) := by
  rw [lastStatus?, List.getLast?_eq_none_iff, List.filterMap_eq_nil_iff, List.flatMap_eq_nil_iff]
  constructor
  · rintro ⟨line, hline, hstatus | hentries⟩ ⟨hno, hnil⟩
    · exact hstatus (hno line hline)
    · exact hentries (hnil line hline)
  · intro h
    by_contra hnone
    simp only [Line.Answers, not_exists, not_and, not_or, not_not] at hnone
    exact h ⟨fun line hline => (hnone line hline).1, fun line hline => (hnone line hline).2⟩

theorem exists_conclude_iff : (∃ v, conclude lines = .ok v) ↔ ∃ line ∈ lines, line.Answers := by
  rw [exists_line_answers_iff]
  cases h : conclude lines with
  | ok v => exact iff_of_true ⟨v, rfl⟩ fun hnone =>
      Outcome.ne_error h _ (conclude_eq_error_iff.mpr ⟨rfl, hnone⟩)
  | error e => exact iff_of_false nofun fun hnot => hnot (conclude_eq_error_iff.mp h).2

theorem conclude_congr (hstatus : lastStatus? lines = lastStatus? lines')
    (hentries : lines.flatMap Line.contents = lines'.flatMap Line.contents) :
    conclude lines = conclude lines' := by
  unfold lastStatus? at hstatus
  unfold conclude
  rw [hstatus, hentries]

/-! ## Texts -/

theorem exists_ofLines_iff : (∃ v, ofLines (source.map some) = .ok v) ↔
    (∀ cs ∈ source, HasForm cs) ∧ ∃ cs ∈ source, ∃ line, Form (Text.words cs) line ∧
      line.Answers := by
  simp only [ofLines_eq_ok]
  constructor
  · rintro ⟨v, lines, hsays, hconclude⟩
    exact ⟨exists_says_iff.mp ⟨lines, hsays⟩,
      (exists_answers_iff hsays).mpr (exists_conclude_iff.mp ⟨v, hconclude⟩)⟩
  · rintro ⟨hforms, hanswers⟩
    obtain ⟨lines, hsays⟩ := exists_says_iff.mpr hforms
    obtain ⟨v, hconclude⟩ := exists_conclude_iff.mpr ((exists_answers_iff hsays).mp hanswers)
    exact ⟨v, lines, hsays, hconclude⟩

/-- The error of lines of text names the first at fault. -/
theorem message_of_ofLines {e : TranscriptError} (h : ofLines (source.map some) = .error e) :
    ∃ what, e.message = "DIMACS line " ++ Nat.repr (faultyLine source) ++ ": " ++ what := by
  rcases Outcome.bind_eq_error.mp h with hread | ⟨lines, hread, hconclude⟩
  · obtain ⟨i, fault, hi, rfl⟩ := badLine_of_readLines hread
    rw [faultyLine, hi, Option.elim_some, Nat.add_comm i]
    exact ⟨fault.message, rfl⟩
  · have hforms := exists_says_iff.mp ⟨lines, readLines_eq_ok.mp hread⟩
    have hnone : (source.findIdx? fun cs => ¬ HasForm cs) = none :=
      List.findIdx?_eq_none_iff.mpr fun cs hcs => decide_eq_false (not_not.mpr (hforms cs hcs))
    rw [faultyLine, hnone, (conclude_eq_error_iff.mp hconclude).1]
    exact ⟨"no solver status or assignment found", rfl⟩

theorem readsByForm_ofLines (source : List (List Char)) :
    ReadsByForm source (ofLines (source.map some)) where
  accepts := exists_ofLines_iff
  decides := by
    intro v hv
    obtain ⟨lines, hsays, hconclude⟩ := ofLines_eq_ok.mp hv
    refine ⟨lines, hsays, ?_, ?_⟩
    · rw [← conclude_eq_unsatisfiable_iff, hconclude, Except.ok.injEq]
    · rintro xs rfl
      exact sortedByVariable_iff.mpr (eq_of_conclude_satisfiable hconclude)
  refuses := fun _ => message_of_ofLines

/-! ## Texts set out differently -/

theorem says_append_iff {before after : List (Option (List Char))} :
    Says (before ++ after) lines ↔ ∃ l l', lines = l ++ l' ∧ Says before l ∧ Says after l' := by
  constructor
  · intro h
    have htake := List.forall₂_take before.length h
    have hdrop := List.forall₂_drop before.length h
    rw [List.take_left] at htake
    rw [List.drop_left] at hdrop
    exact ⟨_, _, (List.take_append_drop before.length lines).symm, htake, hdrop⟩
  · rintro ⟨l, l', rfl, hbefore, hafter⟩
    exact List.rel_append hbefore hafter

theorem Says.unique (h : Says (source.map some) lines) (h' : Says (source.map some) lines') :
    lines = lines' := by
  have hread : readLines 1 (source.map some) = .ok lines := readLines_eq_ok.mpr h
  exact Except.ok.inj (hread.symm.trans (readLines_eq_ok.mpr h'))

theorem lastStatus?_append (l l' : List Line) :
    lastStatus? (l ++ l') = (lastStatus? l').or (lastStatus? l) := by
  rw [lastStatus?, List.filterMap_append, List.getLast?_append, lastStatus?, lastStatus?]

theorem SayAlike.symm {block block' : List (List Char)} (h : SayAlike block block') :
    SayAlike block' block := by
  obtain ⟨lines, lines', hsays, hsays', hstatus, hentries⟩ := h
  exact ⟨lines', lines, hsays', hsays, hstatus.symm, hentries.symm⟩

/-- Lines give way to others that say the same. -/
theorem SayAlike.replace {before block block' after : List (List Char)} {v : Verdict}
    (h : SayAlike block block') (hv : ofLines ((before ++ block ++ after).map some) = .ok v) :
    ofLines ((before ++ block' ++ after).map some) = .ok v := by
  obtain ⟨lines, hsays, hconclude⟩ := ofLines_eq_ok.mp hv
  simp only [List.map_append, says_append_iff] at hsays
  obtain ⟨_, l₃, rfl, ⟨l₁, l₂, rfl, hbefore, hblock⟩, hafter⟩ := hsays
  obtain ⟨l, l', hl, hl', hstatus, hentries⟩ := h
  -- the lines before and after keep what they say, and the block says it in other lines
  obtain rfl := hblock.unique hl
  refine ofLines_eq_ok.mpr ⟨l₁ ++ l' ++ l₃, ?_, ?_⟩
  · simp only [List.map_append, says_append_iff]
    exact ⟨_, _, rfl, ⟨_, _, rfl, hbefore, hl'⟩, hafter⟩
  · rw [← hconclude]
    refine conclude_congr ?_ ?_
    · simp only [lastStatus?_append, hstatus]
    · simp only [List.flatMap_append, hentries]

end Transcript

namespace Verdict

open Transcript

/-- **Texts are read by their grammar.** Lines may give way to others that say the same, and end
either way. -/
theorem ofText_by_form (text : String) :
    ReadsByForm (Text.lines text.toList) (ofText text) ∧
    (∀ (text' : String) (before block block' after : List (List Char)),
      Text.lines text.toList = before ++ block ++ after →
      Text.lines text'.toList = before ++ block' ++ after →
      SayAlike block block' → ∀ v, ofText text = .ok v ↔ ofText text' = .ok v) ∧
    ∀ text' : String, Text.unifyEnds text.toList = Text.unifyEnds text'.toList →
      ofText text = ofText text' := by
  refine ⟨readsByForm_ofLines _, fun text' before block block' after htext htext' hsay v => ?_,
    fun text' hends => ?_⟩
  · rw [ofText, ofText, htext, htext']
    exact ⟨hsay.replace, hsay.symm.replace⟩
  · rw [ofText, ofText, ofLines, ofLines, readLines_congr (Text.map_trim_lines hends)]

theorem ofText_by_form_dialects :
    (∃ v, ofText "SAT\n2 -1 0\n" = .ok v) ∧
    (∀ v, ofText "SAT\n2 -1 0\n" = .ok v ↔ ofText "SAT\nv 2\n\nc one more\nv -1\n0\n" = .ok v) ∧
    ofText "SAT\n2 -1 0\n" = ofText "SAT\r\n2 -1 0\r\n" ∧
    ∃ e what, ofText "SAT\n2 x 0\n" = .error e ∧
      e.message = "DIMACS line " ++ Nat.repr 2 ++ ": " ++ what := by
  obtain ⟨hreads, hreplace, hends⟩ := ofText_by_form "SAT\n2 -1 0\n"
  have hstatus : Form (Text.words "SAT".toList) (.status true) :=
    form_of_readTrimmed (by decide +kernel)
  have halike : SayAlike ["2 -1 0".toList]
      ["v 2".toList, [], "c one more".toList, "v -1".toList, "0".toList] := by
    refine ⟨[.entries [2, -1]], [.entries [2], .nothing, .nothing, .entries [-1], .entries []],
      readLines_eq_ok.mp (show readLines 1 _ = _ from ?_),
      readLines_eq_ok.mp (show readLines 1 _ = _ from ?_), ?_⟩
    all_goals decide +kernel
  have herror : ofText "SAT\n2 x 0\n" = .error (.badLine 2 (.invalidLiteral ['x'])) := by
    decide +kernel
  obtain ⟨what, hwhat⟩ := (ofText_by_form "SAT\n2 x 0\n").1.refuses _ herror
  have hline : faultyLine (Text.lines "SAT\n2 x 0\n".toList) = 2 := by decide +kernel
  refine ⟨hreads.accepts.mpr ⟨by decide +kernel, _, ?_, _, hstatus, .inl nofun⟩, ?_, ?_, ?_⟩
  · decide +kernel
  · exact hreplace _ ["SAT".toList] _ _ [[]] (by decide +kernel) (by decide +kernel) halike
  · exact hends _ (by decide +kernel)
  · exact ⟨_, what, herror, hline ▸ hwhat⟩

end Verdict

end Counterbalance
