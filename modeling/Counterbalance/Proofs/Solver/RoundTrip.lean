import Counterbalance.Proofs.Solver.Entries
import Counterbalance.Proofs.Text.Decimals

/-! Verdicts written and read again. What is written has one line for the status and one for the
entries, so it is read as those entries without the zeros, in order. A verdict that was read has no
zeros and is in order, and is therefore read again as it is. -/

namespace Counterbalance

namespace Verdict

open Transcript

variable {xs : List Int} {v : Verdict}

/-! ## Written texts -/

/-- The line of entries. -/
def entryLine (xs : List Int) : List Char :=
  (['v'] :: xs.map fun x => (Text.decimal x).toList).flatMap (· ++ [' ']) ++ ['0']

theorem toList_text (xs : List Int) :
    (satisfiable xs).text.toList =
      "s SATISFIABLE".toList ++ '\n' :: (entryLine xs ++ '\n' :: []) := by
  have hjoin : (String.join (xs.map fun x => Text.decimal x ++ " ")).toList =
      (xs.map fun x => (Text.decimal x).toList).flatMap (· ++ [' ']) := by
    rw [String.toList_join, List.flatMap_map, List.flatMap_map]
    simp only [String.toList_append, show " ".toList = [' '] from rfl]
  have hstatus : "s SATISFIABLE\nv ".toList = "s SATISFIABLE".toList ++ '\n' :: ['v', ' '] := by
    decide +kernel
  have hend : "0\n".toList = ['0', '\n'] := by decide +kernel
  have htext : (satisfiable xs).text =
      "s SATISFIABLE\nv " ++ String.join (xs.map fun x => Text.decimal x ++ " ") ++ "0\n" := rfl
  rw [htext, String.toList_append, String.toList_append, hjoin, hstatus, hend, entryLine,
    List.flatMap_cons]
  simp only [List.append_assoc, List.cons_append, List.nil_append]

theorem isWord_of_mem {w : List Char} (hw : w ∈ ['v'] :: xs.map fun x => (Text.decimal x).toList) :
    Text.IsWord w := by
  rcases List.mem_cons.mp hw with rfl | hw
  · decide
  · obtain ⟨x, _, rfl⟩ := List.mem_map.mp hw
    exact Text.isWord_decimal x

theorem words_entryLine (xs : List Int) :
    Text.words (entryLine xs) = ['v'] :: ((xs ++ [0]).map fun x => (Text.decimal x).toList) := by
  rw [entryLine, Text.words_flatMap_space fun w => isWord_of_mem, List.map_append, List.cons_append]
  rfl

theorem newline_notMem_entryLine (xs : List Int) : '\n' ∉ entryLine xs :=
  Text.newline_notMem_spaced (fun _ => isWord_of_mem) (by decide)

theorem lines_text (xs : List Int) :
    Text.lines (satisfiable xs).text.toList = ["s SATISFIABLE".toList, entryLine xs, []] := by
  rw [toList_text, Text.lines_append_newline (by decide),
    Text.lines_append_newline (newline_notMem_entryLine xs)]
  rfl

/-! ## Reading them -/

theorem form_entryLine (hxs : ∀ x ∈ xs, Text.InInt32 x) :
    Form (Text.words (entryLine xs)) (.entries (xs.filter (· ≠ 0))) := by
  have hentries : Entries ((xs ++ [0]).map fun x => (Text.decimal x).toList) (xs ++ [0]) := by
    refine List.forall₂_map_left_iff.mpr
      (List.forall₂_same.mpr fun x hx => Text.readInt32?_decimal ?_)
    rcases List.mem_append.mp hx with hx | hx
    · exact hxs x hx
    · exact List.mem_singleton.mp hx ▸ by decide
  rw [words_entryLine]
  have hform := Form.marked (by simp) hentries
  rwa [List.filter_append, show [(0 : Int)].filter (· ≠ 0) = [] from rfl, List.append_nil] at hform

theorem says_text (hxs : ∀ x ∈ xs, Text.InInt32 x) :
    Says ((Text.lines (satisfiable xs).text.toList).map some)
      [.status true, .entries (xs.filter (· ≠ 0)), .nothing] := by
  rw [lines_text]
  exact .cons ⟨_, rfl, form_of_readTrimmed (by decide +kernel)⟩
    (.cons ⟨_, rfl, form_entryLine hxs⟩ (.cons ⟨_, rfl, .blank⟩ .nil))

/-- A model is read again without its zeros, in order. -/
theorem ofText_text_satisfiable (hxs : ∀ x ∈ xs, Text.InInt32 x) :
    ofText (satisfiable xs).text = .ok (.satisfiable (sortByVariable (xs.filter (· ≠ 0)))) := by
  refine ofLines_eq_ok.mpr ⟨_, says_text hxs, ?_⟩
  have hcontents : ∀ ys, [Line.status true, .entries ys, .nothing].flatMap Line.contents = ys :=
    fun ys =>
    List.append_nil ys
  rw [conclude, hcontents]
  rfl

theorem ofText_text_unsatisfiable : ofText unsatisfiable.text = .ok .unsatisfiable := by
  decide +kernel

/-- A verdict that was read is read again as it is. -/
theorem ofText_text_of_ofLines {source : List (Option (List Char))} (h : ofLines source = .ok v) :
    ofText v.text = .ok v := by
  cases v with
  | unsatisfiable => exact ofText_text_unsatisfiable
  | satisfiable xs =>
    obtain ⟨lines, hsays, hsorted⟩ := entries_of_ofLines h
    have hliteral : ∀ x ∈ xs, x ≠ 0 ∧ Text.InInt32 x := fun x hx =>
      Says.isLiteral hsays (hsorted.perm.mem_iff.mp hx)
    have hnonzero : xs.filter (· ≠ 0) = xs :=
      List.filter_eq_self.mpr fun x hx => decide_eq_true (hliteral x hx).1
    rw [ofText_text_satisfiable fun x hx => (hliteral x hx).2, hnonzero,
      sortByVariable_of_ascending hsorted.ascending]

/-- **What is written is read again**: of a model the entries that are not zero, in order, and of a
verdict that was read all of it. -/
theorem text_round_trip :
    (∀ xs : List Int, (∀ x ∈ xs, Text.InInt32 x) →
      ∃ ys, SortedByVariable (xs.filter (· ≠ 0)) ys ∧
        ofText (satisfiable xs).text = .ok (.satisfiable ys)) ∧
    ofText unsatisfiable.text = .ok .unsatisfiable ∧
    (∀ text v, ofText text = .ok v → ofText v.text = .ok v) ∧
    ∀ bytes v, ofBytes bytes = .ok v → ofText v.text = .ok v :=
  ⟨fun _ hxs => ⟨_, sortedByVariable_sortByVariable _, ofText_text_satisfiable hxs⟩,
    ofText_text_unsatisfiable, fun _ _ => ofText_text_of_ofLines, fun _ _ => ofText_text_of_ofLines⟩

theorem text_round_trip_extremes :
    (∃ ys, SortedByVariable [3, Text.minInt32, -1, 1, Text.maxInt32, -1] ys ∧
      ofText (satisfiable [3, 0, Text.minInt32, -1, 1, Text.maxInt32, -1]).text =
        .ok (.satisfiable ys)) ∧
    ofText (satisfiable []).text = .ok (.satisfiable []) ∧
    ofText (satisfiable [2, -2]).text = .ok (.satisfiable [2, -2]) := by
  obtain ⟨hwritten, _, hread, _⟩ := text_round_trip
  refine ⟨?_, ?_, ?_⟩
  · obtain ⟨ys, hsorted, hys⟩ :=
      hwritten [3, 0, Text.minInt32, -1, 1, Text.maxInt32, -1] (by decide)
    exact ⟨ys, hsorted, hys⟩
  · obtain ⟨ys, hsorted, hys⟩ := hwritten [] (by decide)
    rwa [hsorted.perm.eq_nil] at hys
  · have htext : ofText "v 2 -2 0\n" = .ok (.satisfiable (sortByVariable [2, -2])) := rfl
    rw [sortByVariable_of_ascending (by decide)] at htext
    exact hread _ _ htext

end Verdict

end Counterbalance
