import Counterbalance.Proofs.Solver.Transcript

/-! The entries of a model, in order. They are the non-zero literals of a transcript, ascending by
variable, and those of one variable stay as the transcript has them. Reading takes no literal away:
a variable that the transcript names twice has two entries, even if they contradict each other. -/

namespace Counterbalance.Transcript

variable {xs ys zs : List Int}

/-- The second list has the entries of the first, ascending by variable; those of one variable keep
their order. -/
structure SortedByVariable (xs ys : List Int) : Prop where
  ascending : ys.Pairwise fun x y => x.natAbs ≤ y.natAbs
  stable : ∀ v : Nat, ys.filter (fun y => y.natAbs = v) = xs.filter (fun x => x.natAbs = v)

theorem sortedByVariable_sortByVariable (xs : List Int) :
    SortedByVariable xs (sortByVariable xs) where
  ascending := pairwise_sortByVariable xs
  stable := by
    intro v
    -- entries of one variable are in order as they are, so the sort keeps them as a sublist
    have hsame :
        (xs.filter fun x => x.natAbs = v).Pairwise fun x y => decide (x.natAbs ≤ y.natAbs) = true :=
      List.pairwise_of_forall_mem_list fun x hx y hy => by
        have hx := of_decide_eq_true (List.mem_filter.mp hx).2
        have hy := of_decide_eq_true (List.mem_filter.mp hy).2
        exact decide_eq_true (hx.trans hy.symm).le
    have hsub :=
      List.sublist_mergeSort variableOrder_trans variableOrder_total hsame List.filter_sublist
    have hfilter := hsub.filter (fun x => decide (x.natAbs = v))
    rw [List.filter_filter] at hfilter
    simp only [Bool.and_self] at hfilter
    refine (hfilter.eq_of_length ?_).symm
    exact ((sortByVariable_perm xs).filter _).length_eq.symm

theorem mem_of_filters {x : Int}
    (hfilters : ∀ v : Nat, xs.filter (fun x => x.natAbs = v) = ys.filter (fun x => x.natAbs = v))
    (hx : x ∈ xs) : x ∈ ys := by
  have hmem : x ∈ xs.filter fun y => y.natAbs = x.natAbs :=
    List.mem_filter.mpr ⟨hx, decide_eq_true rfl⟩
  rw [hfilters] at hmem
  exact List.mem_of_mem_filter hmem

/-- The first entry of a sorted list has the least variable of all lists with the same entries of
each. -/
theorem natAbs_head_le {y z : Int} (hy : (y :: ys).Pairwise fun x y => x.natAbs ≤ y.natAbs)
    (hfilters : ∀ v : Nat, (y :: ys).filter (fun x => x.natAbs = v) =
      (z :: zs).filter (fun x => x.natAbs = v)) : y.natAbs ≤ z.natAbs := by
  have hz : z ∈ y :: ys := mem_of_filters (fun v => (hfilters v).symm) List.mem_cons_self
  rcases List.mem_cons.mp hz with rfl | hz
  · exact Nat.le_refl _
  · exact (List.pairwise_cons.mp hy).1 z hz

theorem eq_of_filters (hy : ys.Pairwise fun x y => x.natAbs ≤ y.natAbs)
    (hz : zs.Pairwise fun x y => x.natAbs ≤ y.natAbs)
    (hfilters : ∀ v : Nat, ys.filter (fun x => x.natAbs = v) = zs.filter (fun x => x.natAbs = v)) :
    ys = zs := by
  induction ys generalizing zs with
  | nil =>
    refine (List.eq_nil_iff_forall_not_mem.mpr fun z hz => ?_).symm
    exact List.not_mem_nil (mem_of_filters (fun v => (hfilters v).symm) hz)
  | cons y ys ih =>
    cases zs with
    | nil => exact absurd (mem_of_filters hfilters List.mem_cons_self) List.not_mem_nil
    | cons z zs =>
      -- both lists begin with the least variable, so what they have of it begins alike
      have hvar : y.natAbs = z.natAbs :=
        Nat.le_antisymm (natAbs_head_le hy hfilters) (natAbs_head_le hz fun v => (hfilters v).symm)
      have hhead := hfilters z.natAbs
      simp only [List.filter_cons, hvar, decide_true, if_true] at hhead
      obtain ⟨rfl, htail⟩ := List.cons.inj hhead
      refine congrArg (y :: ·)
        (ih (List.pairwise_cons.mp hy).2 (List.pairwise_cons.mp hz).2 fun v => ?_)
      by_cases hv : y.natAbs = v
      · exact hv ▸ htail
      · have hrest := hfilters v
        simpa only [List.filter_cons, hv, decide_false, if_false, Bool.false_eq_true] using hrest

/-- There is exactly one such order. -/
theorem sortedByVariable_iff : SortedByVariable xs ys ↔ ys = sortByVariable xs := by
  have hsort := sortedByVariable_sortByVariable xs
  constructor
  · intro h
    exact eq_of_filters h.ascending hsort.ascending fun v =>
      (h.stable v).trans (hsort.stable v).symm
  · rintro rfl
    exact hsort

/-- Entries that are in order stay as they are. -/
theorem sortByVariable_of_ascending (h : xs.Pairwise fun x y => x.natAbs ≤ y.natAbs) :
    sortByVariable xs = xs :=
  (sortedByVariable_iff.mp ⟨h, fun _ => rfl⟩).symm

theorem SortedByVariable.perm (h : SortedByVariable xs ys) : ys.Perm xs := by
  rw [sortedByVariable_iff.mp h]
  exact sortByVariable_perm xs

theorem pairwise_lt_iff (hperm : ys.Perm xs)
    (hascending : ys.Pairwise fun x y => x.natAbs ≤ y.natAbs) :
    ys.Pairwise (fun x y => x.natAbs < y.natAbs) ↔ (xs.map Int.natAbs).Nodup := by
  rw [← (hperm.map Int.natAbs).nodup_iff, List.Nodup, List.pairwise_map]
  constructor
  · exact List.Pairwise.imp Nat.ne_of_lt
  · intro hne
    exact (hascending.and hne).imp fun h => Nat.lt_of_le_of_ne h.1 h.2

/-- What a line contributes are literals: integers of 32 bits, and no zeros. -/
theorem Form.isLiteral {ws : List (List Char)} {line : Line} (h : Form ws line) {x : Int}
    (hx : x ∈ line.contents) : x ≠ 0 ∧ Text.InInt32 x := by
  have hentries : ∀ {us zs}, Entries us zs → x ∈ zs.filter (· ≠ 0) → x ≠ 0 ∧ Text.InInt32 x := by
    intro us zs hus hx
    obtain ⟨hx, hne⟩ := List.mem_filter.mp hx
    obtain ⟨w, _, hw⟩ := Lists.exists_left_of_mem hus hx
    obtain ⟨_, hrange⟩ := Option.filter_eq_some_iff.mp hw
    exact ⟨of_decide_eq_true hne, of_decide_eq_true hrange⟩
  cases h with
  | blank | comment | noEntries | status => cases hx
  | marked _ hws | unmarked _ hws => exact hentries hws hx

theorem Says.isLiteral {source : List (Option (List Char))} {lines : List Line}
    (h : Says source lines) {x : Int} (hx : x ∈ lines.flatMap Line.contents) :
    x ≠ 0 ∧ Text.InInt32 x := by
  obtain ⟨line, hline, hx⟩ := List.mem_flatMap.mp hx
  obtain ⟨_, _, _, _, hform⟩ := Lists.exists_left_of_mem h hline
  exact hform.isLiteral hx

/-- A reported model has the literals of all lines, in order. -/
theorem entries_of_ofLines {source : List (Option (List Char))}
    (h : ofLines source = .ok (.satisfiable xs)) :
    ∃ lines, Says source lines ∧ SortedByVariable (lines.flatMap Line.contents) xs := by
  obtain ⟨lines, hsays, hconclude⟩ := ofLines_eq_ok.mp h
  exact ⟨lines, hsays, sortedByVariable_iff.mpr (eq_of_conclude_satisfiable hconclude)⟩

end Counterbalance.Transcript

namespace Counterbalance.Verdict

open Transcript

/-- The entries of a model that is read are the non-zero literals of the text, in order. Each
variable has one entry exactly if the text names none twice. -/
theorem strictlyAscending_iff {text : String} {xs : List Int}
    (h : ofText text = .ok (.satisfiable xs)) :
    ∃ lines, Says ((Text.lines text.toList).map some) lines ∧
      SortedByVariable (lines.flatMap Line.contents) xs ∧ (∀ x ∈ xs, x ≠ 0) ∧
      (xs.Pairwise (fun x y => x.natAbs < y.natAbs) ↔
        ((lines.flatMap Line.contents).map Int.natAbs).Nodup) := by
  obtain ⟨lines, hsays, hsorted⟩ := entries_of_ofLines h
  refine ⟨lines, hsays, hsorted, fun x hx => ?_, pairwise_lt_iff hsorted.perm hsorted.ascending⟩
  obtain ⟨hne, _⟩ := hsays.isLiteral (hsorted.perm.mem_iff.mp hx)
  exact hne

theorem strictlyAscending_iff_unordered :
    ofText "s SATISFIABLE\nv 3 -1\nv 2 0\n" = .ok (.satisfiable [-1, 2, 3]) ∧
    ∃ lines, Says ((Text.lines "s SATISFIABLE\nv 3 -1\nv 2 0\n".toList).map some) lines ∧
      SortedByVariable (lines.flatMap Line.contents) [-1, 2, 3] ∧
      (∀ x ∈ [(-1 : Int), 2, 3], x ≠ 0) ∧
      ([(-1 : Int), 2, 3].Pairwise (fun x y => x.natAbs < y.natAbs) ↔
        ((lines.flatMap Line.contents).map Int.natAbs).Nodup) := by
  have hread : ofText "s SATISFIABLE\nv 3 -1\nv 2 0\n" =
      .ok (.satisfiable (sortByVariable [3, -1, 2])) := rfl
  have hsort : sortByVariable [3, -1, 2] = [-1, 2, 3] := by
    simp [sortByVariable, List.mergeSort, List.MergeSort.Internal.splitInTwo]
  rw [hsort] at hread
  exact ⟨hread, strictlyAscending_iff hread⟩

/-- A text may assert a literal and its negation; both are entries. -/
theorem contradictory_entries_read :
    ofText "v 1 -1 0\n" = .ok (.satisfiable [1, -1]) ∧
      ¬ [(1 : Int), -1].Pairwise (fun x y => x.natAbs < y.natAbs) := by
  have hread : ofText "v 1 -1 0\n" = .ok (.satisfiable (sortByVariable [1, -1])) := rfl
  rw [sortByVariable_of_ascending (by decide)] at hread
  exact ⟨hread, by decide⟩

end Counterbalance.Verdict
