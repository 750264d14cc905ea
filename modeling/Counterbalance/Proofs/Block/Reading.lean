import Counterbalance.Proofs.Block.Models
import Counterbalance.Proofs.Solver.Transcript

/-! Sequences read from transcripts. A transcript is read as a sequence only if its entries are one
of each variable up to some number, which the trial variables do not exceed; the sequence then shows
the levels whose variables are listed as true. Every such transcript is read, however its entries
are ordered and set out. -/

namespace Counterbalance

open Transcript (Line Says sortByVariable)

namespace Block

variable {b : Block} {s : Sequence} {xs : List Int} {n : Nat}

/-! ## Specification -/

/-- Level `l` of factor `f` is listed as true in trial `t`. -/
def Listing (b : Block) (xs : List Int) (f t l : Nat) : Prop :=
  l < (b.design.factorAt f).size ∧ (b.variableAt t (b.dataIndex f l) : Int) ∈ xs

/-- The sequence shows the levels that are listed as true where factors apply, and nothing
elsewhere. -/
structure Reports (b : Block) (xs : List Int) (s : Sequence) : Prop where
  gives : ∀ f < b.design.length, ∀ t l, b.Gives s f t l ↔ b.applies f t = true ∧ b.Listing xs f t l
  silent : ∀ f < b.design.length,
    ∀ t, b.applies f t = false → s.get? (b.design.factorAt f).name t = none

/-- The entries are one of each variable up to `n`, among these the trial variables. -/
def ListsEach (b : Block) (xs : List Int) (n : Nat) : Prop :=
  b.gridVariables ≤ n ∧ (xs.map Int.natAbs).Perm (List.range' 1 n)

/-- How a solver's output is read by way of its verdict. -/
structure ReadsFaithfully (b : Block) (source : List (Option (List Char)))
    (verdict? : Except TranscriptError Verdict) : Prop where
  sound : ∀ v s, verdict? = .ok v → b.decodeVerdict v = .ok (some s) →
    ∃ lines n, Says source lines ∧ b.ListsEach (lines.flatMap Line.contents) n ∧
      b.Reports (lines.flatMap Line.contents) s
  complete : ∀ lines n, Says source lines → (∀ line ∈ lines, line ≠ .status false) → 0 < n →
    b.ListsEach (lines.flatMap Line.contents) n →
    (∀ f t, b.applies f t = true → ∃! l, b.Listing (lines.flatMap Line.contents) f t l) →
    ∃ v s, verdict? = .ok v ∧ b.decodeVerdict v = .ok (some s) ∧
      b.Reports (lines.flatMap Line.contents) s

/-! ## Entries in order -/

/-- The truth assignment under which the listed variables are true and no others. -/
def listed (xs : List Int) (v : Nat) : Bool := decide ((v : Int) ∈ xs)

theorem map_natAbs_eq_range'_iff :
    xs.map Int.natAbs = List.range' 1 n ↔
      xs.length = n ∧ ∀ i x, xs[i]? = some x → x.natAbs = i + 1 := by
  constructor
  · intro h
    refine ⟨by rw [← List.length_map Int.natAbs, h, List.length_range'], fun i x hx => ?_⟩
    have hget : (xs.map Int.natAbs)[i]? = some x.natAbs := by
      rw [List.getElem?_map, hx, Option.map_some]
    rw [h] at hget
    obtain ⟨hi, hget⟩ := List.getElem?_eq_some_iff.mp hget
    rw [List.getElem_range'] at hget
    omega
  · intro h
    obtain ⟨rfl, h⟩ := h
    refine List.ext_getElem (by rw [List.length_map, List.length_range']) fun i hi _ => ?_
    rw [List.length_map] at hi
    rw [List.getElem_map, List.getElem_range', h i _ (List.getElem?_eq_getElem hi)]
    omega

theorem misorderedEntry?_eq_none_iff :
    misorderedEntry? xs.toArray = none ↔ xs.map Int.natAbs = List.range' 1 xs.length := by
  rw [map_natAbs_eq_range'_iff, and_iff_right rfl, misorderedEntry?, Option.map_eq_none_iff,
    List.find?_eq_none]
  constructor
  · intro h i x hx
    exact Decidable.not_not.mp fun hne =>
      h (x, i) (List.mem_zipIdx_iff_getElem?.mpr hx) (decide_eq_true hne)
  · intro h p hp hne
    exact of_decide_eq_true hne (h p.2 p.1 (List.mem_zipIdx_iff_getElem?.mp hp))

/-- Entries in order are those of a truth assignment. -/
theorem toArray_eq_signedEntries (h : xs.map Int.natAbs = List.range' 1 n) :
    xs.toArray = signedEntries (listed xs) n := by
  obtain ⟨rfl, hentry⟩ := map_natAbs_eq_range'_iff.mp h
  refine Array.ext (size_signedEntries _ _).symm fun i hi _ => ?_
  have hi : i < xs.length := hi
  have habs := hentry i _ (List.getElem?_eq_getElem hi)
  -- the variable of this place is listed here or nowhere
  have hlisted : listed xs (i + 1) = true ↔ xs[i] = (i + 1 : Nat) := by
    rw [listed, decide_eq_true_eq]
    constructor
    · intro hmem
      obtain ⟨j, hj⟩ := List.mem_iff_getElem?.mp hmem
      have hplace := hentry j _ hj
      obtain rfl : j = i := by omega
      exact (List.getElem?_eq_some_iff.mp hj).2
    · intro heq
      exact heq ▸ List.getElem_mem hi
  simp only [List.getElem_toArray, signedEntries, Array.getElem_ofFn]
  split
  · rename_i htrue
    exact hlisted.mp htrue
  · rename_i hfalse
    rw [hlisted] at hfalse
    omega

theorem decodeVerdict_eq_ok {v : Verdict} :
    b.decodeVerdict v = .ok (some s) ↔ ∃ xs, v = .satisfiable xs ∧ b.decode xs.toArray = .ok s := by
  cases v with
  | unsatisfiable => exact iff_of_false nofun nofun
  | satisfiable xs =>
    rw [decodeVerdict, Outcome.map_eq_ok]
    simp only [Option.some.injEq, exists_eq_right, Verdict.satisfiable.injEq, exists_eq_left']

/-- Entries that are read as a sequence are in order, and there are enough of them. -/
theorem inOrder_of_decode (h : b.decode xs.toArray = .ok s) :
    b.gridVariables ≤ xs.length ∧ xs.map Int.natAbs = List.range' 1 xs.length := by
  unfold decode at h
  split at h
  · cases h
  · rename_i hlength
    split at h
    · cases h
    · rename_i hnone
      exact ⟨Nat.not_lt.mp hlength, misorderedEntry?_eq_none_iff.mp hnone⟩

/-! ## Reading -/

theorem chosen_listed_iff {f t l : Nat} : b.Chosen (listed xs) f t l ↔ b.Listing xs f t l := by
  rw [Chosen, listed, decide_eq_true_eq, Listing]

theorem listed_congr {ys : List Int} (h : xs.Perm ys) : listed xs = listed ys := by
  funext v
  rw [listed, listed, decide_eq_decide]
  exact h.mem_iff

theorem reports_of_decode (hb : b.WellFormed) (hr : b.InRange) (hn : b.gridVariables ≤ n)
    (h : b.decode (signedEntries (listed xs) n) = .ok s) : b.Reports xs s := by
  have hshows := shows_of_decode hb hr hn h
  refine ⟨fun f hf t l => ?_, fun f hf t happ => ?_⟩
  · rw [gives_iff hb hshows hf, chosen_listed_iff]
  · refine Option.eq_none_iff_forall_ne_some.mpr fun name hget => ?_
    have happlies := ((hshows f hf t name).mp hget).1
    rw [happ] at happlies
    cases happlies

/-- **Only one entry of each variable is read.** -/
theorem listsEach_of_decode (hb : b.WellFormed) (hr : b.InRange)
    (h : b.decode (sortByVariable xs).toArray = .ok s) :
    ∃ n, b.ListsEach xs n ∧ b.Reports xs s := by
  obtain ⟨hlength, horder⟩ := inOrder_of_decode h
  refine ⟨_, ⟨hlength, Transcript.map_natAbs_sortByVariable.mp horder⟩, ?_⟩
  rw [toArray_eq_signedEntries horder, listed_congr (Transcript.sortByVariable_perm xs)] at h
  exact reports_of_decode hb hr hlength h

/-- **One entry of each variable is read**, in any order. -/
theorem exists_decode_of_listsEach (hb : b.WellFormed) (hr : b.InRange) (h : b.ListsEach xs n)
    (hone : ∀ f t, b.applies f t = true → ∃! l, b.Listing xs f t l) :
    ∃ s, b.decode (sortByVariable xs).toArray = .ok s ∧ b.Reports xs s := by
  obtain ⟨hn, hperm⟩ := h
  have horder := Transcript.map_natAbs_sortByVariable.mpr hperm
  rw [toArray_eq_signedEntries horder, listed_congr (Transcript.sortByVariable_perm xs)]
  simp only [← chosen_listed_iff] at hone
  obtain ⟨s, hs⟩ := (exists_decode_iff hb hr hn).mpr hone
  exact ⟨s, hs, reports_of_decode hb hr hn hs⟩

theorem readsFaithfully_ofLines (hb : b.WellFormed) (hr : b.InRange)
    (source : List (Option (List Char))) :
    b.ReadsFaithfully source (Transcript.ofLines source) := by
  refine ⟨fun v s hv hs => ?_, fun lines n hsays hstatus hpos heach hone => ?_⟩
  · obtain ⟨lines, hsays, hconclude⟩ := Transcript.ofLines_eq_ok.mp hv
    obtain ⟨xs, rfl, hdecode⟩ := decodeVerdict_eq_ok.mp hs
    obtain rfl := Transcript.eq_of_conclude_satisfiable hconclude
    obtain ⟨n, heach, hreports⟩ := listsEach_of_decode hb hr hdecode
    exact ⟨lines, n, hsays, heach, hreports⟩
  · have hentries : lines.flatMap Line.contents ≠ [] := by
      intro hnil
      have hlength := heach.2.length_eq
      rw [hnil, List.map_nil, List.length_nil, List.length_range'] at hlength
      omega
    obtain ⟨s, hdecode, hreports⟩ := exists_decode_of_listsEach hb hr heach hone
    exact ⟨_, s,
      Transcript.ofLines_eq_ok.mpr ⟨lines, hsays, Transcript.conclude_of_entries hstatus hentries⟩,
      decodeVerdict_eq_ok.mpr ⟨_, rfl, hdecode⟩, hreports⟩

/-- **Transcripts are read faithfully**, as texts and as bytes. -/
theorem transcripts_read_faithfully (hb : b.Accepted) (hr : b.InRange) :
    (∀ text : String, b.ReadsFaithfully ((Text.lines text.toList).map some) (Verdict.ofText text)) ∧
    ∀ bytes : List UInt8, b.ReadsFaithfully (Text.byteLines bytes) (Verdict.ofBytes bytes) :=
  ⟨fun _ => readsFaithfully_ofLines hb.wellFormed hr _,
    fun _ => readsFaithfully_ofLines hb.wellFormed hr _⟩

/-- Two trials of two colours, and whether the second repeats the first, with the entries out of
order and on two lines. -/
theorem transcripts_read_faithfully_colors :
    ∃ b v s, ofTrials .colorRepeats ["color"] 2 [] = .ok b ∧ b.InRange ∧
      Verdict.ofText "c two trials\n s SATISFIABLE\nv 6 -5 +1 -2\n-4 -3 8 -7 0\n" = .ok v ∧
      b.decodeVerdict v = .ok (some s) ∧ b.Reports [6, -5, 1, -2, -4, -3, 8, -7] s := by
  have hblock : (ofTrials .colorRepeats ["color"] 2 []).map (fun b =>
      (b.gridVariables, decide (b.trials * b.trialSize ≤ maxVariable),
        (List.range b.design.length).all fun f => (List.range b.trials).all fun t =>
          !b.applies f t ||
          ((List.range (b.design.factorAt f).size).filter fun l =>
            listed [6, -5, 1, -2, -4, -3, 8, -7]
            (b.variableAt t (b.dataIndex f l))).length == 1)) = .ok (8, true, true) := by
    decide +kernel
  obtain ⟨b, hb, hblock⟩ := Outcome.map_eq_ok.mp hblock
  simp only [Prod.mk.injEq, decide_eq_true_eq, List.all_eq_true, List.mem_range, Bool.or_eq_true,
    Bool.not_eq_true', beq_iff_eq] at hblock
  obtain ⟨hgrid, hr, hcells⟩ := hblock
  have haccepted : b.Accepted := ⟨_, _, _, .inl ⟨_, hb⟩⟩
  have hread : Transcript.readLines 1
      ((Text.lines "c two trials\n s SATISFIABLE\nv 6 -5 +1 -2\n-4 -3 8 -7 0\n".toList).map some) =
      .ok [.nothing, .status true, .entries [6, -5, 1, -2], .entries [-4, -3, 8, -7],
        .nothing] := by
    decide +kernel
  have hone :
      ∀ f t, b.applies f t = true → ∃! l, b.Listing [6, -5, 1, -2, -4, -3, 8, -7] f t l := by
    intro f t happ
    obtain ⟨hf, ht, _⟩ := haccepted.wellFormed.applies_iff.mp happ
    obtain ⟨l, hl⟩ := List.length_eq_one_iff.mp
      ((hcells f hf t ht).resolve_left (Bool.not_eq_false _ ▸ happ))
    rw [Lists.filter_range_eq_singleton] at hl
    simp only [listed, decide_eq_true_eq] at hl
    exact ⟨l, hl⟩
  obtain ⟨v, s, hv, hs, hreports⟩ := ((transcripts_read_faithfully haccepted hr).1 _).complete _ 8
    (Transcript.readLines_eq_ok.mp hread) (by decide) (by decide) ⟨hgrid.le, by decide⟩ hone
  exact ⟨b, v, s, hb, hr, hv, hs, hreports⟩

end Block

end Counterbalance
