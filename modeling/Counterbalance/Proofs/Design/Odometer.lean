import Mathlib.Algebra.BigOperators.Group.List.Lemmas
import Mathlib.Data.List.Lex
import Counterbalance.Design.Odometer
import Counterbalance.Proofs.Design.Product

/-! What odometers read. The rank of a setting counts the settings that the odometer shows before
it, and the elements that a setting shows stand at its rank in the product of the domains. So an
odometer goes through all settings, each once and in lexicographic order, then stops, and has read
the product. -/

namespace Counterbalance

namespace Odometer

/-! ## Ranks -/

/-- Lexicographic order is the order of ranks. -/
theorem Within.rank_lt_of_lt {sizes ps qs : List Nat} (hp : Within sizes ps)
    (hq : Within sizes qs) (h : ps < qs) : rank sizes ps < rank sizes qs := by
  induction hp generalizing qs with
  | nil =>
    cases hq
    exact absurd h (List.not_lt_nil [])
  | @cons n p sizes ps _ hps ih =>
    cases hq with
    | @cons _ q _ qs _ hqs =>
      rw [rank, rank]
      rcases List.cons_lt_cons_iff.mp h with hpq | ⟨rfl, hrest⟩
      · have hlt := hps.rank_lt
        have hnext : (p + 1) * volume sizes ≤ q * volume sizes := Nat.mul_le_mul_right _ hpq
        rw [Nat.add_mul] at hnext
        omega
      · exact Nat.add_lt_add_left (ih hqs hrest) _

namespace Setting

variable {α : Type} {sizes : List Nat} {s t : Setting sizes} {ts : List (Setting sizes)}

/-- The number of settings before this one. -/
def rank (s : Setting sizes) : Nat := Odometer.rank sizes s.positions

theorem lt_of_rank_lt (h : s.rank < t.rank) : s.positions < t.positions := by
  rcases lt_trichotomy s.positions t.positions with hlt | heq | hgt
  · exact hlt
  · exact absurd h (by simp [rank, heq])
  · exact absurd h (Nat.lt_asymm (t.within.rank_lt_of_lt s.within hgt))

theorem eq_of_rank_eq (h : s.rank = t.rank) : s = t := by
  have heq : s.positions = t.positions := by
    rcases lt_trichotomy s.positions t.positions with hlt | heq | hgt
    · exact absurd h (Nat.ne_of_lt (s.within.rank_lt_of_lt t.within hlt))
    · exact heq
    · exact absurd h (Nat.ne_of_gt (t.within.rank_lt_of_lt s.within hgt))
  cases s
  cases t
  cases heq
  rfl

/-- The elements that a setting shows are those at its rank in the product. -/
theorem getElem?_product {domains : List (List α)} (s : Setting (domains.map List.length)) :
    (product domains)[s.rank]? = some (s.pick domains) := by
  obtain ⟨positions, h⟩ := s
  induction domains generalizing positions with
  | nil =>
    cases h
    rfl
  | cons xs rest ih =>
    cases positions with
    | nil => cases h
    | cons p positions =>
      have hblock :
          ∀ x ∈ xs, ((product rest).map (x :: ·)).length = volume (rest.map List.length) := by
        intro x _
        rw [List.length_map, length_product]
        rfl
      have hp : p < xs.length := h.head_lt
      have htail : (product rest)[Odometer.rank _ positions]? =
          some (pick rest ⟨positions, h.tail⟩) :=
        ih positions h.tail
      refine (Lists.getElem?_flatMap hblock h.tail.rank_lt p).trans ?_
      simp [hp, htail, pick]

theorem drop_product {domains : List (List α)} (s : Setting (domains.map List.length)) :
    (product domains).drop s.rank = s.pick domains :: (product domains).drop (s.rank + 1) := by
  obtain ⟨hlt, hpick⟩ := List.getElem?_eq_some_iff.mp s.getElem?_product
  rw [List.drop_eq_getElem_cons hlt, hpick]

/-! ## Turns -/

/-- From the first setting on, the odometer shows these settings and stops. -/
inductive Turns : Setting sizes → List (Setting sizes) → Prop
  | stop {s : Setting sizes} : s.next? = none → Turns s [s]
  | turn {s t : Setting sizes} {ts : List (Setting sizes)} : s.next? = some t → Turns t ts →
      Turns s (s :: ts)

namespace Turns

/-- The ranks count up to the number of settings. -/
theorem map_rank (h : s.Turns ts) : ts.map rank = List.range' s.rank (volume sizes - s.rank) := by
  induction h with
  | @stop s hstop =>
    have hlast : s.rank + 1 = volume sizes := rank_of_next?_eq_none hstop
    rw [show volume sizes - s.rank = 1 by omega]
    rfl
  | @turn s t ts hnext _ ih =>
    have hrank : t.rank = s.rank + 1 := rank_of_next? hnext
    have hlt : t.rank < volume sizes := t.within.rank_lt
    rw [List.map_cons, ih, hrank,
      show volume sizes - s.rank = volume sizes - (s.rank + 1) + 1 by omega, List.range'_succ]

theorem mem (h : s.Turns ts) (hle : s.rank ≤ t.rank) : t ∈ ts := by
  have hlt : t.rank < volume sizes := t.within.rank_lt
  have hmem : t.rank ∈ ts.map rank := by
    rw [h.map_rank, List.mem_range'_1]
    omega
  obtain ⟨u, hu, hrank⟩ := List.mem_map.mp hmem
  exact eq_of_rank_eq hrank ▸ hu

theorem pairwise (h : s.Turns ts) : ts.Pairwise fun s t => s.positions < t.positions := by
  have hranks : (ts.map rank).Pairwise (· < ·) := by
    rw [h.map_rank]
    exact List.pairwise_lt_range'
  exact (List.pairwise_map.mp hranks).imp lt_of_rank_lt

/-- What is read from a setting on is what is left of the product. -/
theorem map_pick {domains : List (List α)} {s : Setting (domains.map List.length)}
    {ts : List (Setting (domains.map List.length))} (h : s.Turns ts) :
    ts.map (pick domains) = (product domains).drop s.rank := by
  have hlength : (product domains).length = volume (domains.map List.length) :=
    length_product domains
  induction h with
  | @stop s hstop =>
    have hlast : s.rank + 1 = volume (domains.map List.length) := rank_of_next?_eq_none hstop
    rw [drop_product, hlast, ← hlength, List.drop_length]
    rfl
  | @turn s t ts hnext _ ih =>
    have hrank : t.rank = s.rank + 1 := rank_of_next? hnext
    rw [List.map_cons, ih, hrank, drop_product]

end Turns

/-- The odometer stops, and appends what its settings show. -/
theorem exists_turns {domains : List (List α)} (s : Setting (domains.map List.length))
    (found : Array (List α)) :
    ∃ ts, s.Turns ts ∧ (sweep domains s found).toList = found.toList ++ ts.map (pick domains) := by
  fun_induction sweep domains s found with
  | case1 s found pushed hstop => exact ⟨[s], .stop hstop, by simp [pushed]⟩
  | case2 s found pushed t hnext ih =>
    obtain ⟨ts, hturns, htoList⟩ := ih
    exact ⟨s :: ts, .turn hnext hturns, by simp [htoList, pushed]⟩

end Setting

/-! ## Readings -/

variable {α : Type} {domains : List (List α)}

/-- With elements in all domains, the odometer starts at zero. -/
theorem exists_turns_of_notMem (h : [] ∉ domains) :
    ∃ (s : Setting (domains.map List.length)) (ts : List (Setting (domains.map List.length))),
      s.positions = List.replicate domains.length 0 ∧ s.Turns ts ∧
        readings domains = ts.map (Setting.pick domains) := by
  have hany : ¬ domains.any List.isEmpty := by simpa using h
  obtain ⟨ts, hturns, htoList⟩ := Setting.exists_turns ⟨_, within_zeros hany⟩ #[]
  refine ⟨_, ts, rfl, hturns, ?_⟩
  rw [readings, dif_neg hany, htoList]
  rfl

theorem rank_of_zeros {s : Setting (domains.map List.length)}
    (h : s.positions = List.replicate domains.length 0) : s.rank = 0 := by
  have hzeros := rank_zeros (domains.map List.length)
  rwa [List.length_map, ← h] at hzeros

theorem readings_of_mem (h : [] ∈ domains) : readings domains = [] :=
  dif_pos (by simpa using h)

theorem readings_eq_product (domains : List (List α)) : readings domains = product domains := by
  by_cases h : [] ∈ domains
  · rw [readings_of_mem h, product_eq_nil_iff.mpr h]
  · obtain ⟨s, ts, hzeros, hturns, hreadings⟩ := exists_turns_of_notMem h
    rw [hreadings, hturns.map_pick, rank_of_zeros hzeros, List.drop_zero]

/-- Where a domain is empty, there is no setting. -/
theorem notMem_of_setting (s : Setting (domains.map List.length)) : [] ∉ domains := by
  intro h
  have hpick := s.getElem?_product
  rw [product_eq_nil_iff.mpr h] at hpick
  cases hpick

/-- **Odometers read products.** Started at zero, an odometer stops after finitely many turns. By
then it has shown every setting, each once and in lexicographic order, and has read the elements
that they show, which make up the product of the domains. -/
theorem readings_exhaust (domains : List (List α)) :
    ∃ settings : List (Setting (domains.map List.length)),
      ([] ∈ domains ∧ settings = [] ∨
        ∃ s : Setting (domains.map List.length),
          s.positions = List.replicate domains.length 0 ∧ s.Turns settings) ∧
      (∀ s, s ∈ settings) ∧ settings.Pairwise (fun s t => s.positions < t.positions) ∧
      readings domains = settings.map (Setting.pick domains) ∧ readings domains = product domains ∧
      (readings domains).length = (domains.map List.length).prod ∧
      (readings domains = [] ↔ [] ∈ domains) ∧ readings ([] : List (List α)) = [[]] := by
  have hproduct := readings_eq_product domains
  have hlength : (readings domains).length = (domains.map List.length).prod :=
    hproduct ▸ length_product domains
  have hnil : readings domains = [] ↔ [] ∈ domains := hproduct ▸ product_eq_nil_iff
  have hnone : readings ([] : List (List α)) = [[]] := readings_eq_product []
  by_cases h : [] ∈ domains
  · exact ⟨[], .inl ⟨h, rfl⟩, fun s => absurd h (notMem_of_setting s), .nil, hnil.mpr h, hproduct,
      hlength, hnil, hnone⟩
  · obtain ⟨s, ts, hzeros, hturns, hreadings⟩ := exists_turns_of_notMem h
    refine ⟨ts, .inr ⟨s, hzeros, hturns⟩, fun t => ?_, hturns.pairwise, hreadings, hproduct,
      hlength, hnil, hnone⟩
    exact hturns.mem (rank_of_zeros hzeros ▸ Nat.zero_le t.rank)

example : readings [[0, 1], [2, 3, 4]] = [[0, 2], [0, 3], [0, 4], [1, 2], [1, 3], [1, 4]] := by
  decide +kernel

end Odometer

end Counterbalance
