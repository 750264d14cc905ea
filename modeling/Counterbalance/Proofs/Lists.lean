import Mathlib.Data.List.Forall2
import Mathlib.Data.Nat.Count
import Mathlib.Order.Lattice.Nat
import Mathlib.Tactic.Choose

/-! Lists in general. Lists are partners if they are as long and their elements at each place are
related; what holds of the pairs is carried over to the lists. Elements are counted, searched for by
a property that one of them has, and compared place by place. -/

namespace Counterbalance.Lists

variable {α β γ δ : Type}

/-! ## Partners -/

theorem exists_left_of_mem {R : α → β → Prop} {xs : List α} {ys : List β} (h : List.Forall₂ R xs ys)
    {y : β} (hy : y ∈ ys) : ∃ x ∈ xs, R x y := by
  induction h with
  | nil => exact absurd hy List.not_mem_nil
  | @cons x z xs ys hxz _ ih =>
    rcases List.mem_cons.mp hy with rfl | hy
    · exact ⟨x, List.mem_cons_self, hxz⟩
    · obtain ⟨x', hx', hr⟩ := ih hy
      exact ⟨x', List.mem_cons_of_mem x hx', hr⟩

theorem exists_right_of_mem {R : α → β → Prop} {xs : List α} {ys : List β}
    (h : List.Forall₂ R xs ys) {x : α} (hx : x ∈ xs) : ∃ y ∈ ys, R x y :=
  exists_left_of_mem h.flip hx

theorem getElem?_right_of_forall₂ {R : α → β → Prop} {xs : List α} {ys : List β}
    (h : List.Forall₂ R xs ys) {i : Nat} {x : α} (hx : xs[i]? = some x) :
    ∃ y, ys[i]? = some y ∧ R x y := by
  obtain ⟨hlt, rfl⟩ := List.getElem?_eq_some_iff.mp hx
  exact ⟨_, List.getElem?_eq_getElem (h.length_eq ▸ hlt), (List.forall₂_iff_get.mp h).2 i hlt _⟩

theorem forall₂_of_getElem? {R : α → β → Prop} {xs : List α} {ys : List β}
    (hlength : xs.length = ys.length)
    (h : ∀ (i : Nat) x y, xs[i]? = some x → ys[i]? = some y → R x y) : List.Forall₂ R xs ys :=
  List.forall₂_iff_get.mpr ⟨hlength, fun i hi hi' =>
    h i _ _ (List.getElem?_eq_getElem hi) (List.getElem?_eq_getElem hi')⟩

theorem forall₂_imp_of_mem {R S : α → β → Prop} {xs : List α} {ys : List β}
    (h : List.Forall₂ R xs ys) (himp : ∀ x ∈ xs, ∀ y, R x y → S x y) : List.Forall₂ S xs ys := by
  have hpairs := (List.forall₂_and_left (p := (· ∈ xs)) _ _).mpr ⟨fun _ hx => hx, h⟩
  exact hpairs.imp fun x y hxy => himp x hxy.1 y hxy.2

theorem forall₂_congr_left {R S : α → β → Prop} {xs : List α} {ys : List β}
    (h : ∀ x ∈ xs, ∀ y, R x y ↔ S x y) : List.Forall₂ R xs ys ↔ List.Forall₂ S xs ys := by
  constructor
  · intro hR
    exact forall₂_imp_of_mem hR fun x hx y => (h x hx y).mp
  · intro hS
    exact forall₂_imp_of_mem hS fun x hx y => (h x hx y).mpr

theorem forall_mem_zipWith {R : α → β → Prop} {P : γ → Prop} {h : α → β → γ} {xs : List α}
    {ys : List β} (hxy : List.Forall₂ R xs ys) :
    (∀ z ∈ List.zipWith h xs ys, P z) ↔ List.Forall₂ (fun x y => R x y ∧ P (h x y)) xs ys := by
  induction hxy with
  | nil => simp
  | cons hR _ ih =>
    rw [List.zipWith_cons_cons, List.forall_mem_cons, ih, List.forall₂_cons, and_iff_right hR]

/-- Lists whose elements have each exactly one partner in the other list are partners up to their
order. -/
theorem exists_perm_of_partners {R : α → β → Prop} {xs : List α} {ys : List β} (hxs : xs.Nodup)
    (hys : ys.Nodup) (hleft : ∀ x ∈ xs, ∃ y ∈ ys, R x y) (hright : ∀ y ∈ ys, ∃ x ∈ xs, R x y)
    (hinj : ∀ x ∈ xs, ∀ x' ∈ xs, ∀ y ∈ ys, R x y → R x' y → x = x')
    (huniq : ∀ x ∈ xs, ∀ y ∈ ys, ∀ y' ∈ ys, R x y → R x y' → y = y') :
    ∃ zs, zs.Perm ys ∧ List.Forall₂ R xs zs := by
  classical
  induction xs generalizing ys with
  | nil =>
    have hnil : ys = [] := List.eq_nil_iff_forall_not_mem.mpr fun y hy => by
      obtain ⟨x, hx, _⟩ := hright y hy
      cases hx
    exact ⟨[], hnil ▸ List.Perm.refl [], .nil⟩
  | cons x xs ih =>
    obtain ⟨hnew, hnodup⟩ := List.nodup_cons.mp hxs
    obtain ⟨y, hy, hxy⟩ := hleft x List.mem_cons_self
    have hmem : ∀ z, z ∈ ys.erase y ↔ z ≠ y ∧ z ∈ ys := fun z => hys.mem_erase_iff
    have hx : x ∈ x :: xs := List.mem_cons_self
    have hrest : ∀ z ∈ xs, z ∈ x :: xs := fun z hz => List.mem_cons_of_mem x hz
    obtain ⟨zs, hperm, hzs⟩ := ih hnodup (hys.erase y)
      (fun z hz => by
        obtain ⟨u, hu, hzu⟩ := hleft z (hrest z hz)
        refine ⟨u, (hmem u).mpr ⟨fun heq => hnew ?_, hu⟩, hzu⟩
        exact hinj x hx z (hrest z hz) y hy hxy (heq ▸ hzu) ▸ hz)
      (fun u hu => by
        obtain ⟨hne, hu⟩ := (hmem u).mp hu
        obtain ⟨z, hz, hzu⟩ := hright u hu
        obtain rfl | hz := List.mem_cons.mp hz
        · exact absurd (huniq z hx u hu y hy hzu hxy) hne
        · exact ⟨z, hz, hzu⟩)
      (fun z hz z' hz' u hu => hinj z (hrest z hz) z' (hrest z' hz') u ((hmem u).mp hu).2)
      (fun z hz u hu u' hu' => huniq z (hrest z hz) u ((hmem u).mp hu).2 u' ((hmem u').mp hu').2)
    exact ⟨y :: zs, (hperm.cons y).trans (List.perm_cons_erase hy).symm, .cons hxy hzs⟩

/-- Choices made one by one in one way each are made together in one way. -/
theorem existsUnique_forall₂ {R : α → β → Prop} {xs : List α}
    (h : ∀ x ∈ xs, ∃! y, R x y) : ∃! ys, List.Forall₂ R xs ys := by
  induction xs with
  | nil => exact ⟨[], .nil, fun ys hys => List.forall₂_nil_left_iff.mp hys⟩
  | cons x xs ih =>
    obtain ⟨⟨y, hy, hyuniq⟩, hxs⟩ := List.forall_mem_cons.mp h
    obtain ⟨ys, hys, hysuniq⟩ := ih hxs
    refine ⟨y :: ys, .cons hy hys, fun zs hzs => ?_⟩
    obtain ⟨z, zs', hz, hzs', rfl⟩ := List.forall₂_cons_left_iff.mp hzs
    rw [hyuniq z hz, hysuniq zs' hzs']

/-! ## Values of elements -/

/-- A filter keeps all values if there is one for every element. -/
theorem map_some_filterMap {h : α → Option β} {xs : List α}
    (hsome : ∀ x ∈ xs, ∃ y, h x = some y) : (xs.filterMap h).map some = xs.map h := by
  induction xs with
  | nil => rfl
  | cons x xs ih =>
    obtain ⟨⟨y, hy⟩, hxs⟩ := List.forall_mem_cons.mp hsome
    rw [List.filterMap_cons_some hy, List.map_cons, List.map_cons, ih hxs, hy]

/-- A filter keeps partners if there is a value for every element. -/
theorem forall₂_filterMap {h : δ → Option α} {R : α → β → Prop} {xs : List δ} {ys : List β}
    (hsome : List.Forall₂ (fun x y => ∃ z, h x = some z ∧ R z y) xs ys) :
    List.Forall₂ R (xs.filterMap h) ys := by
  induction hsome with
  | nil => exact .nil
  | cons hx _ ih =>
    obtain ⟨z, hz, hR⟩ := hx
    rw [List.filterMap_cons_some hz]
    exact .cons hR ih

theorem mapM_map_eq_some {f : β → Option γ} {g : α → β} {h : α → γ} {xs : List α}
    (hf : ∀ x ∈ xs, f (g x) = some (h x)) : (xs.map g).mapM f = some (xs.map h) := by
  induction xs with
  | nil => rfl
  | cons x xs ih =>
    obtain ⟨hx, hxs⟩ := List.forall_mem_cons.mp hf
    rw [List.map_cons, List.mapM_cons, hx, ih hxs]
    rfl

/-! ## Elements of a property -/

theorem find?_eq_some_of_unique {p : α → Bool} {xs : List α} {x : α} (hx : x ∈ xs)
    (hp : p x = true) (huniq : ∀ y ∈ xs, p y = true → y = x) : xs.find? p = some x := by
  cases h : xs.find? p with
  | none => exact absurd hp (List.find?_eq_none.mp h x hx)
  | some y => rw [huniq y (List.mem_of_find?_eq_some h) (List.find?_some h)]

theorem find?_of_countP_eq_one {p : α → Bool} {xs : List α} (h : xs.countP p = 1) :
    ∃ x, xs.find? p = some x ∧ ∀ y, y ∈ xs ∧ p y = true ↔ y = x := by
  rw [List.countP_eq_length_filter, List.length_eq_one_iff] at h
  obtain ⟨x, hx⟩ := h
  refine ⟨x, ?_, fun y => ?_⟩
  · rw [← List.head?_filter, hx, List.head?_cons]
  · rw [← List.mem_filter, hx, List.mem_singleton]

theorem filter_range_eq_singleton {p : Nat → Bool} {n l : Nat} :
    (List.range n).filter p = [l] ↔ (l < n ∧ p l = true) ∧ ∀ m, m < n ∧ p m = true → m = l := by
  have hmem : ∀ m, m ∈ (List.range n).filter p ↔ m < n ∧ p m = true := by
    intro m
    rw [List.mem_filter, List.mem_range]
  constructor
  · intro h
    simp only [← hmem, h, List.mem_singleton, true_and]
    exact fun m hm => hm
  · intro h
    obtain ⟨hl, huniq⟩ := h
    rw [← List.perm_singleton,
      List.perm_ext_iff_of_nodup (List.nodup_range.filter p) (List.nodup_singleton l)]
    intro m
    rw [hmem, List.mem_singleton]
    exact ⟨huniq m, fun hm => hm ▸ hl⟩

/-! ## Counting -/

theorem length_erase_lt [BEq α] [LawfulBEq α] {xs : List α} {x : α} (h : x ∈ xs) :
    (xs.erase x).length < xs.length := by
  rw [List.length_erase_of_mem h]
  exact Nat.sub_one_lt (Nat.ne_of_gt (List.length_pos_of_mem h))

/-- If every pigeon sits in one hole and every hole is taken, no hole is taken twice when there are
at least as many holes as pigeons. -/
theorem existsUnique_of_length_le {R : α → β → Prop} {pigeons : List α} {holes : List β}
    (hnodup : holes.Nodup) (hle : pigeons.length ≤ holes.length)
    (hsits : ∀ x ∈ pigeons, ∃! y, y ∈ holes ∧ R x y) (htaken : ∀ y ∈ holes, ∃ x ∈ pigeons, R x y) :
    ∀ y ∈ holes, ∃! x, x ∈ pigeons ∧ R x y := by
  classical
  intro y hy
  obtain ⟨x, hx, hxy⟩ := htaken y hy
  refine ⟨x, ⟨hx, hxy⟩, fun x' ⟨hx', hxy'⟩ => ?_⟩
  by_contra hne
  -- without `x'` the pigeons still take all holes
  have : Nonempty β := ⟨y⟩
  choose! hole hhole huniq using hsits
  have hsub : holes ⊆ (pigeons.erase x').map hole := by
    intro z hz
    obtain ⟨u, hu, huz⟩ := htaken z hz
    have hz' : z = hole u := huniq u hu z ⟨hz, huz⟩
    by_cases hux : u = x'
    · have hzy : z = y := by
        rw [hz', huniq x' hx' y ⟨hy, hxy'⟩, hux]
      rw [hzy, huniq x hx y ⟨hy, hxy⟩]
      exact List.mem_map_of_mem ((List.mem_erase_of_ne (Ne.symm hne)).mpr hx)
    · rw [hz']
      exact List.mem_map_of_mem ((List.mem_erase_of_ne hux).mpr hu)
  have hlength := (hnodup.subperm hsub).length_le
  have hpos := List.length_pos_of_mem hx'
  rw [List.length_map, List.length_erase_of_mem hx'] at hlength
  omega

theorem length_filter_range_getElem? (p : α → Bool) {xs : List α} {n : Nat} (h : xs.length ≤ n) :
    ((List.range n).filter fun i => (xs[i]?).any p).length = xs.countP p := by
  induction xs generalizing n with
  | nil => simp
  | cons x xs ih =>
    obtain ⟨m, rfl⟩ := Nat.exists_eq_succ_of_ne_zero (Nat.ne_of_gt (Nat.zero_lt_of_lt h))
    have hrest := ih (Nat.le_of_succ_le_succ h)
    rw [List.range_succ_eq_map, List.filter_cons, List.filter_map]
    simp only [Function.comp_def, List.getElem?_cons_zero, List.getElem?_cons_succ, Option.any_some,
      Nat.succ_eq_add_one]
    split
    · rename_i hx
      rw [List.countP_cons_of_pos hx, List.length_cons, List.length_map, hrest]
    · rename_i hx
      rw [List.countP_cons_of_neg hx, List.length_map, hrest]

theorem length_filter_range (p : Nat → Prop) [DecidablePred p] (n : Nat) :
    ((List.range n).filter fun t => decide (p t)).length = Nat.count p n := by
  rw [Nat.count_eq_card_filter_range]
  rfl

/-- The numbers that are kept stand where as many are kept before. -/
theorem getElem?_filter_range {p : Nat → Prop} [DecidablePred p] {n k t : Nat} :
    ((List.range n).filter fun t => decide (p t))[k]? = some t ↔
      t < n ∧ p t ∧ Nat.count p t = k := by
  induction n with
  | zero => simp
  | succ n ih =>
    rw [List.range_succ, List.filter_append, List.getElem?_append, length_filter_range]
    by_cases hp : p n
    · simp only [hp, decide_true, List.filter_cons_of_pos, List.filter_nil, List.getElem?_singleton]
      split
      · rename_i hk
        rw [ih]
        exact ⟨fun ⟨hlt, h⟩ => ⟨by omega, h⟩, fun ⟨_, hpt, hcount⟩ =>
          ⟨Nat.lt_of_count_lt_count (hcount ▸ hk), hpt, hcount⟩⟩
      · rename_i hk
        constructor
        · intro h
          split at h
          · cases h
            exact ⟨Nat.lt_succ_self _, hp, by omega⟩
          · cases h
        · rintro ⟨hlt, hpt, hcount⟩
          have hle : Nat.count p t ≤ Nat.count p n := Nat.count_monotone p (by omega)
          obtain rfl : t = n := Nat.count_injective hpt hp (by omega)
          rw [if_pos (by omega)]
    · simp only [hp, decide_false, List.filter_nil, Bool.false_eq_true, not_false_eq_true,
        List.filter_cons_of_neg, List.getElem?_nil]
      split
      · rw [ih]
        exact ⟨fun ⟨hlt, h⟩ => ⟨by omega, h⟩, fun ⟨hlt, hpt, hcount⟩ =>
          ⟨Nat.lt_of_le_of_ne (by omega) fun he => hp (he ▸ hpt), hpt, hcount⟩⟩
      · rename_i hk
        refine iff_of_false nofun fun ⟨hlt, hpt, hcount⟩ => ?_
        have hne : t ≠ n := fun he => hp (he ▸ hpt)
        have hlt' : Nat.count p t < Nat.count p n := Nat.count_strict_mono hpt (by omega)
        omega

/-! ## Places -/

/-- What comes before a number in a range. -/
theorem range_eq_append_cons {n x : Nat} {before after : List Nat}
    (h : List.range n = before ++ x :: after) : x < n ∧ before = List.range x := by
  rw [List.range_eq_range', List.range'_eq_append_iff] at h
  obtain ⟨k, hk, rfl, hrest⟩ := h
  obtain ⟨hx, hpos, _⟩ := List.range'_eq_cons_iff.mp hrest.symm
  obtain rfl : x = k := by omega
  exact ⟨by omega, List.range_eq_range'.symm⟩

/-- In a list of blocks of length `n`, block `p` starts at `p * n`. -/
theorem getElem?_flatMap {xs : List α} {f : α → List β} {n r : Nat}
    (h : ∀ x ∈ xs, (f x).length = n) (hr : r < n) (p : Nat) :
    (xs.flatMap f)[p * n + r]? = xs[p]?.bind fun x => (f x)[r]? := by
  induction xs generalizing p with
  | nil => simp
  | cons x xs ih =>
    obtain ⟨hx, hxs⟩ := List.forall_mem_cons.mp h
    rw [List.flatMap_cons, List.getElem?_append, hx]
    cases p with
    | zero => simp [hr]
    | succ p =>
      have hpast : ¬ (p + 1) * n + r < n := by
        rw [Nat.add_mul]
        omega
      have hrest : (p + 1) * n + r - n = p * n + r := by
        rw [Nat.add_mul]
        omega
      rw [if_neg hpast, hrest, ih hxs, List.getElem?_cons_succ]

theorem mapIdx_lt_mapIdx {k : Nat → Nat → Nat} (hk : ∀ i x y, x < y → k i x < k i y)
    {c e : List Nat} (h : c < e) : c.mapIdx k < e.mapIdx k := by
  induction c generalizing k e with
  | nil =>
    cases e with
    | nil => exact absurd h (List.lt_irrefl [])
    | cons y e => simp
  | cons x c ih =>
    cases e with
    | nil => exact absurd h (List.not_lt_nil _)
    | cons y e =>
      rw [List.mapIdx_cons, List.mapIdx_cons, List.cons_lt_cons_iff]
      rcases List.cons_lt_cons_iff.mp h with hxy | ⟨rfl, hce⟩
      · exact .inl (hk 0 x y hxy)
      · exact .inr ⟨rfl, ih (fun i => hk (i + 1)) hce⟩

end Counterbalance.Lists
