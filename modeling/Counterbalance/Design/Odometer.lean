/-! Odometers: one wheel per domain, which shows a position in the domain. The last wheel turns
fastest; a wheel that comes round starts again and moves the one before it. From zero until the
first wheel comes round, an odometer reads every choice of one element per domain. -/

namespace Counterbalance.Odometer

/-- One position per wheel, below the size of the wheel. -/
inductive Within : List Nat → List Nat → Prop
  | nil : Within [] []
  | cons {n p : Nat} {sizes positions : List Nat} :
      p < n → Within sizes positions → Within (n :: sizes) (p :: positions)

/-- What wheels of these sizes show. -/
structure Setting (sizes : List Nat) where
  positions : List Nat
  within : Within sizes positions

/-- The number of settings. -/
def volume (sizes : List Nat) : Nat := sizes.foldr (· * ·) 1

/-- The number whose digits are the positions, the first one most significant. -/
def rank : List Nat → List Nat → Nat
  | _ :: sizes, p :: positions => p * volume sizes + rank sizes positions
  | _, _ => 0

/-- Moves the wheel before `slot`. A wheel that comes round starts again and moves the one before
it; none if there is no wheel left to move. -/
def carry (sizes : List Nat) : (slot : Nat) → (positions : List Nat) → Option (List Nat)
  | 0, _ => none
  | slot + 1, positions =>
    let next := (positions[slot]?).getD 0 + 1
    if next < (sizes[slot]?).getD 0 then some (positions.set slot next)
    else carry sizes slot (positions.set slot 0)

/-! ## Positions and ranks -/

theorem rank_zeros (sizes : List Nat) : rank sizes (List.replicate sizes.length 0) = 0 := by
  induction sizes with
  | nil => rfl
  | cons n sizes ih => simp [List.replicate_succ, rank, ih]

namespace Within

variable {n p : Nat} {sizes positions : List Nat}

theorem head_lt (h : Within (n :: sizes) (p :: positions)) : p < n := by
  cases h
  assumption

theorem tail (h : Within (n :: sizes) (p :: positions)) : Within sizes positions := by
  cases h
  assumption

theorem length_eq (h : Within sizes positions) : positions.length = sizes.length := by
  induction h with
  | nil => rfl
  | cons _ _ ih => simp [ih]

theorem rank_lt (h : Within sizes positions) : rank sizes positions < volume sizes := by
  induction h with
  | nil => exact Nat.one_pos
  | @cons n p sizes positions hp _ ih =>
    have hwheel : (p + 1) * volume sizes ≤ n * volume sizes := Nat.mul_le_mul_right _ hp
    show p * volume sizes + rank sizes positions < n * volume sizes
    rw [Nat.add_mul] at hwheel
    omega

/-- Where there is a setting, there is one of zeros. -/
theorem zeros (h : Within sizes positions) : Within sizes (List.replicate sizes.length 0) := by
  induction h with
  | nil => exact .nil
  | cons hp _ ih => exact .cons (Nat.zero_lt_of_lt hp) ih

end Within

/-! ## Carries -/

/-- The first wheel is moved when all wheels before `slot` have come round. -/
theorem carry_cons {n p slot : Nat} {sizes positions : List Nat} (h : slot ≤ positions.length) :
    carry (n :: sizes) (slot + 1) (p :: positions) =
      match carry sizes slot positions with
      | some next => some (p :: next)
      | none => if p + 1 < n then some ((p + 1) :: (List.replicate slot 0 ++ positions.drop slot))
          else none := by
  induction slot generalizing positions with
  | zero => simp [carry]
  | succ slot ih =>
    have hround : (positions.set slot 0).drop slot = 0 :: positions.drop (slot + 1) := by
      rw [List.drop_set, if_neg (Nat.lt_irrefl slot), Nat.sub_self, List.drop_eq_getElem_cons h,
        List.set_cons_zero]
    have hle : slot ≤ (positions.set slot 0).length := by
      rw [List.length_set]
      exact Nat.le_of_succ_le h
    have hrest := ih hle
    rw [hround] at hrest
    rw [carry]
    simp only [List.getElem?_cons_succ, List.set_cons_succ, hrest]
    rw [carry]
    split
    · rfl
    · simp [List.replicate_succ']

namespace Within

variable {n p : Nat} {sizes positions next : List Nat}

theorem carry_cons (h : Within sizes positions) :
    carry (n :: sizes) (n :: sizes).length (p :: positions) =
      match carry sizes sizes.length positions with
      | some next => some (p :: next)
      | none => if p + 1 < n then some ((p + 1) :: List.replicate sizes.length 0) else none := by
  have hlength := h.length_eq
  rw [List.length_cons, Odometer.carry_cons (Nat.le_of_eq hlength.symm), ← hlength,
    List.drop_length, List.append_nil]

/-- When all wheels have come round, there was no setting left. -/
theorem rank_of_carry_eq_none (h : Within sizes positions)
    (hround : carry sizes sizes.length positions = none) :
    rank sizes positions + 1 = volume sizes := by
  induction h with
  | nil => rfl
  | @cons n p sizes positions hp hrest ih =>
    rw [hrest.carry_cons] at hround
    cases htail : carry sizes sizes.length positions with
    | some next => simp [htail] at hround
    | none =>
      have hlast : p + 1 = n := by
        simp [htail] at hround
        omega
      rw [rank, Nat.add_assoc, ih htail, ← Nat.succ_mul, Nat.succ_eq_add_one, hlast]
      rfl

/-- A turn leads to the setting of the next rank. -/
theorem of_carry_eq_some (h : Within sizes positions)
    (hturn : carry sizes sizes.length positions = some next) :
    Within sizes next ∧ rank sizes next = rank sizes positions + 1 := by
  induction h generalizing next with
  | nil => cases hturn
  | @cons n p sizes positions hp hrest ih =>
    rw [hrest.carry_cons] at hturn
    cases htail : carry sizes sizes.length positions with
    | some rest =>
      obtain ⟨hwithin, hrank⟩ := ih htail
      simp only [htail, Option.some.injEq] at hturn
      subst hturn
      exact ⟨.cons hp hwithin, by rw [rank, rank, hrank, Nat.add_assoc]⟩
    | none =>
      simp only [htail] at hturn
      split at hturn
      · rename_i hnext
        obtain rfl := Option.some.inj hturn
        refine ⟨.cons hnext hrest.zeros, ?_⟩
        rw [rank, rank, rank_zeros, Nat.add_zero, Nat.add_assoc, hrest.rank_of_carry_eq_none htail,
          ← Nat.succ_mul]
      · cases hturn

end Within

/-! ## Readings -/

namespace Setting

variable {α : Type} {sizes : List Nat} {s t : Setting sizes}

/-- The setting after this one; none after the last one. -/
def next? (s : Setting sizes) : Option (Setting sizes) :=
  (carry sizes sizes.length s.positions).pmap Setting.mk fun _ h => (s.within.of_carry_eq_some h).1

theorem rank_of_next? (h : s.next? = some t) :
    rank sizes t.positions = rank sizes s.positions + 1 := by
  obtain ⟨positions, _, hcarry, rfl⟩ := Option.pmap_eq_some_iff.mp h
  exact (s.within.of_carry_eq_some hcarry).2

theorem rank_of_next?_eq_none (h : s.next? = none) : rank sizes s.positions + 1 = volume sizes :=
  s.within.rank_of_carry_eq_none (Option.pmap_eq_none_iff.mp h)

/-- The elements that the wheels show. -/
def pick : (domains : List (List α)) → Setting (domains.map List.length) → List α
  | [], _ => []
  | xs :: rest, ⟨p :: positions, h⟩ => xs.get ⟨p, h.head_lt⟩ :: pick rest ⟨positions, h.tail⟩
  | _ :: _, ⟨[], h⟩ => nomatch h

end Setting

variable {α : Type}

theorem within_zeros {domains : List (List α)} (h : ¬ domains.any List.isEmpty) :
    Within (domains.map List.length) (List.replicate domains.length 0) := by
  induction domains with
  | nil => exact .nil
  | cons xs rest ih =>
    simp only [List.any_cons, Bool.or_eq_true, not_or] at h
    exact .cons (List.length_pos_iff.mpr fun hxs => h.1 (by simp [hxs])) (ih h.2)

/-- Appends what the odometer reads from a setting on, until the first wheel comes round. -/
def sweep (domains : List (List α)) (s : Setting (domains.map List.length))
    (found : Array (List α)) : Array (List α) :=
  let found := found.push (s.pick domains)
  match _h : s.next? with
  | none => found
  | some t => sweep domains t found
termination_by volume (domains.map List.length) - rank (domains.map List.length) s.positions
decreasing_by
  have := Setting.rank_of_next? _h
  have := t.within.rank_lt
  omega

/-- All choices of one element per domain, as the odometer comes by them. -/
def readings (domains : List (List α)) : List (List α) :=
  if h : domains.any List.isEmpty then [] else (sweep domains ⟨_, within_zeros h⟩ #[]).toList

end Counterbalance.Odometer
