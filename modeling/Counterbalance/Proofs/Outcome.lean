import Mathlib.Algebra.GroupWithZero.Nat
import Counterbalance.Proofs.Lists

/-! Computations that may fail, taken apart: what a computation that succeeds went through. -/

namespace Counterbalance.Outcome

variable {ε δ α β : Type}

theorem bind_eq_ok {x : Except ε α} {f : α → Except ε β} {b : β} :
    x >>= f = .ok b ↔ ∃ a, x = .ok a ∧ f a = .ok b := by
  cases x with
  | error e => simp [bind, Except.bind]
  | ok a => simp [bind, Except.bind]

theorem bind_eq_error {x : Except ε α} {f : α → Except ε β} {e : ε} :
    x >>= f = .error e ↔ x = .error e ∨ ∃ a, x = .ok a ∧ f a = .error e := by
  cases x with
  | error e' => simp [bind, Except.bind]
  | ok a => simp [bind, Except.bind]

theorem exists_bind_eq_ok {x : Except ε α} {f : α → Except ε β} (hx : ∃ a, x = .ok a)
    (hf : ∀ a, ∃ b, f a = .ok b) : ∃ b, x >>= f = .ok b := by
  obtain ⟨a, ha⟩ := hx
  obtain ⟨b, hb⟩ := hf a
  exact ⟨b, bind_eq_ok.mpr ⟨a, ha, hb⟩⟩

theorem bind_congr {x : Except ε α} {f g : α → Except ε β} (h : ∀ a, x = .ok a → f a = g a) :
    x >>= f = x >>= g := by
  cases x with
  | error e => rfl
  | ok a => exact h a rfl

theorem map_eq_ok {x : Except ε α} {f : α → β} {b : β} :
    x.map f = .ok b ↔ ∃ a, x = .ok a ∧ f a = b := by
  cases x with
  | error e => simp [Except.map]
  | ok a => simp [Except.map]

theorem map_eq_error {x : Except ε α} {f : α → β} {e : ε} : x.map f = .error e ↔ x = .error e := by
  cases x with
  | error e' => simp [Except.map]
  | ok a => simp [Except.map]

theorem mapError_eq_ok {x : Except ε α} {f : ε → δ} {a : α} :
    x.mapError f = .ok a ↔ x = .ok a := by
  cases x with
  | error e => simp [Except.mapError]
  | ok a => simp [Except.mapError]

theorem mapError_eq_error {x : Except ε α} {f : ε → δ} {e : δ} :
    x.mapError f = .error e ↔ ∃ e', x = .error e' ∧ f e' = e := by
  cases x with
  | error e' => simp [Except.mapError]
  | ok a => simp [Except.mapError]

theorem ne_error {x : Except ε α} {a : α} (hx : x = .ok a) (e : ε) : x ≠ .error e := by
  rw [hx]
  exact nofun

theorem toOption_eq_some {x : Except ε α} {a : α} : x.toOption = some a ↔ x = .ok a := by
  cases x with
  | error e => simp [Except.toOption]
  | ok a => simp [Except.toOption]

theorem mapM_eq_ok {f : α → Except ε β} {xs : List α} {ys : List β} :
    xs.mapM f = .ok ys ↔ List.Forall₂ (fun x y => f x = .ok y) xs ys := by
  induction xs generalizing ys with
  | nil =>
    rw [List.mapM_nil, List.forall₂_nil_left_iff]
    exact ⟨fun h => (Except.ok.inj h).symm, fun h => h ▸ rfl⟩
  | cons x xs ih =>
    rw [List.mapM_cons, bind_eq_ok, List.forall₂_cons_left_iff]
    constructor
    · rintro ⟨y, hy, h⟩
      obtain ⟨zs, hzs, h⟩ := bind_eq_ok.mp h
      exact ⟨y, zs, hy, ih.mp hzs, (Except.ok.inj h).symm⟩
    · rintro ⟨y, zs, hy, hzs, rfl⟩
      exact ⟨y, hy, bind_eq_ok.mpr ⟨zs, ih.mpr hzs, rfl⟩⟩

/-- A traversal that fails has met an element that fails. -/
theorem exists_error_of_mapM {f : α → Except ε β} {xs : List α} {e : ε}
    (h : xs.mapM f = .error e) : ∃ x ∈ xs, f x = .error e := by
  induction xs with
  | nil => rw [List.mapM_nil] at h; cases h
  | cons x xs ih =>
    rw [List.mapM_cons] at h
    rcases bind_eq_error.mp h with hx | ⟨y, _, h⟩
    · exact ⟨x, List.mem_cons_self, hx⟩
    · rcases bind_eq_error.mp h with hxs | ⟨ys, _, h⟩
      · obtain ⟨z, hz, he⟩ := ih hxs
        exact ⟨z, List.mem_cons_of_mem x hz, he⟩
      · cases h

/-- A traversal fails with the error of the first element that fails. -/
theorem mapM_eq_error {f : α → Except ε β} {xs : List α} {i : Nat} {x : α} {e : ε}
    (hi : xs[i]? = some x) (hx : f x = .error e)
    (hfirst : ∀ j < i, ∀ y, xs[j]? = some y → ∃ z, f y = .ok z) : xs.mapM f = .error e := by
  induction xs generalizing i with
  | nil => cases hi
  | cons y ys ih =>
    rw [List.mapM_cons]
    cases i with
    | zero => exact bind_eq_error.mpr (.inl (Option.some.inj hi ▸ hx))
    | succ i =>
      obtain ⟨z, hz⟩ := hfirst 0 (Nat.succ_pos i) y rfl
      have hys := ih hi fun j hj => hfirst (j + 1) (Nat.succ_lt_succ hj)
      exact bind_eq_error.mpr (.inr ⟨z, hz, bind_eq_error.mpr (.inl hys)⟩)

theorem mapM_range_eq_error {f : Nat → Except ε β} {n i : Nat} {e : ε} (hi : i < n)
    (hx : f i = .error e) (hfirst : ∀ j < i, ∃ z, f j = .ok z) :
    (List.range n).mapM f = .error e := by
  refine mapM_eq_error (List.getElem?_range hi) hx fun j hj y hy => ?_
  rw [List.getElem?_range (Nat.lt_trans hj hi)] at hy
  exact Option.some.inj hy ▸ hfirst j hj

theorem mapM_range_eq_ok {f : Nat → Except ε β} {n : Nat} {h : Nat → β}
    (hf : ∀ i < n, f i = .ok (h i)) : (List.range n).mapM f = .ok ((List.range n).map h) := by
  rw [mapM_eq_ok, List.forall₂_map_right_iff, List.forall₂_same]
  exact fun i hi => hf i (List.mem_range.mp hi)

/-- A fold that fails has come to a step that fails. -/
theorem exists_split_of_foldlM_error {f : β → α → Except ε β} {xs : List α} {b : β} {e : ε}
    (h : xs.foldlM f b = .error e) :
    ∃ before x after c, xs = before ++ x :: after ∧ before.foldlM f b = .ok c ∧
      f c x = .error e := by
  induction xs generalizing b with
  | nil => rw [List.foldlM_nil] at h; cases h
  | cons x xs ih =>
    rw [List.foldlM_cons] at h
    rcases bind_eq_error.mp h with hx | ⟨c, hc, h⟩
    · exact ⟨[], x, xs, b, rfl, rfl, hx⟩
    · obtain ⟨before, y, after, c', rfl, hbefore, he⟩ := ih h
      refine ⟨x :: before, y, after, c', rfl, ?_, he⟩
      rw [List.foldlM_cons]
      exact bind_eq_ok.mpr ⟨c, hc, hbefore⟩

/-- A fold that fails has met a step that fails. -/
theorem exists_error_of_foldlM {f : β → α → Except ε β} {xs : List α} {b : β} {e : ε}
    (h : xs.foldlM f b = .error e) : ∃ x ∈ xs, ∃ c, f c x = .error e := by
  obtain ⟨before, x, after, c, rfl, _, he⟩ := exists_split_of_foldlM_error h
  exact ⟨x, by simp, c, he⟩

theorem mapM_congr {f g : α → Except ε β} {xs : List α} (h : ∀ x ∈ xs, f x = g x) :
    xs.mapM f = xs.mapM g := by
  induction xs with
  | nil => rfl
  | cons x xs ih =>
    obtain ⟨hx, hxs⟩ := List.forall_mem_cons.mp h
    rw [List.mapM_cons, List.mapM_cons, hx, ih hxs]

/-- What relates each element to its value relates a list to what a traversal takes it to. -/
theorem forall₂_of_mapM {f : α → Except ε β} {R : α → β → Prop} {xs : List α} {ys : List β}
    (h : xs.mapM f = .ok ys) (hR : ∀ x ∈ xs, ∀ y, f x = .ok y → R x y) : List.Forall₂ R xs ys :=
  Lists.forall₂_imp_of_mem (mapM_eq_ok.mp h) hR

theorem exists_ok_of_mapM {f : α → Except ε β} {xs : List α} {ys : List β} (h : xs.mapM f = .ok ys)
    {x : α} (hx : x ∈ xs) : ∃ y, f x = .ok y := by
  obtain ⟨y, _, hy⟩ := Lists.exists_right_of_mem (mapM_eq_ok.mp h) hx
  exact ⟨y, hy⟩

theorem mem_iff_of_mapM {f : α → Except ε β} {xs : List α} {ys : List β} (h : xs.mapM f = .ok ys)
    {y : β} : y ∈ ys ↔ ∃ x ∈ xs, f x = .ok y := by
  constructor
  · exact Lists.exists_left_of_mem (mapM_eq_ok.mp h)
  · intro h
    obtain ⟨x, hx, hy⟩ := h
    obtain ⟨y', hy', hf⟩ := Lists.exists_right_of_mem (mapM_eq_ok.mp h) hx
    rw [hy] at hf
    exact Except.ok.inj hf ▸ hy'

/-- A traversal succeeds exactly if it does so at every element. -/
theorem exists_mapM_eq_ok {f : α → Except ε β} {xs : List α} :
    (∃ ys, xs.mapM f = .ok ys) ↔ ∀ x ∈ xs, ∃ y, f x = .ok y := by
  constructor
  · intro hall x hx
    obtain ⟨ys, h⟩ := hall
    exact exists_ok_of_mapM h hx
  · intro h
    induction xs with
    | nil => exact ⟨[], rfl⟩
    | cons x xs ih =>
      obtain ⟨⟨y, hy⟩, hxs⟩ := List.forall_mem_cons.mp h
      obtain ⟨ys, hys⟩ := ih hxs
      exact ⟨y :: ys, mapM_eq_ok.mpr (.cons hy (mapM_eq_ok.mp hys))⟩

/-- A fold whose steps succeed does so as a whole. -/
theorem exists_foldlM_eq_ok {f : β → α → Except ε β} {xs : List α}
    (h : ∀ x ∈ xs, ∀ b, ∃ c, f b x = .ok c) (b : β) : ∃ c, xs.foldlM f b = .ok c := by
  induction xs generalizing b with
  | nil => exact ⟨b, rfl⟩
  | cons x xs ih =>
    obtain ⟨hx, hxs⟩ := List.forall_mem_cons.mp h
    rw [List.foldlM_cons]
    exact exists_bind_eq_ok (hx b) (ih hxs)

/-- A traversal of elements with values succeeds, and collects what is known of these. -/
theorem exists_mapM_of_forall {f : α → Except ε β} {R : α → β → Prop} {xs : List α}
    (h : ∀ x ∈ xs, ∃ y, f x = .ok y ∧ R x y) : ∃ ys, xs.mapM f = .ok ys ∧ List.Forall₂ R xs ys := by
  obtain ⟨ys, hys⟩ := exists_mapM_eq_ok.mpr fun x hx => (h x hx).imp fun _ hy => hy.1
  refine ⟨ys, hys, forall₂_of_mapM hys fun x hx y hy => ?_⟩
  obtain ⟨y', hy', hR⟩ := h x hx
  rw [hy] at hy'
  exact Except.ok.inj hy' ▸ hR

theorem exists_ok_of_flatten {f : α → Except ε (List β)} {xs : List α} {ys : List β}
    (h : (xs.mapM f).map List.flatten = .ok ys) {x : α} (hx : x ∈ xs) : ∃ zs, f x = .ok zs := by
  obtain ⟨_, hm, _⟩ := map_eq_ok.mp h
  exact exists_ok_of_mapM hm hx

/-- The members of the lists that a traversal has collected. -/
theorem mem_iff_of_flatten {f : α → Except ε (List β)} {xs : List α} {ys : List β}
    (h : (xs.mapM f).map List.flatten = .ok ys) {y : β} :
    y ∈ ys ↔ ∃ x ∈ xs, ∃ zs, f x = .ok zs ∧ y ∈ zs := by
  obtain ⟨zss, hm, rfl⟩ := map_eq_ok.mp h
  rw [List.mem_flatten]
  constructor
  · intro h
    obtain ⟨zs, hzs, hy⟩ := h
    obtain ⟨x, hx, hf⟩ := (mem_iff_of_mapM hm).mp hzs
    exact ⟨x, hx, zs, hf, hy⟩
  · intro h
    obtain ⟨x, hx, zs, hf, hy⟩ := h
    exact ⟨zs, (mem_iff_of_mapM hm).mpr ⟨x, hx, hf⟩, hy⟩

/-- The lists that a traversal has collected are as long together as each of them is. -/
theorem length_of_flatten {f : α → Except ε (List β)} {n : α → Nat} {xs : List α}
    {ys : List β} (h : (xs.mapM f).map List.flatten = .ok ys)
    (hn : ∀ x ∈ xs, ∀ zs, f x = .ok zs → zs.length = n x) : ys.length = (xs.map n).sum := by
  obtain ⟨zss, hm, rfl⟩ := map_eq_ok.mp h
  have hlengths : List.Forall₂ (· = ·) (xs.map n) (zss.map List.length) := by
    rw [List.forall₂_map_left_iff, List.forall₂_map_right_iff]
    exact forall₂_of_mapM hm fun x hx zs hzs => (hn x hx zs hzs).symm
  rw [List.forall₂_eq_eq_eq] at hlengths
  rw [List.length_flatten, hlengths]

/-! ## First failures -/

/-- The error is that of the first element of the list that has one. -/
inductive First (E : α → ε → Prop) : List α → ε → Prop
  | head {x : α} {xs : List α} {e : ε} : E x e → First E (x :: xs) e
  | tail {x : α} {xs : List α} {e : ε} : (∀ e', ¬ E x e') → First E xs e → First E (x :: xs) e

variable {E : α → ε → Prop} {xs : List α} {e e' : ε}

theorem First.exists_mem (h : First E xs e) : ∃ x ∈ xs, E x e := by
  induction h with
  | head hx => exact ⟨_, List.mem_cons_self, hx⟩
  | tail _ _ ih =>
    obtain ⟨x, hx, he⟩ := ih
    exact ⟨x, List.mem_cons_of_mem _ hx, he⟩

theorem First.unique (h : First E xs e) (hE : ∀ x e e', E x e → E x e' → e = e')
    (h' : First E xs e') : e = e' := by
  induction h with
  | head hx =>
    cases h' with
    | head hx' => exact hE _ _ _ hx hx'
    | tail hnone _ => exact absurd hx (hnone _)
  | tail hnone _ ih =>
    cases h' with
    | head hx' => exact absurd hx' (hnone _)
    | tail _ h' => exact ih h'

/-- A fold fails with the error of the first element that has one, if errors do not depend on what
comes before. -/
theorem first_of_foldlM_error {f : β → α → Except ε β}
    (hok : ∀ x ∈ xs, ∀ b c, f b x = .ok c → ∀ e, ¬ E x e)
    (herror : ∀ x ∈ xs, ∀ b e, f b x = .error e → E x e) {b : β} (h : xs.foldlM f b = .error e) :
    First E xs e := by
  induction xs generalizing b with
  | nil => cases h
  | cons x xs ih =>
    rw [List.forall_mem_cons] at hok herror
    rw [List.foldlM_cons] at h
    rcases bind_eq_error.mp h with h | ⟨c, hc, h⟩
    · exact .head (herror.1 b e h)
    · exact .tail (hok.1 b c hc) (ih hok.2 herror.2 h)

theorem not_error_of_foldlM_ok {f : β → α → Except ε β}
    (hok : ∀ x ∈ xs, ∀ b c, f b x = .ok c → ∀ e, ¬ E x e) {b c : β} (h : xs.foldlM f b = .ok c) :
    ∀ x ∈ xs, ∀ e, ¬ E x e := by
  induction xs generalizing b with
  | nil => exact fun x hx => absurd hx List.not_mem_nil
  | cons x xs ih =>
    rw [List.forall_mem_cons] at hok
    rw [List.foldlM_cons] at h
    obtain ⟨b', hx, h⟩ := bind_eq_ok.mp h
    exact List.forall_mem_cons.mpr ⟨hok.1 b b' hx, ih hok.2 h⟩

end Counterbalance.Outcome
