import Mathlib.Data.List.Nodup
import Counterbalance.Design.Fault

/-! Designs without a fault: what the search for a first fault excludes. Every factor has levels
with names of their own, all simple or all derived over one window that fits their arguments, and
all arguments name factors of the design, whose names differ. A fault that is found comes from one
of the checks. -/

namespace Counterbalance

/-- The window can read this number of arguments. -/
structure Window.Admits (w : Window) (arguments : Nat) : Prop where
  width_pos : 0 < w.width
  stride_pos : 0 < w.stride
  arguments_pos : 0 < arguments
  arguments_eq : 1 < w.width → arguments = w.width

theorem Window.fault?_eq_none_iff {w : Window} {n : Nat} : w.fault? n = none ↔ w.Admits n := by
  unfold Window.fault?
  constructor
  · intro h
    split at h
    · cases h
    split at h
    · cases h
    split at h
    · cases h
    split at h
    · cases h
    · rename_i hw hs hn hargs
      exact ⟨by omega, by omega, by omega, fun hlt => by_contra fun hne => hargs ⟨hlt, hne⟩⟩
  · rintro ⟨hw, hs, hn, hargs⟩
    rw [if_neg (by omega), if_neg (by omega), if_neg (by omega),
      if_neg fun ⟨hlt, hne⟩ => hne (hargs hlt)]

namespace Factor

variable {f : Factor}

theorem mem_derivedLevels {l : Nat} {level : DerivedLevel} :
    (l, level) ∈ f.derivedLevels ↔ f.levels[l]? = some (.derived level) := by
  simp only [derivedLevels, List.mem_filterMap, Prod.exists, List.mem_zipIdx_iff_getElem?]
  constructor
  · rintro ⟨lv, k, hk, hmap⟩
    obtain ⟨dl, hd, hp⟩ := Option.map_eq_some_iff.mp hmap
    obtain ⟨rfl, rfl⟩ := Prod.mk.inj hp
    cases lv with
    | simple name => cases hd
    | derived dl' => exact Option.some.inj hd ▸ hk
  · intro h
    exact ⟨.derived level, l, h, rfl⟩

theorem mem_levels_of_mem {p : Nat × DerivedLevel} (hp : p ∈ f.derivedLevels) :
    .derived p.2 ∈ f.levels :=
  List.mem_of_getElem? (mem_derivedLevels.mp hp)

theorem exists_mem_derivedLevels {l : Nat} {level : Level} (hl : f.levels[l]? = some level)
    (h : level.derived? ≠ none) : ∃ derived, (l, derived) ∈ f.derivedLevels := by
  cases level with
  | simple name => exact absurd rfl h
  | derived derived => exact ⟨derived, mem_derivedLevels.mpr hl⟩

/-- A level has one position only. -/
theorem derivedLevels_inj {p q : Nat × DerivedLevel} (hp : p ∈ f.derivedLevels)
    (hq : q ∈ f.derivedLevels) (h : p.1 = q.1) : p = q := by
  have hlevel := (mem_derivedLevels.mp hp).symm.trans (h ▸ mem_derivedLevels.mp hq)
  exact Prod.ext h (Level.derived.inj (Option.some.inj hlevel))

/-- A factor in itself: levels with different names, which are all simple or all derived over the
window that the factor has. -/
structure Fits (f : Factor) : Prop where
  nonempty : f.levels ≠ []
  names_nodup : f.levelNames.Nodup
  simple : f.window? = none → f.derivedLevels = []
  derived : ∀ w, f.window? = some w → ∀ l < f.size, ∃ level, (l, level) ∈ f.derivedLevels
  window : ∀ w, f.window? = some w → ∀ p ∈ f.derivedLevels,
    p.2.window = w ∧ w.Admits p.2.arguments.length

/-- The levels are derived where one of them is, over the window of the factor. -/
theorem Fits.window_of_mem (h : f.Fits) {p : Nat × DerivedLevel} (hp : p ∈ f.derivedLevels) :
    f.window? = some p.2.window := by
  cases hw : f.window? with
  | none =>
    rw [h.simple hw] at hp
    cases hp
  | some w => rw [(h.window w hw p hp).1]

/-- The derived levels of the factor have one window. -/
def Uniform (f : Factor) : Prop :=
  ∀ p ∈ f.derivedLevels, ∀ q ∈ f.derivedLevels, p.2.window = q.2.window

instance (f : Factor) : Decidable f.Uniform :=
  inferInstanceAs
    (Decidable (∀ p ∈ f.derivedLevels, ∀ q ∈ f.derivedLevels, p.2.window = q.2.window))

theorem Fits.uniform (h : f.Fits) : f.Uniform := by
  intro p hp q hq
  exact Option.some.inj ((h.window_of_mem hp).symm.trans (h.window_of_mem hq))

theorem windowFault?_eq_none_iff :
    f.windowFault? = none ↔ ∀ w, f.window? = some w → ∀ p ∈ f.derivedLevels,
      p.2.window = w ∧ w.Admits p.2.arguments.length := by
  unfold windowFault?
  cases hw : f.window? with
  | none => simp
  | some w =>
    simp only [Option.bind_eq_bind, Option.bind_some, Option.some.injEq, forall_eq']
    split
    · rename_i hany
      obtain ⟨p, hp, hne⟩ := List.any_eq_true.mp hany
      simp only [reduceCtorEq, false_iff, not_forall]
      exact ⟨p, hp, fun h => by simp [h.1] at hne⟩
    · rename_i hany
      simp only [Bool.not_eq_true, List.any_eq_false, decide_eq_true_eq, ne_eq, not_not] at hany
      rw [List.findSome?_eq_none_iff]
      simp only [Option.map_eq_none_iff, Window.fault?_eq_none_iff]
      exact forall₂_congr fun p hp => (and_iff_right (hany p hp)).symm

theorem length_derivedLevels_eq_size :
    f.derivedLevels.length = f.size ↔ ∀ l < f.size, ∃ level, (l, level) ∈ f.derivedLevels := by
  have hlength : f.derivedLevels.length = f.size ↔ ∀ p ∈ f.levels.zipIdx, p.1.derived?.isSome := by
    rw [size, ← List.length_zipIdx (l := f.levels), derivedLevels, List.filterMap_length_eq_length]
    simp only [Option.isSome_map]
  rw [hlength]
  simp only [mem_derivedLevels, Prod.forall, List.mem_zipIdx_iff_getElem?]
  constructor
  · intro h l hl
    have hd := h f.levels[l] l (List.getElem?_eq_getElem hl)
    rw [List.getElem?_eq_getElem hl]
    cases hlv : f.levels[l] with
    | simple name => rw [hlv] at hd; cases hd
    | derived level => exact ⟨level, rfl⟩
  · intro h lv l hlv
    obtain ⟨level, hd⟩ := h l (List.getElem?_eq_some_iff.mp hlv).1
    rw [hlv] at hd
    exact Option.some.inj hd ▸ rfl

theorem window?_eq_some_iff {w : Window} :
    f.window? = some w ↔ ∃ level, (0, level) ∈ f.derivedLevels ∧ level.window = w := by
  simp only [mem_derivedLevels, window?, Option.bind_eq_bind, Option.bind_eq_some_iff,
    Option.some.injEq, List.head?_eq_getElem?]
  constructor
  · rintro ⟨lv, hlv, level, hd, hw⟩
    cases lv with
    | simple name => cases hd
    | derived level' =>
      obtain rfl := Option.some.inj hd
      exact ⟨level', hlv, hw⟩
  · rintro ⟨level, hlv, hw⟩
    exact ⟨.derived level, hlv, level, rfl, hw⟩

/-- Comparing all windows with the first one compares them with each other. -/
theorem any_window_ne_iff {w : Window} (hw : f.window? = some w) :
    f.derivedLevels.any (·.2.window ≠ w) = true ↔ ¬ f.Uniform := by
  obtain ⟨first, hfirst, rfl⟩ := window?_eq_some_iff.mp hw
  simp only [List.any_eq_true, decide_eq_true_eq]
  constructor
  · intro h hu
    obtain ⟨p, hp, hne⟩ := h
    exact hne (hu p hp _ hfirst)
  · intro h
    by_contra hnone
    push Not at hnone
    exact h fun p hp q hq => (hnone p hp).trans (hnone q hq).symm

/-- The windows differ, or one of them cannot read the arguments of its level. -/
theorem windowFault?_cases {e : DesignError} (h : f.windowFault? = some e) :
    (e = .mismatchedWindows f.name ∧ ¬ f.Uniform) ∨
    ∃ p ∈ f.derivedLevels, ∃ fault, e = .invalidWindow f.name p.2.name fault ∧
      p.2.window.fault? p.2.arguments.length = some fault := by
  obtain ⟨w, hw, h⟩ := Option.bind_eq_some_iff.mp h
  split at h
  · rename_i hany
    exact .inl ⟨(Option.some.inj h).symm, (any_window_ne_iff hw).mp hany⟩
  · rename_i hsame
    obtain ⟨p, hp, hfault⟩ := List.exists_of_findSome?_eq_some h
    obtain ⟨fault, hreads, rfl⟩ := Option.map_eq_some_iff.mp hfault
    have hpw : p.2.window = w := by
      by_contra hne
      exact hsame (List.any_eq_true.mpr ⟨p, hp, by simpa using hne⟩)
    exact .inr ⟨p, hp, fault, rfl, hpw ▸ hreads⟩

/-- Without a window the first level is simple, and with one it is derived; the others follow it. -/
theorem kinds_iff (hne : f.levels ≠ []) :
    ¬ (f.derivedLevels.length ≠ 0 ∧ f.derivedLevels.length ≠ f.size) ↔
      (f.window? = none → f.derivedLevels = []) ∧
      ∀ w, f.window? = some w → ∀ l < f.size, ∃ level, (l, level) ∈ f.derivedLevels := by
  have hpos : 0 < f.size := List.length_pos_iff.mpr hne
  rw [not_and_or, not_not, not_not, length_derivedLevels_eq_size, List.length_eq_zero_iff]
  cases hw : f.window? with
  | none =>
    simp only [forall_const, reduceCtorEq, false_imp_iff, implies_true, and_true,
      or_iff_left_iff_imp]
    intro h
    obtain ⟨level, hlevel⟩ := h 0 hpos
    rw [window?_eq_some_iff.mpr ⟨level, hlevel, rfl⟩] at hw
    cases hw
  | some w =>
    simp only [reduceCtorEq, false_imp_iff, Option.some.injEq, forall_eq', true_and,
      or_iff_right_iff_imp]
    intro h
    obtain ⟨level, hlevel, _⟩ := window?_eq_some_iff.mp hw
    rw [h] at hlevel
    cases hlevel

theorem fault?_eq_none_iff {earlier : List String} :
    f.fault? earlier = none ↔ f.name ∉ earlier ∧ f.Fits := by
  unfold fault?
  split
  · rename_i hempty
    exact ⟨nofun, fun h => absurd (List.isEmpty_iff.mp hempty) h.2.nonempty⟩
  rename_i hne
  rw [List.isEmpty_iff] at hne
  split
  · rename_i hmem
    exact ⟨nofun, fun h => absurd hmem h.1⟩
  rename_i hnew
  split
  · rename_i level hrep
    refine ⟨nofun, fun h => ?_⟩
    rw [firstRepeat?_eq_none_iff.mpr ⟨h.2.names_nodup, by simp⟩] at hrep
    cases hrep
  rename_i hrep
  have hnodup := (firstRepeat?_eq_none_iff.mp hrep).1
  split
  · rename_i hmixed
    exact ⟨nofun, fun h => absurd hmixed ((kinds_iff hne).mpr ⟨h.2.simple, h.2.derived⟩)⟩
  rename_i hmixed
  obtain ⟨hsimple, hderived⟩ := (kinds_iff hne).mp hmixed
  rw [windowFault?_eq_none_iff]
  exact ⟨fun hw => ⟨hnew, hne, hnodup, hsimple, hderived, hw⟩, fun h => h.2.window⟩

/-- A fault of a factor, with what has been found by the check that it comes from. -/
theorem fault?_cases {earlier : List String} {e : DesignError} (h : f.fault? earlier = some e) :
    (e = .emptyFactor f.name ∧ f.levels = []) ∨
    (e = .duplicateFactor f.name ∧ f.name ∈ earlier) ∨
    (∃ level, e = .duplicateLevel f.name level ∧ firstRepeat? [] f.levelNames = some level) ∨
    (e = .mixedLevels f.name ∧ f.derivedLevels.length ≠ 0 ∧ f.derivedLevels.length ≠ f.size) ∨
    f.windowFault? = some e := by
  unfold fault? at h
  split at h
  · rename_i hempty
    exact .inl ⟨(Option.some.inj h).symm, List.isEmpty_iff.mp hempty⟩
  split at h
  · rename_i hmem
    exact .inr (.inl ⟨(Option.some.inj h).symm, hmem⟩)
  split at h
  · rename_i level hrepeat
    exact .inr (.inr (.inl ⟨level, (Option.some.inj h).symm, hrepeat⟩))
  split at h
  · rename_i hmixed
    exact .inr (.inr (.inr (.inl ⟨(Option.some.inj h).symm, hmixed⟩)))
  · exact .inr (.inr (.inr (.inr h)))

theorem argumentFault?_eq_none_iff {names : List String} :
    f.argumentFault? names = none ↔ ∀ p ∈ f.derivedLevels, ∀ a ∈ p.2.arguments, a ∈ names := by
  unfold argumentFault?
  simp

end Factor

namespace Design

/-- Factors that fit, with names of their own, whose arguments name factors of the design. -/
structure Faultless (d : Design) : Prop where
  names_nodup : d.names.Nodup
  fits : ∀ f ∈ d, f.Fits
  named : ∀ f ∈ d, ∀ p ∈ f.derivedLevels, ∀ a ∈ p.2.arguments, a ∈ d.names

theorem factorFault?_eq_none_iff {d : Design} {earlier : List String} :
    factorFault? earlier d = none ↔
      (∀ f ∈ d, f.Fits) ∧ d.names.Nodup ∧ ∀ f ∈ d, f.name ∉ earlier := by
  induction d generalizing earlier with
  | nil => simp [factorFault?, names]
  | cons f rest ih =>
    rw [factorFault?, Option.or_eq_none_iff, Factor.fault?_eq_none_iff, ih]
    simp only [List.forall_mem_cons, names, List.map_cons, List.nodup_cons, List.mem_append,
      List.mem_singleton, not_or, List.mem_map, not_exists, not_and, forall_and]
    tauto

theorem fault?_eq_none_iff {d : Design} : d.fault? = none ↔ d.Faultless := by
  rw [fault?, Option.or_eq_none_iff, factorFault?_eq_none_iff, List.findSome?_eq_none_iff]
  simp only [Factor.argumentFault?_eq_none_iff]
  exact ⟨fun ⟨⟨hfits, hnodup, _⟩, hnamed⟩ => ⟨hnodup, hfits, hnamed⟩,
    fun ⟨hnodup, hfits, hnamed⟩ => ⟨⟨hfits, hnodup, by simp⟩, hnamed⟩⟩

/-- The first factor with a fault, after those that precede it. -/
theorem factorFault?_cases {d : Design} {earlier : List String} {e : DesignError}
    (h : factorFault? earlier d = some e) :
    ∃ front f rest, d = front ++ f :: rest ∧ f.fault? (earlier ++ names front) = some e := by
  induction d generalizing earlier with
  | nil => cases h
  | cons f rest ih =>
    rw [factorFault?, Option.or_eq_some_iff] at h
    rcases h with h | ⟨_, h⟩
    · exact ⟨[], f, rest, rfl, by rwa [names, List.map_nil, List.append_nil]⟩
    · obtain ⟨front, g, rest, rfl, hg⟩ := ih h
      exact ⟨f :: front, g, rest, rfl, by rwa [names, List.map_cons, List.append_cons]⟩

/-- A factor has a fault, or an argument names none. -/
theorem fault?_cases {d : Design} {e : DesignError} (h : d.fault? = some e) :
    (∃ front f rest, d = front ++ f :: rest ∧ f.fault? (names front) = some e) ∨
    ∃ f ∈ d, ∃ p ∈ f.derivedLevels, ∃ argument ∈ p.2.arguments, argument ∉ d.names ∧
      e = .unknownArgument f.name p.2.name argument := by
  rw [fault?, Option.or_eq_some_iff] at h
  rcases h with h | ⟨_, h⟩
  · exact .inl (factorFault?_cases h)
  · obtain ⟨f, hf, h⟩ := List.exists_of_findSome?_eq_some h
    obtain ⟨p, hp, h⟩ := List.exists_of_findSome?_eq_some h
    obtain ⟨argument, hargument, rfl⟩ := Option.map_eq_some_iff.mp h
    have hunknown : argument ∉ d.names := by simpa using List.find?_some hargument
    exact .inr ⟨f, hf, p, hp, argument, List.mem_of_find?_eq_some hargument, hunknown, rfl⟩

theorem factorAt_eq_getElem {d : Design} {f : Nat} (h : f < d.length) : d.factorAt f = d[f] := by
  rw [factorAt, List.getElem?_eq_getElem h, Option.getD_some]

theorem factorAt_mem {d : Design} {f : Nat} (h : f < d.length) : d.factorAt f ∈ d :=
  factorAt_eq_getElem h ▸ List.getElem_mem h

/-- Only factors of the design have a window. -/
theorem lt_of_window? {d : Design} {f : Nat} {w : Window} (h : (d.factorAt f).window? = some w) :
    f < d.length := by
  by_contra hlt
  rw [factorAt, List.getElem?_eq_none (Nat.le_of_not_lt hlt)] at h
  cases h

/-- Only factors of the design have derived levels. -/
theorem lt_of_derivedLevel {d : Design} {f : Nat} {p : Nat × DerivedLevel}
    (h : p ∈ (d.factorAt f).derivedLevels) : f < d.length := by
  by_contra hlt
  rw [factorAt, List.getElem?_eq_none (Nat.le_of_not_lt hlt)] at h
  cases h

variable {d : Design} {f : Nat}

theorem Faultless.fitsAt (hd : d.Faultless) (h : f < d.length) : (d.factorAt f).Fits :=
  hd.fits _ (factorAt_mem h)

/-- The name of a factor leads back to it. -/
theorem Faultless.index?_name (hd : d.Faultless) (h : f < d.length) :
    d.index? (d.factorAt f).name = some f := by
  have hname : ∀ g < d.length, d.names[g]? = some (d.factorAt g).name := by
    intro g hg
    rw [names, List.getElem?_map, List.getElem?_eq_getElem hg, factorAt_eq_getElem hg]
    rfl
  have hmem : (d.factorAt f).name ∈ d.names := List.mem_of_getElem? (hname f h)
  obtain ⟨g, hg⟩ := Option.ne_none_iff_exists'.mp fun hnone => index?_eq_none_iff.mp hnone hmem
  obtain ⟨hlt, hsame⟩ := factorAt_of_index? hg
  have hdup : d.names[g]? = d.names[f]? := by rw [hname g hlt, hname f h, hsame]
  rw [hg, (List.getElem?_inj (by rwa [names, List.length_map]) hd.names_nodup).mp hdup]

/-- The window of a factor fits the arguments of its levels. -/
theorem Faultless.admits (hd : d.Faultless) {w : Window} (hw : (d.factorAt f).window? = some w)
    {l : Nat} {level : DerivedLevel} (hl : (l, level) ∈ (d.factorAt f).derivedLevels) :
    w.Admits level.arguments.length :=
  ((hd.fitsAt (lt_of_window? hw)).window w hw _ hl).2

/-- The window of a derived level is that of its factor. -/
theorem Faultless.window?_eq (hd : d.Faultless) {p : Nat × DerivedLevel}
    (hp : p ∈ (d.factorAt f).derivedLevels) : (d.factorAt f).window? = some p.2.window :=
  (hd.fitsAt (lt_of_derivedLevel hp)).window_of_mem hp

end Design

end Counterbalance
