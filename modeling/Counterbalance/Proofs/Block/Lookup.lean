import Counterbalance.Proofs.Block.RunLength

/-! What constraints name. The formulas of a constraint can be made exactly if its factor and its
level exist; otherwise the error says which of them is missing. -/

namespace Counterbalance

/-- What the constraint is about. -/
def Constraint.target : Constraint → Target
  | .atMostInARow _ target => target
  | .exclude factor level => .level factor level

namespace Design

variable {d : Design} {target : Target} {e : LookupError}

/-- The design lacks what the target names: its factor, or only its level. -/
inductive Lacks (d : Design) : Target → LookupError → Prop
  | factor {name : String} : name ∉ d.names → Lacks d (.factor name) (.unknownFactor name)
  | factorOfLevel {factor level : String} : factor ∉ d.names →
      Lacks d (.level factor level) (.unknownFactor factor)
  | level {factor level : String} :
      factor ∈ d.names → (∀ f ∈ d, f.name = factor → level ∉ f.levelNames) →
      Lacks d (.level factor level) (.unknownLevel factor level)

theorem Lacks.unique {e' : LookupError} (h : d.Lacks target e) (h' : d.Lacks target e') :
    e = e' := by
  cases h with
  | factor => cases h'; rfl
  | factorOfLevel hnot =>
    cases h' with
    | factorOfLevel => rfl
    | level hmem _ => exact absurd hmem hnot
  | level hmem _ =>
    cases h' with
    | factorOfLevel hnot => exact absurd hmem hnot
    | level => rfl

theorem mem_names_iff {name : String} : name ∈ d.names ↔ ∃ f ∈ d, f.name = name := List.mem_map

theorem not_knows_iff : ¬ d.Knows target ↔ ∃ e, d.Lacks target e := by
  cases target with
  | factor name =>
    constructor
    · intro h
      exact ⟨_, .factor fun hmem => h (mem_names_iff.mp hmem)⟩
    · rintro ⟨_, ⟨hnot⟩⟩ h
      exact hnot (mem_names_iff.mpr h)
  | level factor level =>
    constructor
    · intro h
      by_cases hfactor : factor ∈ d.names
      · exact ⟨_, .level hfactor fun f hf hname hlevel => h ⟨f, hf, hname, hlevel⟩⟩
      · exact ⟨_, .factorOfLevel hfactor⟩
    · rintro ⟨_, hlacks⟩ ⟨f, hf, hname, hlevel⟩
      cases hlacks with
      | factorOfLevel hnot => exact hnot (mem_names_iff.mpr ⟨f, hf, hname⟩)
      | level _ hnone => exact hnone f hf hname hlevel

/-! ## Failures of lookups -/

theorem findFactor_eq_error {name : String} (h : d.findFactor name = .error e) :
    name ∉ d.names ∧ e = .unknownFactor name := by
  unfold findFactor at h
  split at h
  · cases h
  · rename_i hnone
    exact ⟨index?_eq_none_iff.mp hnone, (Except.error.inj h).symm⟩

theorem lacks_of_findLevel (hd : d.Faultless) {factor level : String}
    (h : d.findLevel factor level = .error e) : d.Lacks (.level factor level) e := by
  rcases Outcome.bind_eq_error.mp h with h | ⟨f, hf, h⟩
  · obtain ⟨hnot, rfl⟩ := findFactor_eq_error h
    exact .factorOfLevel hnot
  · have hindex := Block.findFactor_eq_ok.mp hf
    split at h
    · cases h
    · rename_i hnone
      obtain rfl := Except.error.inj h
      refine .level ?_ fun g hg hname hlevel => ?_
      · by_contra hnot
        rw [index?_eq_none_iff.mpr hnot] at hindex
        cases hindex
      · obtain ⟨f', hf', rfl⟩ := exists_index?_of_mem hd hg
        rw [hname, hindex] at hf'
        obtain rfl := Option.some.inj hf'
        obtain ⟨lv, hlv, rfl⟩ := List.mem_map.mp hlevel
        exact of_decide_eq_false (List.findIdx?_eq_none_iff.mp hnone lv hlv) rfl

theorem lacks_of_findTarget (hd : d.Faultless) (h : d.findTarget target = .error e) :
    d.Lacks target e := by
  cases target with
  | level factor level =>
    rcases Outcome.bind_eq_error.mp h with h | ⟨_, _, h⟩
    · exact lacks_of_findLevel hd h
    · cases h
  | factor name =>
    rcases Outcome.bind_eq_error.mp h with h | ⟨_, _, h⟩
    · obtain ⟨hnot, rfl⟩ := findFactor_eq_error h
      exact .factor hnot
    · cases h

/-- What is found exists. -/
theorem knows_of_findTarget {p : Nat × List Nat} (h : d.findTarget target = .ok p) :
    d.Knows target := by
  cases target with
  | level factor level =>
    obtain ⟨⟨f, l⟩, h, _⟩ := Outcome.bind_eq_ok.mp h
    obtain ⟨hindex, lv, hl, rfl⟩ := Block.findLevel_eq_ok h
    obtain ⟨hlt, hname⟩ := factorAt_of_index? hindex
    exact ⟨_, factorAt_mem hlt, hname, List.mem_map.mpr ⟨lv, List.mem_of_getElem? hl, rfl⟩⟩
  | factor name =>
    obtain ⟨f, h, _⟩ := Outcome.bind_eq_ok.mp h
    obtain ⟨hlt, hname⟩ := factorAt_of_index? (Block.findFactor_eq_ok.mp h)
    exact ⟨_, factorAt_mem hlt, hname⟩

end Design

namespace Block

variable {b : Block} {c : Constraint}

/-! ## Formulas of constraints -/

theorem exists_requirements (hb : b.WellFormed) (hr : b.InRange) (hc : b.design.Knows c.target) :
    ∃ φs, b.requirements c = .ok φs := by
  cases c with
  | atMostInARow k target =>
    obtain ⟨f, levels, hfind, hcounts⟩ := Design.exists_findTarget hb.faultless hc
    obtain ⟨φs, hφs⟩ := exists_atMostInARow hb hr k hcounts.lt.2
    exact ⟨φs,
      Outcome.bind_eq_ok.mpr ⟨_, Outcome.mapError_eq_ok.mpr hfind, Outcome.mapError_eq_ok.mpr hφs⟩⟩
  | exclude factor level =>
    obtain ⟨f, l, hfind, hcounts⟩ := Design.exists_findLevel hb.faultless hc
    obtain ⟨φs, hφs⟩ := exists_exclusion hb hr (hcounts.lt.2 l (List.mem_singleton_self l))
    exact ⟨φs,
      Outcome.bind_eq_ok.mpr ⟨_, Outcome.mapError_eq_ok.mpr hfind, Outcome.mapError_eq_ok.mpr hφs⟩⟩

theorem knows_of_requirements {φs : List Formula} (h : b.requirements c = .ok φs) :
    b.design.Knows c.target := by
  cases c with
  | atMostInARow k target =>
    obtain ⟨p, hfind, _⟩ := Outcome.bind_eq_ok.mp h
    exact Design.knows_of_findTarget (Outcome.mapError_eq_ok.mp hfind)
  | exclude factor level =>
    obtain ⟨p, hfind, _⟩ := Outcome.bind_eq_ok.mp h
    exact Design.knows_of_findTarget
      (Outcome.bind_eq_ok.mpr ⟨p, Outcome.mapError_eq_ok.mp hfind, rfl⟩)

/-- The formulas of a constraint fail over a missing name or over a variable out of range. -/
theorem error_of_requirements (hb : b.WellFormed) {e : BlockError}
    (h : b.requirements c = .error e) :
    (∃ e', e = .lookup e' ∧ b.design.Lacks c.target e') ∨ b.design.Knows c.target ∧
      ∃ e', e = .literal e' := by
  cases c with
  | atMostInARow k target =>
    rcases Outcome.bind_eq_error.mp h with hlookup | ⟨p, hfind, hliteral⟩
    · obtain ⟨e', hfind, rfl⟩ := Outcome.mapError_eq_error.mp hlookup
      exact .inl ⟨e', rfl, Design.lacks_of_findTarget hb.faultless hfind⟩
    · obtain ⟨e', _, rfl⟩ := Outcome.mapError_eq_error.mp hliteral
      exact .inr ⟨Design.knows_of_findTarget (Outcome.mapError_eq_ok.mp hfind), e', rfl⟩
  | exclude factor level =>
    rcases Outcome.bind_eq_error.mp h with hlookup | ⟨p, hfind, hliteral⟩
    · obtain ⟨e', hfind, rfl⟩ := Outcome.mapError_eq_error.mp hlookup
      exact .inl ⟨e', rfl, Design.lacks_of_findLevel hb.faultless hfind⟩
    · obtain ⟨e', _, rfl⟩ := Outcome.mapError_eq_error.mp hliteral
      refine .inr ⟨?_, e', rfl⟩
      exact Design.knows_of_findTarget
        (Outcome.bind_eq_ok.mpr ⟨p, Outcome.mapError_eq_ok.mp hfind, rfl⟩)

/-- Where all trial variables are in range, only a missing name can be wrong. -/
theorem lacks_of_requirements (hb : b.WellFormed) (hr : b.InRange) {e : BlockError}
    (h : b.requirements c = .error e) : ∃ e', e = .lookup e' ∧ b.design.Lacks c.target e' := by
  rcases error_of_requirements hb h with hlookup | ⟨hknown, _⟩
  · exact hlookup
  · obtain ⟨φs, hφs⟩ := exists_requirements hb hr hknown
    rw [hφs] at h
    cases h

end Block

end Counterbalance
