import Counterbalance.Proofs.Block.Accepted

/-! When factors apply, by equations that say of each factor and trial what the factor's arguments
must have where a window reads them. The equations run along the arguments, so that they have one
solution, which knows no number of trials. The table of a block is this solution, as far as the
block goes. -/

namespace Counterbalance

namespace Design

variable {d : Design} {value value' : Nat → Nat → Prop} {f t : Nat}

/-- Factor `f` has a value in trial `t`, where `value` tells in which trials its arguments have
one. -/
inductive HasValue (d : Design) (value : Nat → Nat → Prop) (f t : Nat) : Prop
  | simple : (d.factorAt f).derivedLevels = [] → HasValue d value f t
  /-- All windows have one width and stride, they can end at `t`, and every argument has a value in
  the trial that it is read in. -/
  | derived {width stride : Nat} : (d.factorAt f).derivedLevels ≠ [] →
      (∀ p ∈ (d.factorAt f).derivedLevels, p.2.window.width = width ∧ p.2.window.stride = stride) →
      width - 1 ≤ t → (t - (width - 1)) % stride = 0 →
      (∀ l level (i : Nat) argument, (l, level) ∈ (d.factorAt f).derivedLevels →
        level.arguments[i]? = some argument → ∃ a, d.index? argument = some a ∧
          value a (if width = 1 then t else t - (width - 1) + i)) → HasValue d value f t

/-- What `value` says of a factor is what it makes of the factor's arguments. -/
def Solves (d : Design) (value : Nat → Nat → Prop) : Prop :=
  ∀ f < d.length, ∀ t, value f t ↔ d.HasValue value f t

/-- In terms of the window that the derived levels of a factor share. -/
theorem hasValue_derived_iff (hd : d.Faultless) {w : Window}
    (hw : (d.factorAt f).window? = some w) :
    d.HasValue value f t ↔ w.firstTrial ≤ t ∧ (t - w.firstTrial) % w.stride = 0 ∧
      ∀ l level (i : Nat) argument, (l, level) ∈ (d.factorAt f).derivedLevels →
        level.arguments[i]? = some argument →
        ∃ a, d.index? argument = some a ∧ value a (w.readTrial t i) := by
  obtain ⟨first, hfirst, _⟩ := Factor.window?_eq_some_iff.mp hw
  have hfits := hd.fitsAt (lt_of_window? hw)
  constructor
  · intro h
    cases h with
    | simple hnil =>
      rw [hnil] at hfirst
      cases hfirst
    | derived _ hsame hend hstride hargs =>
      obtain ⟨rfl, rfl⟩ := hsame _ hfirst
      rw [(hfits.window w hw _ hfirst).1] at hend hstride hargs
      exact ⟨hend, hstride, hargs⟩
  · intro h
    obtain ⟨hend, hstride, hargs⟩ := h
    refine .derived (List.ne_nil_of_mem hfirst) (fun p hp => ?_) hend hstride hargs
    rw [(hfits.window w hw p hp).1]
    exact ⟨rfl, rfl⟩

/-- Only what the arguments have up to trial `t` matters. -/
theorem hasValue_congr (hd : d.Faultless) (hf : f < d.length)
    (h : ∀ a, d.Reads f a → ∀ u ≤ t, value a u ↔ value' a u) :
    d.HasValue value f t ↔ d.HasValue value' f t := by
  cases hw : (d.factorAt f).window? with
  | none =>
    have hsimple := (hd.fitsAt hf).simple hw
    exact iff_of_true (.simple hsimple) (.simple hsimple)
  | some w =>
    rw [hasValue_derived_iff hd hw, hasValue_derived_iff hd hw]
    refine and_congr_right fun hend => and_congr_right fun _ => ?_
    refine forall₂_congr fun l level => forall₂_congr fun i argument =>
      forall₂_congr fun hl hi => ?_
    refine exists_congr fun a => and_congr_right fun ha => ?_
    exact h a (reads_of_argument hl (List.mem_of_getElem? hi) ha) _
      ((hd.admits hw hl).readTrial_le (List.getElem?_eq_some_iff.mp hi).1 hend)

/-- The equations have a solution, … -/
theorem solves_applies (hd : d.Faultless) : d.Solves d.Applies := by
  intro f hf t
  cases hw : (d.factorAt f).window? with
  | none => exact iff_of_true (.simple hw) (.simple ((hd.fitsAt hf).simple hw))
  | some w => rw [applies_derived_iff hw, hasValue_derived_iff hd hw]

/-- … and no other, by induction along the arguments. -/
theorem Solves.iff_applies (h : d.Solves value) (hd : d.Faultless) {order : List Nat}
    (hord : d.Ordered order) : ∀ f ∈ order, ∀ t, value f t ↔ d.Applies f t := by
  refine hord.induct fun f hf ih t => ?_
  rw [h f hf t, solves_applies hd f hf t]
  exact hasValue_congr hd hf fun a ha u _ => ih a ha u

end Design

namespace Block

variable {b : Block}

/-- Factors apply in a block as the equations of its design say. -/
structure AppliesByEquations (b : Block) : Prop where
  iff_hasValue : ∀ f < b.design.length, ∀ t < b.trials,
    b.applies f t = true ↔ b.design.HasValue (fun a u => b.applies a u = true) f t
  eq_false : ∀ f t, b.trials ≤ t → b.applies f t = false
  exists_solution : ∃ value, b.design.Solves value
  iff_solution : ∀ value, b.design.Solves value → ∀ f < b.design.length, ∀ t < b.trials,
    b.applies f t = true ↔ value f t
  /-- The number of trials makes no difference. -/
  eq_of_design : ∀ b' : Block, b'.Accepted → b'.design = b.design →
    ∀ f t, t < b.trials → t < b'.trials → b'.applies f t = b.applies f t
  /-- Windows read no trial before the first or after the one that they end at, and none in which
  the argument has no value. -/
  reads : ∀ f t l level (i : Nat) argument, b.applies f t = true →
    (l, level) ∈ (b.design.factorAt f).derivedLevels → level.arguments[i]? = some argument →
    ∃ a, ∃ u ≤ t, b.design.index? argument = some a ∧ b.applies a u = true ∧
      (u : Int) = if level.window.width = 1 then (t : Int) else t - (level.window.width - 1) + i

/-- Where a derived factor applies, its window reads values, in the trials that the window's width
says. -/
theorem WellFormed.exists_read (hb : b.WellFormed) {f t l i : Nat} {level : DerivedLevel}
    {argument : String} (happ : b.applies f t = true)
    (hl : (l, level) ∈ (b.design.factorAt f).derivedLevels)
    (hi : level.arguments[i]? = some argument) :
    ∃ a, ∃ u ≤ t, b.design.index? argument = some a ∧ b.applies a u = true ∧
      (u : Int) =
        if level.window.width = 1 then (t : Int) else t - (level.window.width - 1) + i := by
  have hw := hb.faultless.window?_eq hl
  have hadmits := hb.faultless.admits hw hl
  obtain ⟨a, ha, happa⟩ := hb.applies_argument hw hl happ hi
  have hend := hb.firstTrial_le hw happ
  exact ⟨a, _, hadmits.readTrial_le (List.getElem?_eq_some_iff.mp hi).1 hend, ha, happa,
    hadmits.cast_readTrial hend⟩

/-- **Factors apply as the equations say**, whatever the number of trials. -/
theorem applies_by_equations (hb : b.Accepted) : b.AppliesByEquations := by
  have hwf := hb.wellFormed
  have hsolution : ∀ value, b.design.Solves value → ∀ f < b.design.length, ∀ t < b.trials,
      b.applies f t = true ↔ value f t := by
    intro value hvalue f hf t ht
    rw [hvalue.iff_applies hwf.faultless hwf.ordered f (hwf.mem_order f hf), hwf.applies_iff]
    simp only [hf, ht, true_and]
  have hsolves := Design.solves_applies hwf.faultless
  refine ⟨fun f hf t ht => ?_, fun f t ht => ?_, ⟨_, hsolves⟩, hsolution,
    fun b' hb' hd f t ht ht' => ?_,
    fun f t l level i argument happ hl hi => hwf.exists_read happ hl hi⟩
  · rw [hsolution _ hsolves f hf t ht, hsolves f hf t]
    refine Design.hasValue_congr hwf.faultless hf fun a ha u hu =>
      (hsolution _ hsolves a ?_ u ?_).symm
    · obtain ⟨_, _, hindex⟩ := ha
      exact (Design.factorAt_of_index? hindex).1
    · exact Nat.lt_of_le_of_lt hu ht
  · exact Bool.eq_false_iff.mpr fun happ => Nat.not_lt.mpr ht (hwf.applies_iff.mp happ).2.1
  · rw [Bool.eq_iff_iff, hb'.wellFormed.applies_iff, hwf.applies_iff, hd]
    simp only [ht, ht', true_and]

end Block

/-- A colour, whether it repeats in every second trial, and whether this repetition repeats: windows
over windows with different widths and strides. -/
def Design.nested : Design :=
  [⟨"streak", [.derived ⟨"yes", .sliding 3 1, .allEqual 3, ["repeats", "color", "repeats"]⟩]⟩,
    ⟨"color", [.simple "red", .simple "green"]⟩,
    ⟨"repeats", [.derived ⟨"yes", .sliding 2 2, .equal, ["color", "color"]⟩,
      .derived ⟨"no", .sliding 2 2, .notEqual, ["color", "color"]⟩]⟩]

/-- Streaks begin in the fourth trial, as two repetitions are needed, and a block of six trials has
another one; the first four trials are the same in both blocks. -/
theorem Block.applies_by_equations_nested :
    ∃ b b', ofTrials .nested ["color"] 4 [] = .ok b ∧
      fullyCrossed .nested ["streak", "repeats"] [] = .ok b' ∧
      b.applyingTrials 0 = [3] ∧ b'.applyingTrials 0 = [3, 5] ∧
      (∀ f, ∀ t < 4, b'.applies f t = b.applies f t) ∧ (∀ f, b.applies f 5 = false) ∧
      ∃ a, ∃ u ≤ 3, Design.index? .nested "repeats" = some a ∧ b.applies a u = true ∧
        (u : Int) = 3 - (3 - 1) + 0 := by
  have hfour : (ofTrials .nested ["color"] 4 []).map (fun b =>
      (b.trials, b.applyingTrials 0, b.applies 0 3)) = .ok (4, [3], true) := by
    decide +kernel
  have hsix : (fullyCrossed .nested ["streak", "repeats"] []).map
      (fun b => (b.trials, b.applyingTrials 0)) = .ok (6, [3, 5]) := by
    decide +kernel
  obtain ⟨b, hb, hfour⟩ := Outcome.map_eq_ok.mp hfour
  obtain ⟨b', hb', hsix⟩ := Outcome.map_eq_ok.mp hsix
  simp only [Prod.mk.injEq] at hfour hsix
  obtain ⟨htrials, happlying, happ⟩ := hfour
  have hd : b.design = .nested := design_of_ofTrials hb
  have h := applies_by_equations ⟨_, _, _, .inl ⟨_, hb⟩⟩
  refine ⟨b, b', hb, hb', happlying, hsix.2,
    fun f t ht => ?_, fun f => h.eq_false f 5 (by omega), ?_⟩
  · have hsame : b'.design = b.design := by rw [hd, design_of_fullyCrossed hb']
    exact h.eq_of_design b' ⟨_, _, _, .inr hb'⟩ hsame f t (by omega) (by omega)
  · obtain ⟨a, u, hu, ha, happa, hread⟩ := h.reads 0 3 0
      ⟨"yes", .sliding 3 1, .allEqual 3, ["repeats", "color", "repeats"]⟩ 0 "repeats" happ
      (hd ▸ List.mem_cons_self) rfl
    exact ⟨a, u, hu, hd ▸ ha, happa, hread⟩

end Counterbalance
