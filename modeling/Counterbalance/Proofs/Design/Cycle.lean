import Mathlib.Data.List.Chain
import Mathlib.Data.List.Perm.Subperm
import Counterbalance.Proofs.Design.Order

/-! Cycles of dependencies. The calls that the walk makes come along a path of factors that read
each other, and the factors off this path are exactly those that it may still enter. So when it
comes to a factor that it can neither take over nor enter, this one is on the path, and the path
from there on is a cycle. -/

namespace Counterbalance.Design

variable {d : Design} {free path order : List Nat} {f : Nat}

/-! ## The calls of the walk -/

/-- What the walk does for one argument of factor `f`, after which it continues with the next
one. -/
def visitArgument (d : Design) (free path : List Nat) (f : Nat) (order : List Nat)
    (p : String × String) : Except DesignError (List Nat) :=
  match d.index? p.2 with
  | none => .error (.unknownArgument (d.factorAt f).name p.1 p.2)
  | some a => d.visit (free.erase f) (path ++ [f]) order a

theorem visit_of_mem (h : f ∈ order) : d.visit free path order f = .ok order := by
  rw [visit, if_pos h]

theorem visit_of_free (h : f ∉ order) (hf : f ∈ free) :
    d.visit free path order f =
      (d.factorAt f).argumentNames.foldlM (d.visitArgument free path f) order >>= fun order =>
        .ok (order ++ [f]) := by
  rw [visit, if_neg h, dif_pos hf]
  rfl

theorem visit_of_active (h : f ∉ order) (hf : f ∉ free) :
    d.visit free path order f = .error (.cyclicDependency (d.cycleNames path f)) := by
  rw [visit, if_neg h, dif_neg hf]

/-- The calls that the walk makes, whatever comes of it: it comes to factor `f` along `path`, when
the factors of `order` are done and those of `free` are not on the path. -/
inductive Reached (d : Design) : List Nat → List Nat → List Nat → Nat → Prop
  | start {order : List Nat} {f : Nat} : f < d.length →
      (List.range f).foldlM (d.visit (List.range d.length) []) [] = .ok order →
      Reached d (List.range d.length) [] order f
  | argument {free path order order' : List Nat} {f a : Nat} {p : String × String}
      {before after : List (String × String)} : Reached d free path order f → f ∉ order → f ∈ free →
      (d.factorAt f).argumentNames = before ++ p :: after →
      before.foldlM (d.visitArgument free path f) order = .ok order' → d.index? p.2 = some a →
      Reached d (free.erase f) (path ++ [f]) order' a

/-- What holds at every call: the path leads to the factor, enters none twice, and has all factors
but the free ones. -/
structure Trail (d : Design) (free path : List Nat) (f : Nat) : Prop where
  lt : f < d.length
  path_lt : ∀ g ∈ path, g < d.length
  chain : (path ++ [f]).IsChain d.Reads
  path_nodup : path.Nodup
  free_nodup : free.Nodup
  mem_free_iff : ∀ g < d.length, g ∈ free ↔ g ∉ path

theorem Trail.start (h : f < d.length) : d.Trail (List.range d.length) [] f where
  lt := h
  path_lt := by simp
  chain := List.isChain_singleton f
  path_nodup := List.nodup_nil
  free_nodup := List.nodup_range
  mem_free_iff := by simp

/-- Entering a factor puts it on the path, which leads on to what the factor reads. -/
theorem Trail.argument {a : Nat} (h : d.Trail free path f) (hf : f ∈ free) (ha : d.Reads f a)
    (hlt : a < d.length) : d.Trail (free.erase f) (path ++ [f]) a where
  lt := hlt
  path_lt := by
    intro g hg
    rcases List.mem_append.mp hg with hg | hg
    · exact h.path_lt g hg
    · exact List.mem_singleton.mp hg ▸ h.lt
  chain := h.chain.append (List.isChain_singleton a) (by simpa using ha)
  path_nodup := by
    have hnew : f ∉ path := (h.mem_free_iff f h.lt).mp hf
    refine List.nodup_append.mpr ⟨h.path_nodup, List.nodup_singleton f, fun g hg g' hg' => ?_⟩
    rintro rfl
    exact hnew (List.mem_singleton.mp hg' ▸ hg)
  free_nodup := h.free_nodup.erase f
  mem_free_iff := by
    intro g hg
    rw [h.free_nodup.mem_erase_iff, h.mem_free_iff g hg]
    simp [and_comm]

theorem Reached.trail (h : d.Reached free path order f) : d.Trail free path f := by
  induction h with
  | start hlt _ => exact .start hlt
  | argument _ _ hf hargs _ ha ih =>
    exact ih.argument hf ⟨_, by simp [hargs], ha⟩ (factorAt_of_index? ha).1

/-- A path is never longer than there are factors, so the walk cannot go on forever. -/
theorem Reached.length_path_le (h : d.Reached free path order f) : path.length ≤ d.length := by
  have hsub : path ⊆ List.range d.length := fun g hg => List.mem_range.mpr (h.trail.path_lt g hg)
  simpa using (h.trail.path_nodup.subperm hsub).length_le

/-- A factor that is neither done nor free is on the path. -/
theorem Reached.mem_path (h : d.Reached free path order f) (hf : f ∉ free) : f ∈ path :=
  Decidable.by_contra fun hpath => hf ((h.trail.mem_free_iff f h.trail.lt).mpr hpath)

theorem Reached.exists_idxOf? (h : d.Reached free path order f) (hf : f ∉ free) :
    ∃ i, path.idxOf? f = some i :=
  Option.isSome_iff_exists.mp (List.isSome_idxOf?.mpr (h.mem_path hf))

/-! ## Where errors come from -/

/-- The error is made at a call of the walk: it has come back to a factor on its path, or the factor
that it has entered has an argument that names none. -/
inductive Raised (d : Design) : DesignError → Prop
  | cycle {free path order : List Nat} {f : Nat} : d.Reached free path order f → f ∉ order →
      f ∉ free → Raised d (.cyclicDependency (d.cycleNames path f))
  | unknown {f : Nat} {p : String × String} : p ∈ (d.factorAt f).argumentNames →
      d.index? p.2 = none → Raised d (.unknownArgument (d.factorAt f).name p.1 p.2)

/-- An error of a call is made there or at a call below it. -/
theorem Reached.raised {free path order : List Nat} {f : Nat} {e : DesignError}
    (h : d.Reached free path order f) (he : d.visit free path order f = .error e) : d.Raised e := by
  by_cases horder : f ∈ order
  · rw [visit_of_mem horder] at he
    cases he
  by_cases hfree : f ∈ free
  · rw [visit_of_free horder hfree] at he
    rcases Outcome.bind_eq_error.mp he with he | ⟨_, _, he⟩
    · obtain ⟨before, p, after, order', hargs, hbefore, he⟩ :=
        Outcome.exists_split_of_foldlM_error he
      simp only [visitArgument] at he
      split at he
      · rename_i hnone
        exact Except.error.inj he ▸ .unknown (by simp [hargs]) hnone
      · rename_i a ha
        exact (h.argument horder hfree hargs hbefore ha).raised he
    · cases he
  · rw [visit_of_active horder hfree] at he
    exact Except.error.inj he ▸ .cycle h horder hfree
termination_by free.length
decreasing_by exact Lists.length_erase_lt hfree

theorem raised_of_dependencyOrder {e : DesignError} (h : d.dependencyOrder = .error e) :
    d.Raised e := by
  obtain ⟨before, f, after, order, hsplit, hbefore, he⟩ := Outcome.exists_split_of_foldlM_error h
  obtain ⟨hlt, rfl⟩ := Lists.range_eq_append_cons hsplit
  exact (Reached.start hlt hbefore).raised he

/-! ## Cycles -/

/-- Factors that each read the next one, from a factor back to itself and through no factor
twice. -/
structure Cycle (d : Design) (cycle : List Nat) : Prop where
  two_le : 2 ≤ cycle.length
  closed : cycle.head? = cycle.getLast?
  distinct : cycle.dropLast.Nodup
  lt : ∀ f ∈ cycle, f < d.length
  reads : cycle.IsChain d.Reads

/-- The part of the path from a factor on is a cycle if the walk comes to this factor again. -/
theorem Trail.cycle (h : d.Trail free path f) {i : Nat} (hi : path.idxOf? f = some i) :
    d.Cycle (path.drop i ++ [f]) := by
  obtain ⟨hlt, hget, _⟩ := List.idxOf?_eq_some_iff.mp hi
  have hsuffix : path.drop i ++ [f] <:+ path ++ [f] := by
    rw [← List.drop_append_of_le_length (Nat.le_of_lt hlt)]
    exact List.drop_suffix _ _
  refine ⟨?_, ?_, ?_, ?_, h.chain.suffix hsuffix⟩
  · rw [List.length_append, List.length_drop, List.length_singleton]
    omega
  · rw [List.head?_append, List.head?_drop, List.getElem?_eq_getElem hlt, hget]
    simp
  · rw [List.dropLast_concat]
    exact h.path_nodup.sublist (List.drop_sublist _ _)
  · intro g hg
    rcases List.mem_append.mp hg with hg | hg
    · exact h.path_lt g (List.mem_of_mem_drop hg)
    · exact List.mem_singleton.mp hg ▸ h.lt

/-- What a cycle lists: a level of each factor has the next factor's name as an argument. -/
theorem Cycle.exists_argument {cycle : List Nat} (h : d.Cycle cycle) {i f g : Nat}
    (hf : cycle[i]? = some f) (hg : cycle[i + 1]? = some g) :
    ∃ l level, (l, level) ∈ (d.factorAt f).derivedLevels ∧
      (d.factorAt g).name ∈ level.arguments := by
  obtain ⟨hlt, rfl⟩ := List.getElem?_eq_some_iff.mp hg
  obtain ⟨_, rfl⟩ := List.getElem?_eq_some_iff.mp hf
  obtain ⟨p, hp, hindex⟩ := List.isChain_iff_getElem.mp h.reads i hlt
  obtain ⟨l, level, hl, ha, _⟩ := mem_argumentNames.mp hp
  exact ⟨l, level, hl, (factorAt_of_index? hindex).2 ▸ ha⟩

/-- **Reported cycles are genuine.** The names of a reported cycle are those of factors that each
read the next one, back to the first and through no factor twice; and wherever the walk looks for a
factor on its path, it is there. -/
theorem cyclicDependency_genuine (d : Design) :
    (∀ names, d.dependencyOrder = .error (.cyclicDependency names) →
      ∃ cycle, names = cycle.map (fun f => (d.factorAt f).name) ∧ d.Cycle cycle ∧
        ∀ (i : Nat) f g, cycle[i]? = some f → cycle[i + 1]? = some g →
          ∃ l level, (l, level) ∈ (d.factorAt f).derivedLevels ∧
            (d.factorAt g).name ∈ level.arguments) ∧
    ∀ free path order f, d.Reached free path order f → f ∉ order → f ∉ free →
      ∃ i, path.idxOf? f = some i := by
  refine ⟨fun names hnames => ?_, fun _ _ _ _ h _ hf => h.exists_idxOf? hf⟩
  cases raised_of_dependencyOrder hnames with
  | @cycle free path order f h horder hf =>
    obtain ⟨i, hi⟩ := h.exists_idxOf? hf
    have hcycle := h.trail.cycle hi
    refine ⟨path.drop i ++ [f], ?_, hcycle, fun i f g => hcycle.exists_argument⟩
    rw [cycleNames, hi, Option.getD_some]

/-- Two factors that are derived from each other, and from a colour that is declared before them. -/
def tangled : Design :=
  [⟨"color", [.simple "red", .simple "green"]⟩,
    ⟨"a", [.derived ⟨"x", .withinTrial, .equal, ["color", "b"]⟩]⟩,
    ⟨"b", [.derived ⟨"y", .withinTrial, .equal, ["a", "color"]⟩]⟩]

/-- The walk comes back from the second of the two factors to the first one. -/
theorem reached_tangled : tangled.Reached [0] [1, 2] [0] 1 := by
  have hfirst : tangled.Reached [0, 1, 2] [] [0] 1 := .start (by decide) (by decide +kernel)
  have hargs : (tangled.factorAt 1).argumentNames = [("x", "color")] ++ ("x", "b") :: [] := rfl
  have hargs' : (tangled.factorAt 2).argumentNames = [] ++ ("y", "a") :: [("y", "color")] := rfl
  have hsecond : tangled.Reached [0, 2] [1] [0] 2 :=
    hfirst.argument (by decide) (by decide) hargs (by decide +kernel) (by decide)
  exact hsecond.argument (by decide) (by decide) hargs' rfl (by decide)

/-- The cycle is cut out of the path at the factor that the walk comes back to. -/
theorem cyclicDependency_genuine_tangled :
    tangled.dependencyOrder = .error (.cyclicDependency ["a", "b", "a"]) ∧
    (∃ cycle, ["a", "b", "a"] = cycle.map (fun f => (tangled.factorAt f).name) ∧
      tangled.Cycle cycle) ∧
    tangled.Reached [0] [1, 2] [0] 1 ∧ ∃ i, [1, 2].idxOf? 1 = some i := by
  have hrun : tangled.dependencyOrder = .error (.cyclicDependency ["a", "b", "a"]) := by
    decide +kernel
  obtain ⟨hgenuine, hfound⟩ := cyclicDependency_genuine tangled
  obtain ⟨cycle, hnames, hcycle, _⟩ := hgenuine _ hrun
  exact ⟨hrun, ⟨cycle, hnames, hcycle⟩, reached_tangled,
    hfound _ _ _ _ reached_tangled (by decide) (by decide)⟩

end Counterbalance.Design
