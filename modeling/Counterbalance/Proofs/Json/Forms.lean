import Counterbalance.Design.Json
import Counterbalance.Proofs.Json.Reading
import Counterbalance.Proofs.Logic.Literal

/-! Values read back from their JSON text. A form is a value of JSON with numbers that are integers,
from which the reader of a type takes the value it was made of. Forms are built from forms: a record
from those of its fields, a variant from that of its payload. The compact text of a form is read as
the value, so constraints, targets, windows, verdicts and literals come back from their texts as
long as their numbers fit the words they are kept in. -/

namespace Counterbalance

namespace Json

variable {α : Type}

/-- The value of a type that a text is read as. -/
def readAs (ofJson? : Json → Option α) (text : String) : Option α := (ofText? text).bind ofJson?

/-- From the form the reader takes the value. -/
structure IsForm (ofJson? : Json → Option α) (j : Json) (x : α) : Prop where
  plain : j.Plain
  read : ofJson? j = some x

theorem IsForm.readAs_compact {ofJson? : Json → Option α} {j : Json} {x : α}
    (h : IsForm ofJson? j x) : readAs ofJson? (compact j) = some x := by
  rw [readAs, ofText?_compact h.plain]
  exact h.read

/-! ## Integers and texts -/

theorem int?_ofInt (i : Int) : int? (ofInt i) = some i := by
  rw [ofInt, int?]
  · exact Text.readInt?_decimal i
  · intro hminus
    -- minus zero would be read as zero, whose decimal has no sign
    have hread := Text.readInt?_decimal i
    rw [hminus] at hread
    obtain rfl : 0 = i := Option.some.inj hread
    exact absurd hminus (by decide)

theorem isForm_nat {n : Nat} (hn : n < words64) : IsForm nat? (ofNat n) n := by
  refine ⟨.int n, ?_⟩
  rw [nat?, ofNat, int?_ofInt]
  exact if_pos hn

theorem isForm_int32 {i : Int} (hi : Text.InInt32 i) : IsForm int32? (ofInt i) i := by
  refine ⟨.int i, ?_⟩
  rw [int32?, int?_ofInt]
  exact Option.filter_some_pos (decide_eq_true hi)

theorem isForm_text (t : String) : IsForm string? (ofString t) t := by
  refine ⟨.text t, ?_⟩
  show (chars? (symbols t)).map String.ofList = some t
  rw [chars?_symbols, Option.map_some, String.ofList_toList]

/-! ## Lists and records -/

variable {β γ : Type}

theorem named?_members (fields : List (String × Json)) : named? (members fields) = some fields := by
  have hname : ∀ f ∈ fields, (chars? (symbols f.1)).map (fun name => (String.ofList name, f.2)) =
      some f := by
    intro f _
    rw [chars?_symbols, Option.map_some, String.ofList_toList]
  exact (Lists.mapM_map_eq_some hname).trans (congrArg some (List.map_id fields))

theorem field?_of_mem {fields : List (String × Json)} (hnodup : (fields.map Prod.fst).Nodup)
    {f : String × Json} (hf : f ∈ fields) : field? fields f.1 = some (some f.2) := by
  have hfilter : fields.filter (·.1 = f.1) = [f] := by
    induction fields with
    | nil => cases hf
    | cons g fields ih =>
      obtain ⟨hg, hnodup⟩ := List.nodup_cons.mp hnodup
      rcases List.mem_cons.mp hf with rfl | hf
      · have hrest : fields.filter (·.1 = f.1) = [] := by
          refine List.filter_eq_nil_iff.mpr fun g hmem heq => hg ?_
          exact of_decide_eq_true heq ▸ List.mem_map_of_mem hmem
        rw [List.filter_cons_of_pos (by simp), hrest]
      · have hne : g.1 ≠ f.1 := fun heq => hg (heq ▸ List.mem_map_of_mem hf)
        rw [List.filter_cons_of_neg (by simpa using hne), ih hnodup hf]
  rw [field?, hfilter]

/-- A record whose names differ is read as the values of its fields. -/
theorem allFields?_record {fields : List (String × Json)} (hnodup : (fields.map Prod.fst).Nodup) :
    allFields? (fields.map Prod.fst) (record fields) = some (fields.map Prod.snd) := by
  have hrecord : record fields = .object (members fields) := rfl
  have hfields : fields? (fields.map Prod.fst) (record fields) =
      some (fields.map fun f => some f.2) := by
    rw [hrecord, fields?, named?_members]
    exact Lists.mapM_map_eq_some fun f hf => field?_of_mem hnodup hf
  rw [allFields?, hfields]
  exact Lists.mapM_map_eq_some fun f _ => rfl

theorem variant?_variant (name : String) (payload : Json) :
    variant? (variant name payload) = some (name, some payload) := by
  rw [variant, record, List.map_singleton, variant?, chars?_symbols, Option.map_some,
    String.ofList_toList]

theorem variant?_ofString (name : String) : variant? (ofString name) = some (name, none) := by
  rw [ofString, variant?, chars?_symbols, Option.map_some, String.ofList_toList]

/-! ### Records of two fields -/

variable {a b : String} {x y : Json}

theorem allFields?_pair (h : a ≠ b) (x y : Json) :
    allFields? [a, b] (record [(a, x), (b, y)]) = some [x, y] :=
  allFields?_record (by simpa using h)

theorem plain_pair (hx : x.Plain) (hy : y.Plain) : (record [(a, x), (b, y)]).Plain :=
  .object (List.forall_mem_cons.mpr ⟨hx, List.forall_mem_singleton.mpr hy⟩)

theorem plain_variant {name : String} (hx : x.Plain) : (variant name x).Plain :=
  .object (List.forall_mem_singleton.mpr hx)

end Json

/-! ## Designs -/

/-- Width and stride fit in 64 bits. -/
def Window.Fits : Window → Prop
  | .sliding width stride => width < Json.words64 ∧ stride < Json.words64
  | _ => True

theorem Window.isForm {w : Window} (h : w.Fits) : Json.IsForm ofJson? w.toJson w := by
  cases w with
  | withinTrial => exact ⟨.text _, by rw [toJson, ofJson?, Json.variant?_ofString]; rfl⟩
  | transition => exact ⟨.text _, by rw [toJson, ofJson?, Json.variant?_ofString]; rfl⟩
  | sliding width stride =>
    obtain ⟨hwidth, hstride⟩ := h
    have hwidth := Json.isForm_nat hwidth
    have hstride := Json.isForm_nat hstride
    have hnames : "width" ≠ "stride" := by decide
    refine ⟨Json.plain_variant (Json.plain_pair hwidth.plain hstride.plain), ?_⟩
    rw [toJson, ofJson?, Json.variant?_variant]
    simp only [bind, Option.bind, Json.allFields?_pair hnames, hwidth.read, hstride.read]

theorem isForm_levelRecord (f l : String) : Json.IsForm levelRecord? (levelRecord f l) (f, l) := by
  have hf := Json.isForm_text f
  have hl := Json.isForm_text l
  have hnames : "factor" ≠ "level" := by decide
  refine ⟨Json.plain_pair hf.plain hl.plain, ?_⟩
  rw [levelRecord, levelRecord?]
  simp only [bind, Option.bind, Json.allFields?_pair hnames, hf.read, hl.read]

theorem Target.isForm (t : Target) : Json.IsForm ofJson? t.toJson t := by
  cases t with
  | level f l =>
    have hrecord := isForm_levelRecord f l
    refine ⟨Json.plain_variant hrecord.plain, ?_⟩
    rw [toJson, ofJson?, Json.variant?_variant]
    simp only [bind, Option.bind, hrecord.read, Option.map_some]
  | factor f =>
    have hf := Json.isForm_text f
    refine ⟨Json.plain_variant hf.plain, ?_⟩
    rw [toJson, ofJson?, Json.variant?_variant]
    simp only [bind, Option.bind, hf.read, Option.map_some]

/-- The bound on runs fits in 64 bits. -/
def Constraint.Fits : Constraint → Prop
  | .atMostInARow k _ => k < Json.words64
  | _ => True

theorem Constraint.isForm {c : Constraint} (h : c.Fits) : Json.IsForm ofJson? c.toJson c := by
  cases c with
  | atMostInARow k target =>
    have hk : Json.IsForm Json.nat? (Json.ofNat k) k := Json.isForm_nat h
    have htarget := target.isForm
    have hnames : "k" ≠ "target" := by decide
    refine ⟨Json.plain_variant (Json.plain_pair hk.plain htarget.plain), ?_⟩
    rw [toJson, ofJson?, Json.variant?_variant]
    simp only [bind, Option.bind, Json.allFields?_pair hnames, hk.read, htarget.read]
  | exclude f l =>
    have hrecord := isForm_levelRecord f l
    refine ⟨Json.plain_variant hrecord.plain, ?_⟩
    rw [toJson, ofJson?, Json.variant?_variant]
    simp only [bind, Option.bind, hrecord.read, Option.map_some]

/-! ## Verdicts and literals -/

/-- The entries fit in 32 bits with a sign. -/
def Verdict.Fits : Verdict → Prop
  | .satisfiable entries => ∀ x ∈ entries, Text.InInt32 x
  | .unsatisfiable => True

theorem Verdict.isForm {v : Verdict} (h : v.Fits) : Json.IsForm ofJson? v.toJson v := by
  cases v with
  | satisfiable entries =>
    have hentries : (entries.map Json.ofInt).mapM Json.int32? = some entries :=
      (Lists.mapM_map_eq_some fun x hx => (Json.isForm_int32 (h x hx)).read).trans
        (congrArg some (List.map_id entries))
    have hplain : ∀ j ∈ entries.map Json.ofInt, j.Plain := List.forall_mem_map.mpr fun x _ => .int x
    refine ⟨Json.plain_variant (.array hplain), ?_⟩
    rw [toJson, ofJson?, Json.variant?_variant]
    simp only [bind, Option.bind, Json.array?, hentries]
  | unsatisfiable => exact ⟨.text _, by rw [toJson, ofJson?, Json.variant?_ofString]; rfl⟩

/-- A literal is read from its number, which is not zero and fits in 32 bits. -/
theorem Literal.ofJson?_eq_some {j : Json} {l : Literal} :
    Literal.ofJson? j = some l ↔ Json.int? j = some l.code ∧ Text.InInt32 l.code := by
  constructor
  · intro h
    obtain ⟨i, hi, h⟩ := ofCode_of_ofJson? h
    obtain ⟨rfl, hrange⟩ := code_of_ofCode h
    exact ⟨hi, hrange⟩
  · rintro ⟨hi, hrange⟩
    have hcode : ofCode l.code = .ok l := by rw [ofCode, dif_neg l.code_ne_zero, if_pos hrange]
    exact Option.bind_eq_some_iff.mpr ⟨l.code, hi, Outcome.toOption_eq_some.mpr hcode⟩

theorem Literal.isForm {l : Literal} (h : Text.InInt32 l.code) : Json.IsForm ofJson? l.toJson l :=
  ⟨.int l.code, ofJson?_eq_some.mpr ⟨Json.int?_ofInt l.code, h⟩⟩

/-- Zero is no literal. -/
theorem Literal.ofJson?_of_zero {j : Json} (h : Json.int? j = some 0) :
    Literal.ofJson? j = none := by
  refine Option.eq_none_iff_forall_ne_some.mpr fun l hl => l.code_ne_zero ?_
  have hcode := (ofJson?_eq_some.mp hl).1
  rw [h] at hcode
  exact (Option.some.inj hcode).symm

/-- **The JSON text of a value is read as the value**, and only numbers other than zero are read as
literals. -/
theorem Json.forms_round_trip :
    (∀ c : Constraint, c.Fits → readAs Constraint.ofJson? (compact c.toJson) = some c) ∧
    (∀ t : Target, readAs Target.ofJson? (compact t.toJson) = some t) ∧
    (∀ w : Window, w.Fits → readAs Window.ofJson? (compact w.toJson) = some w) ∧
    (∀ v : Verdict, v.Fits → readAs Verdict.ofJson? (compact v.toJson) = some v) ∧
    (∀ l : Literal, Text.InInt32 l.code → readAs Literal.ofJson? (compact l.toJson) = some l) ∧
    (∀ text l, readAs Literal.ofJson? text = some l →
      ∃ j, ofText? text = some j ∧ int? j = some l.code ∧ l.code ≠ 0 ∧ Text.InInt32 l.code) ∧
    ∀ text j, ofText? text = some j → int? j = some 0 → readAs Literal.ofJson? text = none := by
  refine ⟨fun c hc => (Constraint.isForm hc).readAs_compact, fun t => t.isForm.readAs_compact,
    fun w hw => (Window.isForm hw).readAs_compact, fun v hv => (Verdict.isForm hv).readAs_compact,
    fun l hl => (Literal.isForm hl).readAs_compact, ?_, ?_⟩
  · intro text l h
    obtain ⟨j, hj, h⟩ := Option.bind_eq_some_iff.mp h
    obtain ⟨hcode, hrange⟩ := Literal.ofJson?_eq_some.mp h
    exact ⟨j, hj, hcode, l.code_ne_zero, hrange⟩
  · intro text j hj hzero
    rw [readAs, hj]
    exact Literal.ofJson?_of_zero hzero

/-- The greatest bound with names that need escapes, the greatest window, the ends of the range, and
zero. -/
theorem Json.forms_round_trip_extremes :
    let c : Constraint := .atMostInARow 18446744073709551615 (.level "\"\\\n" "é😀\x01")
    let w : Window := .sliding 18446744073709551615 0
    let v : Verdict := .satisfiable [-2147483648, 0, 2147483647]
    let l : Literal := ⟨-2147483648, by decide⟩
    readAs Constraint.ofJson? (compact c.toJson) = some c ∧
    readAs Window.ofJson? (compact w.toJson) = some w ∧
      readAs Verdict.ofJson? (compact v.toJson) = some v ∧
      readAs Literal.ofJson? (compact l.toJson) = some l ∧
      (∃ j, ofText? (compact l.toJson) = some j ∧ int? j = some l.code ∧ l.code ≠ 0 ∧
        Text.InInt32 l.code) ∧
      readAs Literal.ofJson? "0" = none := by
  intro c w v l
  obtain ⟨hconstraint, _, hwindow, hverdict, hliteral, hread, hzero⟩ := forms_round_trip
  have hc : c.Fits := show 18446744073709551615 < words64 by decide
  have hw : w.Fits := ⟨by decide, by decide⟩
  have hv : v.Fits := show ∀ x ∈ [-2147483648, 0, 2147483647], Text.InInt32 x by decide
  have hl : Text.InInt32 l.code := show Text.InInt32 (-2147483648) by decide
  exact ⟨hconstraint c hc, hwindow w hw, hverdict v hv, hliteral l hl, hread _ l (hliteral l hl),
    hzero "0" _ rfl rfl⟩

end Counterbalance
