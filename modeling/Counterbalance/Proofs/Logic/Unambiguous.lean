import Counterbalance.Proofs.Logic.Literal

/-! The text of a formula determines it. A literal is written as its number, and every other node in
parentheses, as the word for its connective and its arguments with a space before each. A number or
word ends at the first space or closing parenthesis, so whatever follows a formula, its text can be
told apart from what follows. -/

namespace Counterbalance.Formula

variable {f g : Formula} {fs gs : List Formula} {xs ys rs ss : List Char}

/-! ## Layout -/

/-- The word for the connective. -/
def keyword : Formula → List Char
  | .literal _ => []
  | .not _ => "not".toList
  | .and _ => "and".toList
  | .or _ => "or".toList
  | .xor _ _ => "xor".toList
  | .iff _ _ => "iff".toList

def arguments : Formula → List Formula
  | .literal _ => []
  | .not f => [f]
  | .and fs => fs
  | .or fs => fs
  | .xor f g => [f, g]
  | .iff f g => [f, g]

/-- Texts of formulas with a space before each. -/
def spaced (fs : List Formula) : List Char := fs.flatMap fun f => ' ' :: f.text.toList

theorem spaced_cons (f : Formula) (fs : List Formula) :
    spaced (f :: fs) = ' ' :: (f.text.toList ++ spaced fs) := rfl

theorem flatMap_argumentTexts (fs : List Formula) :
    (argumentTexts fs).flatMap String.toList = spaced fs := by
  induction fs with
  | nil => rfl
  | cons f fs ih =>
    rw [argumentTexts, List.flatMap_cons, ih, String.toList_append, spaced_cons]
    rfl

theorem toList_text_append (hf : f.isLiteral = false) (rs : List Char) :
    f.text.toList ++ rs = '(' :: (f.keyword ++ (spaced f.arguments ++ ')' :: rs)) := by
  have hnot : "(not ".toList = '(' :: "not".toList ++ [' '] := by decide +kernel
  have hand : "(and".toList = '(' :: "and".toList := by decide +kernel
  have hor : "(or".toList = '(' :: "or".toList := by decide +kernel
  have hxor : "(xor ".toList = '(' :: "xor".toList ++ [' '] := by decide +kernel
  have hiff : "(iff ".toList = '(' :: "iff".toList ++ [' '] := by decide +kernel
  have hspace : " ".toList = [' '] := rfl
  have hclose : ")".toList = [')'] := rfl
  cases f with
  | literal l => cases hf
  | not f => simp [text, keyword, arguments, spaced, hnot, hclose]
  | and fs => simp [text, keyword, arguments, hand, hclose, flatMap_argumentTexts]
  | or fs => simp [text, keyword, arguments, hor, hclose, flatMap_argumentTexts]
  | xor f g => simp [text, keyword, arguments, spaced, hxor, hspace, hclose]
  | iff f g => simp [text, keyword, arguments, spaced, hiff, hspace, hclose]

/-- Connective and arguments make a node. -/
theorem eq_of_arguments (hf : f.isLiteral = false) (hg : g.isLiteral = false)
    (hkeyword : f.keyword = g.keyword) (harguments : f.arguments = g.arguments) : f = g := by
  cases f <;> cases g <;> simp_all [isLiteral, keyword, arguments]

/-! ## Ends of words -/

/-- Numbers and connectives end at these characters. -/
def isMark (c : Char) : Bool := c = ' ' || c = ')'

/-- What follows does not continue a number or a connective. -/
def Ends (rs : List Char) : Prop := ∀ c ∈ rs.head?, isMark c = true

theorem ends_nil : Ends [] := nofun

theorem ends_cons {c : Char} (hc : isMark c = true) (rs : List Char) : Ends (c :: rs) := by
  rintro _ ⟨⟩
  exact hc

theorem ends_spaced (fs : List Formula) (rs : List Char) : Ends (spaced fs ++ ')' :: rs) := by
  cases fs with
  | nil => exact ends_cons rfl rs
  | cons f fs => exact ends_cons rfl _

theorem takeWhile_append_of_ends (hxs : ∀ c ∈ xs, isMark c = false) (hrs : Ends rs) :
    (xs ++ rs).takeWhile (!isMark ·) = xs := by
  have hnone : rs.takeWhile (!isMark ·) = [] := by
    cases rs with
    | nil => rfl
    | cons c rs => exact List.takeWhile_cons_of_neg (by simp [hrs c rfl])
  rw [List.takeWhile_append_of_pos fun c hc => by simp [hxs c hc], hnone, List.append_nil]

theorem append_inj_of_ends (hxs : ∀ c ∈ xs, isMark c = false) (hys : ∀ c ∈ ys, isMark c = false)
    (hrs : Ends rs) (hss : Ends ss) (h : xs ++ rs = ys ++ ss) : xs = ys ∧ rs = ss := by
  have hword : xs = ys := by
    rw [← takeWhile_append_of_ends hxs hrs, h, takeWhile_append_of_ends hys hss]
  rw [hword] at h
  exact ⟨hword, List.append_cancel_left h⟩

theorem isMark_keyword (f : Formula) : ∀ c ∈ f.keyword, isMark c = false := by
  have hall : f.keyword.all (!isMark ·) = true := by
    cases f <;> simp only [keyword] <;> decide +kernel
  simpa using hall

theorem isMark_decimal (x : Int) : ∀ c ∈ (Text.decimal x).toList, isMark c = false := by
  intro c hc
  rcases Text.minus_or_digit_of_mem_decimal hc with rfl | hdigit
  · decide
  · rw [isMark, Bool.or_eq_false_iff, decide_eq_false_iff_not, decide_eq_false_iff_not]
    constructor <;> rintro rfl <;> exact absurd hdigit (by decide)

/-! ## Reading -/

/-- The formula can be told from a text that begins with its text, whatever follows. -/
def Legible (f : Formula) : Prop :=
  ∀ g rs ss, Ends rs → Ends ss → f.text.toList ++ rs = g.text.toList ++ ss → f = g ∧ rs = ss

/-- A number does not begin as a node does. -/
theorem decimal_append_ne (x : Int) (rs cs : List Char) :
    (Text.decimal x).toList ++ rs ≠ '(' :: cs := by
  intro h
  obtain ⟨c, ds, hdecimal⟩ := List.exists_cons_of_ne_nil (Text.decimal_ne_nil x)
  have hc : c ∈ (Text.decimal x).toList := hdecimal ▸ List.mem_cons_self
  rw [hdecimal] at h
  obtain ⟨rfl, _⟩ := List.cons.inj h
  rcases Text.minus_or_digit_of_mem_decimal hc with hminus | hdigit
  · exact absurd hminus (by decide)
  · exact absurd hdigit (by decide)

theorem legible_literal (l : Literal) : Legible (.literal l) := by
  intro g rs ss hrs hss h
  cases hg : g.isLiteral with
  | false =>
    rw [toList_text_append hg] at h
    exact absurd h (decimal_append_ne l.code rs _)
  | true =>
    cases g with
    | literal m =>
      obtain ⟨hdecimal, hrest⟩ :=
        append_inj_of_ends (isMark_decimal l.code) (isMark_decimal m.code) hrs hss h
      exact ⟨congrArg literal (Literal.toList_text_injective hdecimal), hrest⟩
    | _ => cases hg

/-- Arguments can be told apart if each of them can, up to the closing parenthesis. -/
theorem eq_of_spaced (hfs : ∀ f ∈ fs, Legible f)
    (h : spaced fs ++ ')' :: rs = spaced gs ++ ')' :: ss) : fs = gs ∧ rs = ss := by
  induction fs generalizing gs with
  | nil =>
    cases gs with
    | nil => exact ⟨rfl, (List.cons.inj h).2⟩
    | cons g gs => exact absurd (List.cons.inj h).1 (by decide)
  | cons f fs ih =>
    cases gs with
    | nil => exact absurd (List.cons.inj h).1 (by decide)
    | cons g gs =>
      obtain ⟨hf, hfs⟩ := List.forall_mem_cons.mp hfs
      rw [spaced_cons, spaced_cons, List.cons_append, List.cons_append, List.append_assoc,
        List.append_assoc] at h
      obtain ⟨rfl, hrest⟩ := hf g _ _ (ends_spaced fs rs) (ends_spaced gs ss) (List.cons.inj h).2
      obtain ⟨rfl, heq⟩ := ih hfs hrest
      exact ⟨rfl, heq⟩

theorem legible_node (hf : f.isLiteral = false) (hargs : ∀ a ∈ f.arguments, Legible a) :
    Legible f := by
  intro g rs ss hrs hss h
  rw [toList_text_append hf] at h
  cases hg : g.isLiteral with
  | true =>
    cases g with
    | literal l => exact absurd h.symm (decimal_append_ne l.code ss _)
    | _ => cases hg
  | false =>
    rw [toList_text_append hg] at h
    obtain ⟨hkeyword, hrest⟩ := append_inj_of_ends (isMark_keyword f) (isMark_keyword g)
      (ends_spaced f.arguments rs) (ends_spaced g.arguments ss) (List.cons.inj h).2
    obtain ⟨harguments, hrest⟩ := eq_of_spaced hargs hrest
    exact ⟨eq_of_arguments hf hg hkeyword harguments, hrest⟩

mutual
theorem legible : ∀ f : Formula, Legible f
  | .literal l => legible_literal l
  | .not f => legible_node rfl (List.forall_mem_singleton.mpr (legible f))
  | .and fs => legible_node rfl (forall_legible fs)
  | .or fs => legible_node rfl (forall_legible fs)
  | .xor f g =>
    legible_node rfl
      (List.forall_mem_cons.mpr ⟨legible f, List.forall_mem_singleton.mpr (legible g)⟩)
  | .iff f g =>
    legible_node rfl
      (List.forall_mem_cons.mpr ⟨legible f, List.forall_mem_singleton.mpr (legible g)⟩)

theorem forall_legible : ∀ (fs : List Formula), ∀ f ∈ fs, Legible f
  | [] => nofun
  | f :: fs => List.forall_mem_cons.mpr ⟨legible f, forall_legible fs⟩
end

/-- **Two formulas have the same text exactly if they are the same tree.** -/
theorem text_eq_text_iff (f g : Formula) : f.text = g.text ↔ f = g := by
  constructor
  · intro h
    have htext : f.text.toList ++ [] = g.text.toList ++ [] := by rw [h]
    exact (legible f g [] [] ends_nil ends_nil htext).1
  · rintro rfl
    rfl

end Counterbalance.Formula
