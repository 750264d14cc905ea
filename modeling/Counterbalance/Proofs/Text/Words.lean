import Mathlib.Data.List.TakeWhile
import Counterbalance.Text.Blank

/-! Words of a text. Blanks around the words make no difference to them, so trimming keeps the
words. A trimmed text is one word, or is cut at its first blank into a word and what has the other
words. -/

namespace Counterbalance.Text

variable {cs xs ys w rest : List Char} {c : Char}

theorem words_nil : words [] = [] := rfl

theorem words_append_cons (hc : isBlank c = true) :
    words (xs ++ c :: ys) = words xs ++ words ys := by
  rw [words, List.splitOnP_append_cons _ _ hc, List.filter_append]
  rfl

theorem words_cons_blank (hc : isBlank c = true) : words (c :: cs) = words cs := by
  rw [← List.nil_append (c :: cs), words_append_cons hc, words_nil, List.nil_append]

/-- A text without blanks is one word. -/
theorem words_of_forall_not (hw : ∀ c ∈ w, isBlank c = false) (hne : w ≠ []) : words w = [w] := by
  rw [words, List.splitOnP_eq_singleton hw]
  exact List.filter_cons_of_pos (decide_eq_true hne)

/-- The characters of the words are all that are not blank. -/
theorem flatten_words (cs : List Char) : (words cs).flatten = cs.filter (!isBlank ·) := by
  have hflatten : ∀ xss : List (List Char), (xss.filter (· ≠ [])).flatten = xss.flatten := by
    intro xss
    induction xss with
    | nil => rfl
    | cons x xss ih => cases x <;> simp_all
  rw [words, hflatten]
  induction cs with
  | nil => rfl
  | cons c cs ih =>
    rw [List.splitOnP_cons_eq_if_modifyHead]
    cases hc : isBlank c with
    | true => simp [hc, ih]
    | false =>
      obtain ⟨x, xss, hx⟩ := List.exists_cons_of_ne_nil (List.splitOnP_ne_nil isBlank cs)
      rw [hx] at ih ⊢
      simp [hc, ← ih]

theorem words_eq_nil_iff : words cs = [] ↔ ∀ c ∈ cs, isBlank c = true := by
  constructor
  · intro h
    have hnone := flatten_words cs
    rw [h] at hnone
    simpa using hnone.symm
  · intro h
    induction cs with
    | nil => rfl
    | cons c cs ih =>
      obtain ⟨hc, hcs⟩ := List.forall_mem_cons.mp h
      rw [words_cons_blank hc, ih hcs]

theorem words_append_blanks (h : ∀ c ∈ ys, isBlank c = true) : words (xs ++ ys) = words xs := by
  cases ys with
  | nil => rw [List.append_nil]
  | cons c ys =>
    obtain ⟨hc, hys⟩ := List.forall_mem_cons.mp h
    rw [words_append_cons hc, words_eq_nil_iff.mpr hys, List.append_nil]

theorem words_dropWhile (cs : List Char) : words (cs.dropWhile isBlank) = words cs := by
  induction cs with
  | nil => rfl
  | cons c cs ih =>
    rw [List.dropWhile_cons]
    split
    · rename_i hc
      rw [ih, words_cons_blank hc]
    · rfl

/-! ## Trimmed texts -/

/-- What trimming takes off are blanks. -/
theorem exists_append_trim (cs : List Char) :
    ∃ ys, cs.dropWhile isBlank = trim cs ++ ys ∧ ∀ c ∈ ys, isBlank c = true := by
  refine ⟨((cs.dropWhile isBlank).reverse.takeWhile isBlank).reverse, ?_, fun c hc => ?_⟩
  · rw [trim, ← List.reverse_append, List.takeWhile_append_dropWhile, List.reverse_reverse]
  · exact List.mem_takeWhile_imp (List.mem_reverse.mp hc)

/-- A blank after the text is taken off with those before it. -/
theorem trim_append_blank (hc : isBlank c = true) : trim (cs ++ [c]) = trim cs := by
  have hdrop : [c].dropWhile isBlank = [] := by
    rw [List.dropWhile_cons_of_pos hc, List.dropWhile_nil]
  unfold trim
  rw [List.dropWhile_append]
  split
  · rename_i hnil
    rw [hdrop, List.isEmpty_iff.mp hnil]
  · rw [List.reverse_append, List.reverse_singleton, List.singleton_append,
      List.dropWhile_cons_of_pos hc]

theorem words_trim (cs : List Char) : words (trim cs) = words cs := by
  obtain ⟨ys, hsplit, hblanks⟩ := exists_append_trim cs
  rw [← words_append_blanks hblanks, ← hsplit, words_dropWhile]

theorem isBlank_of_head?_trim (h : (trim cs).head? = some c) : isBlank c = false := by
  obtain ⟨ys, hsplit, _⟩ := exists_append_trim cs
  have hhead := List.head?_dropWhile_not isBlank cs
  rw [hsplit, List.head?_append, h] at hhead
  exact hhead

theorem isBlank_of_getLast?_trim (h : (trim cs).getLast? = some c) : isBlank c = false := by
  rw [trim, List.getLast?_reverse] at h
  have hhead := List.head?_dropWhile_not isBlank (cs.dropWhile isBlank).reverse
  rwa [h] at hhead

theorem cutAtBlank?_eq_none_iff : cutAtBlank? cs = none ↔ ∀ c ∈ cs, isBlank c = false := by
  unfold cutAtBlank?
  split
  · rename_i h
    simpa using List.dropWhile_eq_nil_iff.mp h
  · rename_i c rest h
    refine iff_of_false nofun fun hall => ?_
    have hnil : cs.dropWhile (!isBlank ·) = [] :=
      List.dropWhile_eq_nil_iff.mpr (by simpa using hall)
    rw [h] at hnil
    cases hnil

/-- A cut text is a word, a blank and the rest. -/
theorem exists_of_cutAtBlank? (h : cutAtBlank? cs = some (w, rest)) :
    ∃ c, isBlank c = true ∧ cs = w ++ c :: rest ∧ ∀ x ∈ w, isBlank x = false := by
  unfold cutAtBlank? at h
  split at h
  · cases h
  · rename_i c rest' hdrop
    obtain ⟨rfl, rfl⟩ := Prod.mk.inj (Option.some.inj h)
    have hhead := List.head?_dropWhile_not (!isBlank ·) cs
    rw [hdrop] at hhead
    refine ⟨c, by simpa using hhead, ?_, fun x hx => by simpa using List.mem_takeWhile_imp hx⟩
    rw [← hdrop, List.takeWhile_append_dropWhile]

/-- A trimmed text that is cut has its first word before the cut and more words after it. -/
theorem words_of_cutAtBlank? (hcut : cutAtBlank? (trim cs) = some (w, rest)) :
    words cs = w :: words rest ∧ (trim cs).head? = w.head? ∧ words rest ≠ [] := by
  obtain ⟨c, hc, hsplit, hw⟩ := exists_of_cutAtBlank? hcut
  have hwne : w ≠ [] := by
    intro hnil
    have hhead : (trim cs).head? = some c := by rw [hsplit, hnil, List.nil_append, List.head?_cons]
    exact Bool.false_ne_true ((isBlank_of_head?_trim hhead).symm.trans hc)
  refine ⟨?_, ?_, fun hnil => ?_⟩
  · rw [← words_trim, hsplit, words_append_cons hc, words_of_forall_not hw hwne,
      List.singleton_append]
  · rw [hsplit, List.head?_append, List.head?_eq_some_head hwne, Option.some_or]
  · -- the last character comes after the cut, and is no blank
    have hne : trim cs ≠ [] := by simp [hsplit]
    have hlast := List.getLast?_eq_some_getLast hne
    have hmem : (trim cs).getLast hne ∈ c :: rest := by
      simp only [hsplit]
      rw [List.getLast_append_of_ne_nil _ (List.cons_ne_nil c rest)]
      exact List.getLast_mem _
    have hblanks : ∀ x ∈ c :: rest, isBlank x = true :=
      List.forall_mem_cons.mpr ⟨hc, words_eq_nil_iff.mp hnil⟩
    exact Bool.false_ne_true ((isBlank_of_getLast?_trim hlast).symm.trans (hblanks _ hmem))

/-- A trimmed text begins with its first word. It ends there, or is cut there and has more words. -/
theorem exists_word_of_trim (hne : trim cs ≠ []) :
    ∃ w ws, words cs = w :: ws ∧ (trim cs).head? = w.head? ∧
      ((cutAtBlank? (trim cs) = none ∧ trim cs = w ∧ ws = []) ∨
        ∃ rest, cutAtBlank? (trim cs) = some (w, rest) ∧ ws = words rest ∧ ws ≠ []) := by
  cases hcut : cutAtBlank? (trim cs) with
  | none =>
    have hwords := words_of_forall_not (cutAtBlank?_eq_none_iff.mp hcut) hne
    exact ⟨_, [], (words_trim cs).symm.trans hwords, rfl, .inl ⟨rfl, rfl, rfl⟩⟩
  | some p =>
    obtain ⟨w, rest⟩ := p
    obtain ⟨hwords, hhead, hmore⟩ := words_of_cutAtBlank? hcut
    exact ⟨w, words rest, hwords, hhead, .inr ⟨rest, rfl, rfl, hmore⟩⟩

/-- The first word of a text is what its trimmed text begins with. -/
theorem trim_of_words {ws : List (List Char)} (hwords : words cs = w :: ws) :
    trim cs ≠ [] ∧ (trim cs).head? = w.head? ∧
      ((cutAtBlank? (trim cs) = none ∧ trim cs = w ∧ ws = []) ∨
        ∃ rest, cutAtBlank? (trim cs) = some (w, rest) ∧ ws = words rest ∧ ws ≠ []) := by
  have hne : trim cs ≠ [] := by
    intro hnil
    rw [← words_trim, hnil] at hwords
    cases hwords
  obtain ⟨u, us, hu, h⟩ := exists_word_of_trim hne
  obtain ⟨rfl, rfl⟩ := List.cons.inj (hu.symm.trans hwords)
  exact ⟨hne, h⟩

/-- The text is a single word. -/
def IsWord (w : List Char) : Prop := cutAtBlank? w = none ∧ w ≠ []

instance (w : List Char) : Decidable (IsWord w) := inferInstanceAs (Decidable (_ ∧ _))

/-- Trimming leaves a single word if the text has no other. -/
theorem trim_eq_iff (hw : IsWord w) : trim cs = w ↔ words cs = [w] := by
  constructor
  · intro htrim
    rw [← words_trim, htrim, words_of_forall_not (cutAtBlank?_eq_none_iff.mp hw.1) hw.2]
  · intro hwords
    obtain ⟨_, _, ⟨_, h, _⟩ | ⟨_, _, _, hmore⟩⟩ := trim_of_words hwords
    · exact h
    · exact absurd rfl hmore

theorem trim_eq_nil_iff : trim cs = [] ↔ words cs = [] := by
  constructor
  · intro htrim
    rw [← words_trim, htrim, words_nil]
  · intro hwords
    by_contra hne
    obtain ⟨w, ws, h, _⟩ := exists_word_of_trim hne
    exact List.cons_ne_nil w ws (h.symm.trans hwords)

end Counterbalance.Text
