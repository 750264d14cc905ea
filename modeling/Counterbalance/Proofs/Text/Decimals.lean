import Counterbalance.Text.Decimal
import Counterbalance.Proofs.Text.Lines

/-! Decimals as words. A decimal has no blanks and determines its integer. Words with a space after
each are the words of a line, and lines with a line feed after each are the lines of a text, so a
text that is written line by line and word by word determines all of them. -/

namespace Counterbalance.Text

/-! ## Decimals -/

theorem isBlank_of_isDigit {c : Char} (h : c.isDigit = true) : isBlank c = false := by
  rw [Char.isDigit, Bool.and_eq_true, decide_eq_true_eq, decide_eq_true_eq] at h
  have hleast : 48 ≤ c.toNat := UInt32.le_iff_toNat_le.mp h.1
  have hgreatest : c.toNat ≤ 57 := UInt32.le_iff_toNat_le.mp h.2
  simp [isBlank, blankRanges]
  omega

theorem isWord_iff {w : List Char} : IsWord w ↔ (∀ c ∈ w, isBlank c = false) ∧ w ≠ [] := by
  rw [IsWord, cutAtBlank?_eq_none_iff]

theorem minus_or_digit_of_mem_decimal {x : Int} {c : Char} (hc : c ∈ (decimal x).toList) :
    c = '-' ∨ c.isDigit = true := by
  have hdigit : c ∈ Nat.toDigits 10 x.natAbs → c.isDigit = true :=
    Nat.isDigit_of_mem_toDigits (by decide) (by decide)
  rw [decimal] at hc
  split at hc
  · rw [String.toList_append, Nat.toList_repr] at hc
    exact (List.mem_cons.mp hc).imp_right hdigit
  · rw [Nat.toList_repr] at hc
    exact .inr (hdigit hc)

theorem decimal_ne_nil (x : Int) : (decimal x).toList ≠ [] := by
  intro hnil
  have hread := readInt?_decimal x
  rw [hnil] at hread
  cases hread

theorem isWord_decimal (x : Int) : IsWord (decimal x).toList := by
  refine isWord_iff.mpr ⟨fun c hc => ?_, decimal_ne_nil x⟩
  rcases minus_or_digit_of_mem_decimal hc with rfl | hdigit
  · decide
  · exact isBlank_of_isDigit hdigit

theorem readInt32?_decimal {x : Int} (hx : InInt32 x) : readInt32? (decimal x).toList = some x := by
  rw [readInt32?, readInt?_decimal]
  exact Option.filter_some_pos (decide_eq_true hx)

theorem toList_decimal_injective : Function.Injective fun x => (decimal x).toList := by
  intro x y h
  have hread : readInt? (decimal x).toList = readInt? (decimal y).toList := congrArg readInt? h
  rw [readInt?_decimal, readInt?_decimal] at hread
  exact Option.some.inj hread

/-- Numbers of things have no sign. -/
theorem decimal_natCast (n : Nat) : decimal n = Nat.repr n := by
  rw [decimal, if_neg (Int.not_lt.mpr (Int.natCast_nonneg n)), Int.natAbs_natCast]

/-! ## Lines of words -/

/-- Words with a space after each are words of the text. -/
theorem words_flatMap_space {ws : List (List Char)} (hws : ∀ w ∈ ws, IsWord w) (cs : List Char) :
    words (ws.flatMap (· ++ [' ']) ++ cs) = ws ++ words cs := by
  induction ws with
  | nil => rfl
  | cons w ws ih =>
    obtain ⟨hw, hws⟩ := List.forall_mem_cons.mp hws
    obtain ⟨hblank, hne⟩ := isWord_iff.mp hw
    rw [List.flatMap_cons, List.append_assoc, List.append_assoc, List.singleton_append,
      words_append_cons (by decide), words_of_forall_not hblank hne, ih hws]
    rfl

theorem newline_notMem_spaced {ws : List (List Char)} {cs : List Char} (hws : ∀ w ∈ ws, IsWord w)
    (hcs : '\n' ∉ cs) : '\n' ∉ ws.flatMap (· ++ [' ']) ++ cs := by
  rw [List.mem_append, List.mem_flatMap]
  rintro (⟨w, hw, hmem⟩ | hmem)
  · rcases List.mem_append.mp hmem with hmem | hmem
    · exact absurd ((isWord_iff.mp (hws w hw)).1 _ hmem) (by decide)
    · exact absurd hmem (by decide)
  · exact hcs hmem

/-- Lines with a line feed after each are lines of the text, and the last one is empty. -/
theorem lines_flatMap_newline {xss : List (List Char)} (hxss : ∀ xs ∈ xss, '\n' ∉ xs) :
    lines (xss.flatMap (· ++ ['\n'])) = xss ++ [[]] := by
  induction xss with
  | nil => rfl
  | cons xs xss ih =>
    obtain ⟨hxs, hxss⟩ := List.forall_mem_cons.mp hxss
    rw [List.flatMap_cons, List.append_assoc, List.singleton_append,
      lines_append_newline hxs, ih hxss]
    rfl

end Counterbalance.Text
