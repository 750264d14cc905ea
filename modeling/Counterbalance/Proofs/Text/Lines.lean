import Mathlib.Data.List.Forall2
import Counterbalance.Proofs.Text.Words
import Counterbalance.Text.Line

/-! Ends of lines. A carriage return before a line feed is a blank at the end of the line, so where
lines are trimmed it makes no difference whether they end by line feeds or by both. -/

namespace Counterbalance.Text

variable {cs ds xs ys : List Char} {c : Char}

/-- The text with its lines ended by line feeds alone. -/
def unifyEnds : List Char → List Char
  | '\r' :: '\n' :: cs => '\n' :: unifyEnds cs
  | c :: cs => c :: unifyEnds cs
  | [] => []

theorem lines_newline (cs : List Char) : lines ('\n' :: cs) = [] :: lines cs := by
  rw [lines, List.splitOn_cons_eq_if_modifyHead, if_pos BEq.rfl, lines]

theorem lines_append_newline (hxs : '\n' ∉ xs) (ys : List Char) :
    lines (xs ++ '\n' :: ys) = xs :: lines ys :=
  List.splitOn_append_cons_self_of_not_mem hxs ys

theorem lines_cons_of_ne (hc : c ≠ '\n') (cs : List Char) :
    lines (c :: cs) = (lines cs).modifyHead (c :: ·) := by
  rw [lines, List.splitOn_cons_eq_if_modifyHead, if_neg fun h => hc (eq_of_beq h), lines]

/-- What ends a line besides its line feed is a carriage return, if anything. -/
def MayReturn (xs ys : List Char) : Prop := ys = xs ∨ ys = xs ++ ['\r']

theorem MayReturn.refl (xs : List Char) : MayReturn xs xs := .inl rfl

theorem MayReturn.cons (c : Char) (h : MayReturn xs ys) : MayReturn (c :: xs) (c :: ys) := by
  obtain rfl | rfl := h
  · exact .refl _
  · exact .inr rfl

theorem MayReturn.trim_eq (h : MayReturn xs ys) : trim ys = trim xs := by
  obtain rfl | rfl := h
  · rfl
  · exact trim_append_blank (by decide)

/-- A text has the lines that it has with line feeds alone, up to the carriage returns. -/
theorem forall₂_lines_unifyEnds (cs : List Char) :
    List.Forall₂ MayReturn (lines (unifyEnds cs)) (lines cs) := by
  fun_induction unifyEnds cs with
  | case1 cs ih =>
    rw [lines_newline, show '\r' :: '\n' :: cs = ['\r'] ++ '\n' :: cs from rfl,
      lines_append_newline (by decide)]
    exact .cons (.inr rfl) ih
  | case2 c cs _ ih =>
    by_cases hc : c = '\n'
    · rw [hc, lines_newline, lines_newline]
      exact .cons (.refl _) ih
    · -- the character goes before the first line, which may end with a carriage return or not
      rw [lines_cons_of_ne hc, lines_cons_of_ne hc]
      generalize lines (unifyEnds cs) = xss, lines cs = yss at ih ⊢
      cases ih with
      | nil => exact .nil
      | cons hhead htail => exact .cons (hhead.cons c) htail
  | case3 => exact .cons (.refl _) .nil

/-- Texts that differ in the ends of lines only have the same lines, trimmed. -/
theorem map_trim_lines (h : unifyEnds cs = unifyEnds ds) :
    (lines cs).map trim = (lines ds).map trim := by
  have htrim : ∀ es, (lines (unifyEnds es)).map trim = (lines es).map trim := by
    intro es
    rw [← List.forall₂_eq_eq_eq, List.forall₂_map_left_iff, List.forall₂_map_right_iff]
    exact (forall₂_lines_unifyEnds es).imp fun _ _ hmay => hmay.trim_eq.symm
  rw [← htrim cs, h, htrim ds]

end Counterbalance.Text
