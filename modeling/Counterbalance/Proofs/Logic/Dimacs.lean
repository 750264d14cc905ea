import Counterbalance.Logic.Dimacs
import Counterbalance.Proofs.Logic.Literal

/-! The DIMACS text of a clause list. What is sent to a sink in pieces arrives as the whole text, or
not at all if the sink is too small. The text has one line for the header and one for each clause,
and the words of these lines are the numbers that were written, so no two problems have the same
text. -/

namespace Counterbalance

/-! ## Pieces -/

theorem Sink.put_unbounded (written piece : String) :
    put ⟨none, written⟩ piece = .ok ⟨none, written ++ piece⟩ := rfl

theorem Sink.put_bounded (n : Nat) (written piece : String) :
    put ⟨some n, written⟩ piece =
      if (written ++ piece).utf8ByteSize ≤ n then .ok ⟨some n, written ++ piece⟩
        else .error .full := rfl

/-- A sink takes two pieces exactly if it takes them as one: what is full after the first stays
full. -/
theorem Sink.put_append (s : Sink) (a b : String) :
    s.put (a ++ b) = s.put a >>= fun t => t.put b := by
  obtain ⟨capacity, written⟩ := s
  cases capacity with
  | none =>
    rw [put_unbounded, put_unbounded, ← String.append_assoc]
    rfl
  | some n =>
    rw [put_bounded, put_bounded, ← String.append_assoc]
    by_cases ha : (written ++ a).utf8ByteSize ≤ n
    · rw [if_pos ha]
      exact (put_bounded n (written ++ a) b).symm
    · have hab : ¬ (written ++ a ++ b).utf8ByteSize ≤ n := by
        rw [String.utf8ByteSize_append]
        omega
      rw [if_neg ha, if_neg hab]
      rfl

theorem Clause.dimacs_cons (l : Literal) (c : Clause) :
    Clause.dimacs (l :: c) = (l.text ++ " ") ++ Clause.dimacs c := by
  simp [Clause.dimacs, String.append_assoc]

namespace Cnf

theorem writeClause_eq_put (c : Clause) (s : Sink) : writeClause s c = s.put (Clause.dimacs c) := by
  induction c generalizing s with
  | nil => rfl
  | cons l c ih =>
    rw [Clause.dimacs_cons, Sink.put_append]
    exact Outcome.bind_congr fun t _ => ih t

theorem foldlM_writeClause (cs : List Clause) (s : Sink) (text : String) :
    (s.put text >>= fun t => cs.foldlM writeClause t) =
      s.put (cs.foldl (fun text clause => text ++ Clause.dimacs clause) text) := by
  induction cs generalizing text with
  | nil => exact bind_pure (s.put text)
  | cons c cs ih =>
    rw [List.foldl_cons, ← ih, Sink.put_append, bind_assoc]
    exact Outcome.bind_congr fun t _ => by rw [List.foldlM_cons, writeClause_eq_put]

/-- Sending the pieces of the text is sending the text. -/
theorem writeDimacs_eq_put (c : Cnf) (n : Nat) (s : Sink) :
    c.writeDimacs n s = s.put (c.dimacs n) := by
  rw [writeDimacs, dimacs, ← Array.foldl_toList, ← foldlM_writeClause]
  simp only [Array.foldlM_toList]

/-! ## Lines -/

/-- The line of a clause. -/
def clauseLine (c : Clause) : List Char :=
  (List.map (fun l => l.text.toList) c).flatMap (· ++ [' ']) ++ ['0']

/-- The line of the numbers of variables and clauses. -/
def headerLine (varCount clauseCount : Nat) : List Char :=
  ["p".toList, "cnf".toList, (Text.decimal varCount).toList].flatMap (· ++ [' ']) ++
    (Text.decimal clauseCount).toList

def dimacsLines (c : Cnf) (varCount : Nat) : List (List Char) :=
  headerLine varCount c.size :: c.toList.map clauseLine

theorem toList_clauseDimacs (c : Clause) : (Clause.dimacs c).toList = clauseLine c ++ ['\n'] := by
  have hend : "0\n".toList = ['0'] ++ ['\n'] := by decide +kernel
  rw [Clause.dimacs, String.toList_append, String.toList_join, hend, clauseLine, List.flatMap_map,
    List.flatMap_map, List.append_assoc]
  simp only [String.toList_append, Literal.text, show " ".toList = [' '] from rfl]

theorem toList_dimacsHeader (c : Cnf) (n : Nat) :
    (c.dimacsHeader n).toList = headerLine n c.size ++ ['\n'] := by
  have hstart : "p cnf ".toList = "p".toList ++ [' '] ++ ("cnf".toList ++ [' ']) := by
    decide +kernel
  simp only [dimacsHeader, headerLine, String.toList_append, Text.decimal_natCast,
    List.flatMap_cons, List.flatMap_nil, List.append_nil, List.append_assoc, hstart,
    show " ".toList = [' '] from rfl, show "\n".toList = ['\n'] from rfl]

theorem toList_dimacs (c : Cnf) (n : Nat) :
    (c.dimacs n).toList = (c.dimacsLines n).flatMap (· ++ ['\n']) := by
  have hclauses : ∀ (cs : List Clause) (text : String),
      (cs.foldl (fun text clause => text ++ Clause.dimacs clause) text).toList =
        text.toList ++ (cs.map clauseLine).flatMap (· ++ ['\n']) := by
    intro cs
    induction cs with
    | nil => exact fun text => (List.append_nil _).symm
    | cons c cs ih =>
      intro text
      rw [List.foldl_cons, ih, String.toList_append, toList_clauseDimacs, List.map_cons,
        List.flatMap_cons, List.append_assoc]
  rw [dimacs, ← Array.foldl_toList, hclauses, toList_dimacsHeader, dimacsLines,
    List.flatMap_cons, toList]

theorem newline_notMem_dimacsLines {c : Cnf} {n : Nat} {xs : List Char}
    (hxs : xs ∈ c.dimacsLines n) : '\n' ∉ xs := by
  have hword : ∀ i, '\n' ∉ (Text.decimal i).toList := fun i hmem =>
    absurd ((Text.isWord_iff.mp (Text.isWord_decimal i)).1 _ hmem) (by decide)
  rcases List.mem_cons.mp hxs with rfl | hxs
  · refine Text.newline_notMem_spaced ?_ (hword _)
    simp only [List.forall_mem_cons]
    exact ⟨by decide, by decide, Text.isWord_decimal _, nofun⟩
  · obtain ⟨d, _, rfl⟩ := List.mem_map.mp hxs
    refine Text.newline_notMem_spaced (fun w hw => ?_) (by decide)
    obtain ⟨l, _, rfl⟩ := List.mem_map.mp hw
    exact Text.isWord_decimal _

theorem lines_dimacs (c : Cnf) (n : Nat) :
    Text.lines (c.dimacs n).toList = c.dimacsLines n ++ [[]] := by
  rw [toList_dimacs, Text.lines_flatMap_newline fun _ => newline_notMem_dimacsLines]

/-! ## Reading the lines -/

theorem words_clauseLine (c : Clause) :
    Text.words (clauseLine c) = List.map (fun l => l.text.toList) c ++ [['0']] := by
  rw [clauseLine, Text.words_flatMap_space]
  · rfl
  · intro w hw
    obtain ⟨l, _, rfl⟩ := List.mem_map.mp hw
    exact Text.isWord_decimal _

theorem words_headerLine (n k : Nat) :
    Text.words (headerLine n k) =
      ["p".toList, "cnf".toList, (Text.decimal n).toList, (Text.decimal k).toList] := by
  obtain ⟨hblanks, hne⟩ := Text.isWord_iff.mp (Text.isWord_decimal k)
  rw [headerLine, Text.words_flatMap_space, Text.words_of_forall_not hblanks hne]
  · rfl
  · simp only [List.forall_mem_cons]
    exact ⟨by decide, by decide, Text.isWord_decimal _, nofun⟩

/-- The line of a clause determines its literals, in order. -/
theorem clauseLine_injective : Function.Injective clauseLine := by
  intro c d h
  have hwords : Text.words (clauseLine c) = Text.words (clauseLine d) := congrArg Text.words h
  rw [words_clauseLine, words_clauseLine] at hwords
  exact List.map_injective_iff.mpr Literal.toList_text_injective (List.append_cancel_right hwords)

/-- The header determines the number of variables. -/
theorem eq_of_headerLine {m n k j : Nat} (h : headerLine m k = headerLine n j) : m = n := by
  have hwords : Text.words (headerLine m k) = Text.words (headerLine n j) := congrArg Text.words h
  rw [words_headerLine, words_headerLine] at hwords
  have hcount : (Text.decimal m).toList = (Text.decimal n).toList :=
    Option.some.inj (congrArg (fun ws => ws[2]?) hwords)
  exact Int.ofNat.inj (Text.toList_decimal_injective hcount)

theorem eq_of_dimacs {c d : Cnf} {m n : Nat} (h : c.dimacs m = d.dimacs n) : m = n ∧ c = d := by
  have hlines : c.dimacsLines m = d.dimacsLines n := by
    have htext : Text.lines (c.dimacs m).toList = Text.lines (d.dimacs n).toList := by rw [h]
    rw [lines_dimacs, lines_dimacs] at htext
    exact List.append_cancel_right htext
  obtain ⟨hheader, hclauses⟩ := List.cons.inj hlines
  have hlist : c.toList = d.toList := List.map_injective_iff.mpr clauseLine_injective hclauses
  refine ⟨eq_of_headerLine hheader, ?_⟩
  cases c
  cases d
  exact congrArg Cnf.mk (Array.toList_inj.mp hlist)

/-- **The DIMACS text is the same however it is written, and determines the problem.** A sink
without a bound gets the whole text, one with a bound does exactly if the bytes of the text fit; and
two texts are the same exactly if the numbers of variables and the clauses are, with the order of
clauses and literals. -/
theorem dimacs_faithful :
    (∀ (c : Cnf) (n : Nat), c.writeDimacs n {} = .ok { written := c.dimacs n }) ∧
    (∀ (c : Cnf) (n limit : Nat), c.writeDimacs n { capacity := some limit } =
      if limit < (c.dimacs n).utf8ByteSize then .error .full
      else .ok { capacity := some limit, written := c.dimacs n }) ∧
    ∀ (c d : Cnf) (m n : Nat), c.dimacs m = d.dimacs n ↔ m = n ∧ c = d := by
  refine ⟨fun c n => ?_, fun c n limit => ?_, fun c d m n => ⟨eq_of_dimacs, ?_⟩⟩
  · rw [writeDimacs_eq_put, Sink.put_unbounded, String.empty_append]
  · rw [writeDimacs_eq_put, Sink.put_bounded, String.empty_append]
    by_cases hfit : limit < (c.dimacs n).utf8ByteSize
    · rw [if_pos hfit, if_neg (Nat.not_le.mpr hfit)]
    · rw [if_neg hfit, if_pos (Nat.not_lt.mp hfit)]
  · rintro ⟨rfl, rfl⟩
    rfl

end Cnf

end Counterbalance
