import Counterbalance.Json.Printer
import Counterbalance.Json.Reader
import Counterbalance.Json.Shape
import Counterbalance.Proofs.Text.Decimals

/-! JSON text read back. Every token is read again from the front of whatever follows it: a string
up to its closing quote, however its characters are escaped, and an integer up to a character that
cannot continue it. So the text of a value whose numbers are integers and whose strings are texts is
read as the value. -/

namespace Counterbalance.Json

variable {cs rest : List Char} {c : Char}

/-! ## Strings -/

theorem hexValue?_digitChar : ∀ d < 16, hexValue? (Nat.digitChar d) = some d := by decide

theorem readString_escapeCode {code : Nat} (hcode : code < 65536) (cs : List Char) :
    readString (escapeCode code ++ cs) = (readString cs).map fun p =>
      (.ofCode code :: p.1, p.2) := by
  have hdigit : ∀ n, hexValue? (Nat.digitChar (n % 16)) = some (n % 16) := fun n =>
    hexValue?_digitChar _ (Nat.mod_lt n (by decide))
  have hvalue : code / 4096 % 16 * 4096 + code / 256 % 16 * 256 + code / 16 % 16 * 16 + code % 16 =
      code := by omega
  simp only [escapeCode, hexDigits, List.map_cons, List.map_nil, List.cons_append, List.nil_append]
  rw [readString]
  simp only [hexValue4?, hdigit, bind, Option.bind, hvalue]
  cases readString cs <;> rfl

/-- An escape of one letter is read as the character that it names. -/
theorem readString_letter {e : Char} (he : unescape? e = some c) (cs : List Char) :
    readString ('\\' :: e :: cs) = (readString cs).map fun p => (.scalar c :: p.1, p.2) := by
  have hu : e ≠ 'u' := by
    rintro rfl
    cases he
  rw [readString]
  · rw [he]
    cases readString cs <;> rfl
  · intro _ _ _ _ _ heq
    exact absurd heq hu

theorem readString_plain (hquote : c ≠ '"') (hslash : c ≠ '\\') (hcontrol : ¬ c.toNat < 0x20)
    (cs : List Char) :
    readString (c :: cs) = (readString cs).map fun p => (.scalar c :: p.1, p.2) := by
  rw [readString]
  · simp only [hcontrol, hslash, decide_false, Bool.or_self, Bool.false_eq_true, if_false]
    cases readString cs <;> rfl
  · exact hquote
  · exact fun _ _ _ _ _ heq => absurd heq hslash
  · exact fun _ _ heq => absurd heq hslash

/-- How a character is written: by a letter, by its code, or as it is. -/
inductive Spells (c : Char) : List Char → Prop
  | letter {e : Char} (he : unescape? e = some c) : Spells c ['\\', e]
  | code (hcontrol : c.toNat < 0x20) : Spells c (escapeCode c.toNat)
  | plain (hquote : c ≠ '"') (hslash : c ≠ '\\') (hcontrol : ¬ c.toNat < 0x20) : Spells c [c]

theorem spells_escapeChar (c : Char) : Spells c (escapeChar c) := by
  unfold escapeChar
  iterate 7
    split
    · subst_vars
      exact .letter rfl
  split
  · exact .code ‹_›
  · exact .plain ‹_› ‹_› ‹_›

/-- Control characters are no halves of pairs. -/
theorem ofCode_toNat (hcontrol : c.toNat < 0x20) : Symbol.ofCode c.toNat = .scalar c := by
  have hhigh : isHighHalf c.toNat = false := by
    simp only [isHighHalf, Bool.and_eq_false_iff, decide_eq_false_iff_not]
    omega
  have hlow : isLowHalf c.toNat = false := by
    simp only [isLowHalf, Bool.and_eq_false_iff, decide_eq_false_iff_not]
    omega
  rw [Symbol.ofCode, hhigh, hlow]
  exact congrArg Symbol.scalar (Char.ofNat_toNat c)

/-- Every character is read again, whichever way it is written. -/
theorem Spells.readString_append {ds : List Char} (h : Spells c ds) (cs : List Char) :
    readString (ds ++ cs) = (readString cs).map fun p => (.scalar c :: p.1, p.2) := by
  cases h with
  | letter he => exact readString_letter he cs
  | code hcontrol => rw [readString_escapeCode (by omega), ofCode_toNat hcontrol]
  | plain hquote hslash hcontrol => exact readString_plain hquote hslash hcontrol cs

theorem readString_symbols (t : String) (rest : List Char) :
    readString ((symbols t).flatMap Symbol.chars ++ '"' :: rest) = some (symbols t, rest) := by
  unfold symbols
  induction t.toList with
  | nil => rw [List.map_nil, List.flatMap_nil, List.nil_append, readString]
  | cons c cs ih =>
    rw [List.map_cons, List.flatMap_cons, List.append_assoc]
    exact ((spells_escapeChar c).readString_append _).trans (by rw [ih]; rfl)

/-! ## Numbers -/

/-- What follows a value: nothing, the next item or the end of the array or object. -/
def Closes (rest : List Char) : Prop := ∀ c ∈ rest.head?, c = ',' ∨ c = ']' ∨ c = '\x7d'

theorem closes_nil : Closes [] := nofun

theorem closes_cons (hc : c = ',' ∨ c = ']' ∨ c = '\x7d') (cs : List Char) : Closes (c :: cs) := by
  rintro _ ⟨⟩
  exact hc

theorem readFraction_of_closes (h : Closes rest) : readFraction rest = some ([], rest) := by
  cases rest with
  | nil => rfl
  | cons c cs => rcases h c rfl with rfl | rfl | rfl <;> rfl

theorem readExponent_of_closes (h : Closes rest) : readExponent rest = some ([], rest) := by
  cases rest with
  | nil => rfl
  | cons c cs => rcases h c rfl with rfl | rfl | rfl <;> rfl

theorem takeWhile_isDigit_of_closes (h : Closes rest) : rest.takeWhile Char.isDigit = [] := by
  cases rest with
  | nil => rfl
  | cons c cs => rcases h c rfl with rfl | rfl | rfl <;> rfl

/-- Only zero begins with the digit zero. -/
theorem head?_toDigits_ne {n : Nat} (hn : n ≠ 0) : (Nat.toDigits 10 n).head? ≠ some '0' := by
  induction n using Nat.strongRecOn with
  | ind n ih =>
    by_cases hlt : n < 10
    · rw [Nat.toDigits_of_lt_base hlt, List.head?_cons, ne_eq, Option.some.injEq,
        Nat.digitChar_eq_zero]
      exact hn
    · have hge : 10 ≤ n := Nat.not_lt.mp hlt
      rw [Nat.toDigits_of_base_le (by decide) hge,
        List.head?_append_of_ne_nil _ Nat.toDigits_ne_nil]
      exact ih (n / 10) (by omega) (by omega)

theorem readDigits_append (h : Closes rest) {ds : List Char} (hds : ∀ d ∈ ds, d.isDigit = true)
    (hne : ds ≠ []) : readDigits (ds ++ rest) = some (ds, rest) := by
  have htake : (ds ++ rest).takeWhile Char.isDigit = ds := by
    rw [List.takeWhile_append_of_pos hds, takeWhile_isDigit_of_closes h, List.append_nil]
  have hdrop : (ds ++ rest).dropWhile Char.isDigit = rest := by
    have hsplit := List.takeWhile_append_dropWhile (p := Char.isDigit) (l := ds ++ rest)
    rw [htake] at hsplit
    exact List.append_cancel_left hsplit
  unfold readDigits
  rw [htake, hdrop]
  cases ds with
  | nil => exact absurd rfl hne
  | cons d ds => rfl

theorem readWhole_append (h : Closes rest) (n : Nat) :
    readWhole (Nat.toDigits 10 n ++ rest) = some (Nat.toDigits 10 n, rest) := by
  by_cases hn : n = 0
  · rw [hn, Nat.toDigits_zero]
    rfl
  · have hdigits : readDigits (Nat.toDigits 10 n ++ rest) = some (Nat.toDigits 10 n, rest) :=
      readDigits_append h (fun _ => Nat.isDigit_of_mem_toDigits (by decide) (by decide))
        Nat.toDigits_ne_nil
    rw [readWhole]
    · exact hdigits
    · intro cs heq
      have hhead : (Nat.toDigits 10 n ++ rest).head? = some '0' := by rw [heq, List.head?_cons]
      rw [List.head?_append_of_ne_nil _ Nat.toDigits_ne_nil] at hhead
      exact head?_toDigits_ne hn hhead

theorem readUnsigned_append (h : Closes rest) (n : Nat) :
    readUnsigned (Nat.toDigits 10 n ++ rest) = some (Nat.toDigits 10 n, rest) := by
  rw [readUnsigned, readWhole_append h n]
  simp [readFraction_of_closes h, readExponent_of_closes h]

theorem readNumber_append (h : Closes rest) (i : Int) :
    readNumber ((Text.decimal i).toList ++ rest) = some ((Text.decimal i).toList, rest) := by
  have hunsigned := readUnsigned_append h i.natAbs
  rw [Text.decimal]
  split
  · rw [String.toList_append, Nat.toList_repr, show "-".toList = ['-'] from rfl,
      List.singleton_append, List.cons_append, readNumber, hunsigned]
    rfl
  · rw [Nat.toList_repr, readNumber]
    · exact hunsigned
    · intro cs heq
      have hmem : '-' ∈ Nat.toDigits 10 i.natAbs := by
        have hhead : (Nat.toDigits 10 i.natAbs ++ rest).head? = some '-' := by
          rw [heq, List.head?_cons]
        rw [List.head?_append_of_ne_nil _ Nat.toDigits_ne_nil] at hhead
        exact List.mem_of_mem_head? hhead
      exact absurd (Nat.isDigit_of_mem_toDigits (by decide) (by decide) hmem) (by decide)

/-! ## Values -/

/-- Numbers are integers and strings are texts, at every depth. -/
inductive Plain : Json → Prop
  | null : Plain .null
  | bool (b : Bool) : Plain (.bool b)
  | int (i : Int) : Plain (ofInt i)
  | text (t : String) : Plain (ofString t)
  | array {xs : List Json} (h : ∀ x ∈ xs, Plain x) : Plain (.array xs)
  | object {fields : List (String × Json)} (h : ∀ f ∈ fields, Plain f.2) : Plain (record fields)

/-- The text of the value is read as the value, up to what follows it, at any depth above the length
of the text. -/
def Legible (j : Json) : Prop :=
  ∀ depth rest, (chars j).length < depth → Closes rest → readValue depth (chars j ++ rest) =
    some (j, rest)

theorem legible_of_succ {j : Json} (h : ∀ depth rest, (chars j).length ≤ depth → Closes rest →
    readValue (depth + 1) (chars j ++ rest) = some (j, rest)) : Legible j := by
  intro depth rest hdepth hrest
  obtain ⟨depth, rfl⟩ := Nat.exists_eq_add_one_of_ne_zero (Nat.ne_zero_of_lt hdepth)
  exact h depth rest (Nat.le_of_lt_succ hdepth) hrest

theorem skipBlanks_cons (hc : isBlank c = false) (cs : List Char) :
    skipBlanks (c :: cs) = c :: cs :=
  List.dropWhile_cons_of_neg (by simp [hc])

theorem isBlank_of_numeral (hc : c = '-' ∨ c.isDigit = true) : isBlank c = false := by
  rcases hc with rfl | hdigit
  · rfl
  · simp only [isBlank, Bool.or_eq_false_iff, decide_eq_false_iff_not]
    refine ⟨⟨⟨?_, ?_⟩, ?_⟩, ?_⟩ <;> rintro rfl <;> exact absurd hdigit (by decide)

theorem readValue_numeral (hc : c = '-' ∨ c.isDigit = true) (depth : Nat) (cs : List Char) :
    readValue (depth + 1) (c :: cs) = (readNumber (c :: cs)).map fun p => (.number p.1, p.2) := by
  rw [readValue, skipBlanks_cons (isBlank_of_numeral hc)]
  split
  case h_7 => cases readNumber (c :: cs) <;> rfl
  all_goals
    rename_i heq
    obtain ⟨rfl, _⟩ := List.cons.inj heq
    exact absurd hc (by decide)

theorem decimal_eq_cons (i : Int) :
    ∃ c cs, (Text.decimal i).toList = c :: cs ∧ (c = '-' ∨ c.isDigit = true) := by
  obtain ⟨c, cs, hdecimal⟩ := List.exists_cons_of_ne_nil (Text.decimal_ne_nil i)
  exact ⟨c, cs, hdecimal, Text.minus_or_digit_of_mem_decimal (hdecimal ▸ List.mem_cons_self)⟩

/-- Every value begins with a character that is no blank and does not close an array. -/
theorem Plain.exists_cons {j : Json} (h : j.Plain) :
    ∃ c cs, chars j = c :: cs ∧ isBlank c = false ∧ c ≠ ']' := by
  cases h with
  | null => exact ⟨_, _, rfl, rfl, by decide⟩
  | bool b => cases b <;> exact ⟨_, _, rfl, rfl, by decide⟩
  | int i =>
    obtain ⟨c, cs, hdecimal, hc⟩ := decimal_eq_cons i
    refine ⟨c, cs, hdecimal, isBlank_of_numeral hc, ?_⟩
    rintro rfl
    exact absurd hc (by decide)
  | text t => exact ⟨_, _, rfl, rfl, by decide⟩
  | @array xs _ => cases xs <;> exact ⟨_, _, by rw [chars], rfl, by decide⟩
  | @object fields _ =>
    cases fields <;> exact ⟨'\x7b', _, by rw [Json.record, List.map, chars], rfl, by decide⟩

theorem legible_int (i : Int) : Legible (ofInt i) := by
  refine legible_of_succ fun depth rest _ hrest => ?_
  obtain ⟨c, cs, hdecimal, hc⟩ := decimal_eq_cons i
  have hnumber := readNumber_append hrest i
  show readValue (depth + 1) ((Text.decimal i).toList ++ rest) = _
  rw [hdecimal, List.cons_append] at hnumber ⊢
  rw [readValue_numeral hc, hnumber, ← hdecimal]
  rfl

theorem readString_quoted (t : String) (rest : List Char) :
    ∃ cs, quoted (symbols t) ++ rest = '"' :: cs ∧ readString cs = some (symbols t, rest) :=
  ⟨(symbols t).flatMap Symbol.chars ++ '"' :: rest, by simp [quoted], readString_symbols t rest⟩

theorem legible_text (t : String) : Legible (ofString t) := by
  refine legible_of_succ fun depth rest _ _ => ?_
  obtain ⟨cs, hquoted, hread⟩ := readString_quoted t rest
  show readValue (depth + 1) (quoted (symbols t) ++ rest) = _
  rw [hquoted, readValue, skipBlanks_cons rfl]
  simp only [hread]
  rfl

/-! ### Arrays -/

theorem closes_itemChars (xs : List Json) (rest : List Char) : Closes (itemChars xs ++ rest) := by
  cases xs with
  | nil => exact closes_cons (.inr (.inl rfl)) _
  | cons x xs => exact closes_cons (.inl rfl) _

theorem readItems_itemChars {xs : List Json} (hxs : ∀ x ∈ xs, Legible x) {depth : Nat}
    (hdepth : (itemChars xs).length < depth) (rest : List Char) :
    readItems depth (itemChars xs ++ rest) = some (xs, rest) := by
  induction xs generalizing depth with
  | nil =>
    obtain ⟨depth, rfl⟩ := Nat.exists_eq_add_one_of_ne_zero (Nat.ne_zero_of_lt hdepth)
    rfl
  | cons x xs ih =>
    obtain ⟨depth, rfl⟩ := Nat.exists_eq_add_one_of_ne_zero (Nat.ne_zero_of_lt hdepth)
    obtain ⟨hx, hxs⟩ := List.forall_mem_cons.mp hxs
    have hlength : (chars x).length + (itemChars xs).length < depth := by
      rw [itemChars, List.length_cons, List.length_append] at hdepth
      omega
    have hitem := hx depth (itemChars xs ++ rest) (by omega) (closes_itemChars xs rest)
    have hitems : readItems depth (itemChars xs ++ rest) = some (xs, rest) := ih hxs (by omega)
    rw [itemChars, List.cons_append, List.append_assoc, readItems, skipBlanks_cons rfl]
    simp only [hitem, hitems, bind, Option.bind]

theorem legible_array {xs : List Json} (hplain : ∀ x ∈ xs, Plain x) (hxs : ∀ x ∈ xs, Legible x) :
    Legible (.array xs) := by
  refine legible_of_succ fun depth rest hdepth _ => ?_
  cases xs with
  | nil => rfl
  | cons x xs =>
    obtain ⟨hx, hxs⟩ := List.forall_mem_cons.mp hxs
    have hlength : (chars x).length + (itemChars xs).length < depth := by
      rw [chars, List.length_cons, List.length_append] at hdepth
      omega
    have hitem := hx depth (itemChars xs ++ rest) (by omega) (closes_itemChars xs rest)
    have hitems : readItems depth (itemChars xs ++ rest) = some (xs, rest) :=
      readItems_itemChars hxs (by omega) rest
    obtain ⟨c, cs, hchars, hblank, hclose⟩ := (hplain x List.mem_cons_self).exists_cons
    rw [chars, List.cons_append, List.append_assoc, readValue, skipBlanks_cons rfl]
    rw [hchars, List.cons_append] at hitem ⊢
    simp only [skipBlanks_cons hblank]
    split
    · rename_i heq
      exact absurd (List.cons.inj heq).1 hclose
    · simp only [hitem, hitems, bind, Option.bind]

/-! ### Objects -/

/-- The members of a record. -/
def members (fields : List (String × Json)) : List (List Symbol × Json) :=
  fields.map fun (name, j) => (symbols name, j)

theorem closes_memberChars (ms : List (List Symbol × Json)) (rest : List Char) :
    Closes (memberChars ms ++ rest) := by
  cases ms with
  | nil => exact closes_cons (.inr (.inr rfl)) _
  | cons m ms => exact closes_cons (.inl rfl) _

theorem readMember_append {j : Json} (hj : Legible j) {name : String} {depth : Nat}
    {rest : List Char} (hdepth : (chars j).length + 1 < depth) (hrest : Closes rest) :
    readMember depth (quoted (symbols name) ++ ':' :: (chars j ++ rest)) =
      some ((symbols name, j), rest) := by
  obtain ⟨depth, rfl⟩ := Nat.exists_eq_add_one_of_ne_zero (Nat.ne_zero_of_lt hdepth)
  obtain ⟨cs, hquoted, hread⟩ := readString_quoted name (':' :: (chars j ++ rest))
  have hvalue := hj depth rest (Nat.lt_of_succ_lt_succ hdepth) hrest
  rw [hquoted, readMember, skipBlanks_cons rfl]
  simp only [hread, skipBlanks_cons (show isBlank ':' = false from rfl), hvalue, bind, Option.bind]

theorem readMembers_memberChars {fields : List (String × Json)}
    (hfields : ∀ f ∈ fields, Legible f.2) {depth : Nat}
    (hdepth : (memberChars (members fields)).length < depth) (rest : List Char) :
    readMembers depth (memberChars (members fields) ++ rest) = some (members fields, rest) := by
  induction fields generalizing depth with
  | nil =>
    obtain ⟨depth, rfl⟩ := Nat.exists_eq_add_one_of_ne_zero (Nat.ne_zero_of_lt hdepth)
    rfl
  | cons f fields ih =>
    obtain ⟨depth, rfl⟩ := Nat.exists_eq_add_one_of_ne_zero (Nat.ne_zero_of_lt hdepth)
    obtain ⟨name, j⟩ := f
    obtain ⟨(hj : Legible j), hfields⟩ := List.forall_mem_cons.mp hfields
    have hcons : members ((name, j) :: fields) = (symbols name, j) :: members fields := rfl
    rw [hcons, memberChars] at hdepth ⊢
    have hlength : (chars j).length + 1 + (memberChars (members fields)).length < depth := by
      simp only [quoted, List.length_cons, List.length_append] at hdepth
      omega
    have hmember : readMember depth (quoted (symbols name) ++
        ':' :: (chars j ++ (memberChars (members fields) ++ rest))) =
          some ((symbols name, j), memberChars (members fields) ++ rest) :=
      readMember_append hj (by omega) (closes_memberChars (members fields) rest)
    have hmembers : readMembers depth (memberChars (members fields) ++ rest) =
        some (members fields, rest) :=
      ih hfields (by omega)
    rw [List.cons_append, List.append_assoc, List.cons_append, List.append_assoc, readMembers,
      skipBlanks_cons rfl]
    simp only [hmember, hmembers, bind, Option.bind]

theorem legible_record {fields : List (String × Json)} (hfields : ∀ f ∈ fields, Legible f.2) :
    Legible (record fields) := by
  refine legible_of_succ fun depth rest hdepth _ => ?_
  have hrecord : record fields = .object (members fields) := rfl
  rw [hrecord] at hdepth ⊢
  cases fields with
  | nil => rfl
  | cons f fields =>
    obtain ⟨name, j⟩ := f
    obtain ⟨(hj : Legible j), hfields⟩ := List.forall_mem_cons.mp hfields
    have hcons : members ((name, j) :: fields) = (symbols name, j) :: members fields := rfl
    rw [hcons, chars] at hdepth ⊢
    have hlength : (chars j).length + 1 + (memberChars (members fields)).length < depth := by
      simp only [quoted, List.length_cons, List.length_append] at hdepth
      omega
    have hmember : readMember depth (quoted (symbols name) ++
        ':' :: (chars j ++ (memberChars (members fields) ++ rest))) =
          some ((symbols name, j), memberChars (members fields) ++ rest) :=
      readMember_append hj (by omega) (closes_memberChars (members fields) rest)
    have hmembers : readMembers depth (memberChars (members fields) ++ rest) =
        some (members fields, rest) :=
      readMembers_memberChars hfields (by omega) rest
    rw [List.cons_append, List.append_assoc, List.cons_append, List.append_assoc, readValue,
      skipBlanks_cons rfl]
    -- a name begins with its quote, so the object is not read as the empty one
    obtain ⟨cs, hquoted, _⟩ :=
      readString_quoted name (':' :: (chars j ++ (memberChars (members fields) ++ rest)))
    rw [hquoted] at hmember ⊢
    simp only [skipBlanks_cons (show isBlank '"' = false from rfl)]
    split
    · rename_i heq
      exact absurd (List.cons.inj heq).1 (by decide)
    · simp only [hmember, hmembers, bind, Option.bind]

theorem Plain.legible {j : Json} (h : j.Plain) : Legible j := by
  induction h with
  | null => exact legible_of_succ fun _ _ _ _ => rfl
  | bool b => cases b <;> exact legible_of_succ fun _ _ _ _ => rfl
  | int i => exact legible_int i
  | text t => exact legible_text t
  | array hplain ih => exact legible_array hplain ih
  | object _ ih => exact legible_record ih

/-- **The text of a value is read as the value.** -/
theorem ofText?_compact {j : Json} (h : j.Plain) : ofText? (compact j) = some j := by
  have hread := h.legible ((chars j).length + 1) [] (Nat.lt_succ_self _) closes_nil
  rw [List.append_nil] at hread
  rw [ofText?, compact, String.toList_ofList, ofChars?, hread]
  rfl

end Counterbalance.Json
