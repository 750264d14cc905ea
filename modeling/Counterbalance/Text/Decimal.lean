/-! Decimal text of integers. Writing gives a minus sign and the digits without leading zeros;
reading takes one optional sign and at least one digit, leading zeros included, so every written
integer reads back and a read one may have other spellings. -/

namespace Counterbalance.Text

/-- Least and greatest integers of 32 signed bits. -/
def minInt32 : Int := -2147483648
def maxInt32 : Int := 2147483647

def InInt32 (i : Int) : Prop := minInt32 ≤ i ∧ i ≤ maxInt32

instance (i : Int) : Decidable (InInt32 i) := inferInstanceAs (Decidable (_ ∧ _))

def decimal (i : Int) : String :=
  if i < 0 then "-" ++ Nat.repr i.natAbs else Nat.repr i.natAbs

/-- ASCII digits only. -/
def readNat? (cs : List Char) : Option Nat :=
  if cs ≠ [] ∧ cs.all Char.isDigit then some (Nat.ofDigitChars 10 cs 0) else none

def readInt? : List Char → Option Int
  | '-' :: cs => (readNat? cs).map fun (n : Nat) => -(n : Int)
  | '+' :: cs => (readNat? cs).map Int.ofNat
  | cs => (readNat? cs).map Int.ofNat

def readInt32? (cs : List Char) : Option Int :=
  (readInt? cs).filter fun i => InInt32 i

theorem readNat?_toDigits (n : Nat) : readNat? (Nat.toDigits 10 n) = some n := by
  have hall : (Nat.toDigits 10 n).all Char.isDigit = true :=
    List.all_eq_true.mpr fun c hc => Nat.isDigit_of_mem_toDigits (by decide) (by decide) hc
  rw [readNat?, if_pos ⟨Nat.toDigits_ne_nil, hall⟩,
    Nat.ofDigitChars_toDigits (by decide) (by decide)]

private theorem readInt?_of_isDigit {c : Char} {cs : List Char} (h : c.isDigit = true) :
    readInt? (c :: cs) = (readNat? (c :: cs)).map Int.ofNat := by
  have hm : c ≠ '-' := by rintro rfl; exact absurd h (by decide)
  have hp : c ≠ '+' := by rintro rfl; exact absurd h (by decide)
  rw [readInt?]
  · exact fun _ he => hm (List.cons.inj he).1
  · exact fun _ he => hp (List.cons.inj he).1

theorem readInt?_decimal (i : Int) : readInt? (decimal i).toList = some i := by
  rw [decimal]
  split
  · rename_i h
    rw [String.toList_append, Nat.toList_repr, show "-".toList = ['-'] from rfl,
      List.singleton_append, readInt?, readNat?_toDigits, Option.map_some]
    congr 1
    omega
  · rename_i h
    rw [Nat.toList_repr]
    cases hd : Nat.toDigits 10 i.natAbs with
    | nil => exact absurd hd Nat.toDigits_ne_nil
    | cons c cs =>
      have hc : c.isDigit = true :=
        Nat.isDigit_of_mem_toDigits (by decide) (by decide) (hd ▸ List.mem_cons_self)
      rw [readInt?_of_isDigit hc, ← hd, readNat?_toDigits, Option.map_some]
      exact congrArg some (by simp only [Int.ofNat_eq_natCast]; omega)

end Counterbalance.Text
