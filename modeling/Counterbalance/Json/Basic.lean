/-! JSON values. A string is kept as it was written up to the spelling of its escapes: an escape may
name half of a surrogate pair, and only a string in which all halves form pairs has a text. A number
is kept as its characters. Members of an object keep their order, repeated names included. -/

namespace Counterbalance

/-- A character of a JSON string, or half of a surrogate pair. -/
inductive Json.Symbol where
  | scalar (c : Char)
  | half (code : Nat)
deriving DecidableEq, Repr

inductive Json where
  | null
  | bool (b : Bool)
  | number (digits : List Char)
  | string (s : List Json.Symbol)
  | array (items : List Json)
  | object (members : List (List Json.Symbol × Json))

namespace Json

def isHighHalf (code : Nat) : Bool := 0xD800 ≤ code && code < 0xDC00

def isLowHalf (code : Nat) : Bool := 0xDC00 ≤ code && code < 0xE000

/-- The character of a surrogate pair. -/
def joinHalves (high low : Nat) : Char :=
  Char.ofNat (0x10000 + (high - 0xD800) * 0x400 + (low - 0xDC00))

/-- The characters of a string; none if a half stands alone. -/
def chars? : List Symbol → Option (List Char)
  | [] => some []
  | .scalar c :: rest => (chars? rest).map (c :: ·)
  | .half high :: .half low :: rest =>
    if isHighHalf high && isLowHalf low then (chars? rest).map (joinHalves high low :: ·) else none
  | .half _ :: _ => none

def symbols (s : String) : List Symbol := s.toList.map .scalar

def ofString (s : String) : Json := .string (symbols s)

theorem chars?_symbols (s : String) : chars? (symbols s) = some s.toList := by
  rw [symbols]
  induction s.toList with
  | nil => rfl
  | cons c cs ih => simp [chars?, ih]

end Json

end Counterbalance
