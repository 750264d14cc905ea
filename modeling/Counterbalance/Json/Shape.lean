import Counterbalance.Json.Basic
import Counterbalance.Text.Decimal

/-! How values of other types are laid out in JSON. A record is an object of its fields, or an array
of them in order. A variant is its name, as a string if it carries nothing, or an object with its
name as the only member. Integers are numbers without fraction and exponent. -/

namespace Counterbalance.Json

/-! ## Writing -/

def ofInt (i : Int) : Json := .number (Text.decimal i).toList

def ofNat (n : Nat) : Json := ofInt n

def record (fields : List (String × Json)) : Json :=
  .object (fields.map fun (name, j) => (symbols name, j))

def variant (name : String) (payload : Json) : Json := record [(name, payload)]

/-! ## Reading -/

def bool? : Json → Option Bool
  | .bool b => some b
  | _ => none

def string? : Json → Option String
  | .string s => (chars? s).map String.ofList
  | _ => none

/-- The integer of a number. Minus zero is no integer. -/
def int? : Json → Option Int
  | .number ['-', '0'] => none
  | .number ds => Text.readInt? ds
  | _ => none

/-- The number of integers that 64 bits hold. -/
def words64 : Nat := 18446744073709551616

/-- Integers of 64 bits without sign. -/
def nat? (j : Json) : Option Nat :=
  match int? j with
  | some (.ofNat n) => if n < words64 then some n else none
  | _ => none

def int32? (j : Json) : Option Int := (int? j).filter fun i => Text.InInt32 i

def array? : Json → Option (List Json)
  | .array xs => some xs
  | _ => none

/-- Names that are texts, with their values. -/
def named? (members : List (List Symbol × Json)) : Option (List (String × Json)) :=
  members.mapM fun (k, x) => (chars? k).map fun name => (String.ofList name, x)

/-- The value of a field, if it is there; a field may not occur twice. -/
def field? (members : List (String × Json)) (name : String) : Option (Option Json) :=
  match members.filter (·.1 = name) with
  | [] => some none
  | [(_, x)] => some (some x)
  | _ => none

/-- The values of a record's fields. Members of an object with other names are passed over; an array
may be shorter than the list of fields. -/
def fields? (names : List String) : Json → Option (List (Option Json))
  | .object members => do
    let members ← named? members
    names.mapM (field? members)
  | .array xs =>
    if xs.length ≤ names.length then some (names.mapIdx fun i _ => xs[i]?) else none
  | _ => none

/-- The values of all fields of a record that leaves none out. -/
def allFields? (names : List String) (j : Json) : Option (List Json) := do
  (← fields? names j).mapM id

/-- Name and payload of a variant. -/
def variant? : Json → Option (String × Option Json)
  | .string s => (chars? s).map fun name => (String.ofList name, none)
  | .object [(k, x)] => (chars? k).map fun name => (String.ofList name, some x)
  | _ => none

/-- Whether a variant that carries nothing may have this payload. -/
def isNothing : Option Json → Bool
  | none => true
  | some .null => true
  | _ => false

end Counterbalance.Json
