import Counterbalance.Json.Basic

/-! Reading JSON text by the strict grammar: blanks are spaces, tabs, line feeds and carriage
returns, nothing may follow the value, and numbers have no leading zeros. -/

namespace Counterbalance.Json

def isBlank (c : Char) : Bool := c = ' ' || c = '\t' || c = '\n' || c = '\r'

def skipBlanks (cs : List Char) : List Char := cs.dropWhile isBlank

/-! ## Strings -/

def hexValue? (c : Char) : Option Nat :=
  if c.isDigit then some (c.toNat - '0'.toNat)
  else if 'a' ≤ c && c ≤ 'f' then some (c.toNat - 'a'.toNat + 10)
  else if 'A' ≤ c && c ≤ 'F' then some (c.toNat - 'A'.toNat + 10)
  else none

def hexValue4? (a b c d : Char) : Option Nat := do
  let a ← hexValue? a
  let b ← hexValue? b
  let c ← hexValue? c
  let d ← hexValue? d
  some (a * 4096 + b * 256 + c * 16 + d)

/-- What an escape of four hexadecimal digits names. -/
def Symbol.ofCode (code : Nat) : Symbol :=
  if isHighHalf code || isLowHalf code then .half code else .scalar (Char.ofNat code)

/-- What an escape of one letter names. -/
def unescape? : Char → Option Char
  | '"' => some '"'
  | '\\' => some '\\'
  | '/' => some '/'
  | 'b' => some '\x08'
  | 'f' => some '\x0c'
  | 'n' => some '\n'
  | 'r' => some '\r'
  | 't' => some '\t'
  | _ => none

/-- Reads a string from after its opening quote. -/
def readString : List Char → Option (List Symbol × List Char)
  | '"' :: rest => some ([], rest)
  | '\\' :: 'u' :: a :: b :: c :: d :: rest => do
    let code ← hexValue4? a b c d
    let (s, rest) ← readString rest
    some (.ofCode code :: s, rest)
  | '\\' :: e :: rest => do
    let c ← unescape? e
    let (s, rest) ← readString rest
    some (.scalar c :: s, rest)
  | c :: rest =>
    if c.toNat < 0x20 || c = '\\' then none
    else do
      let (s, rest) ← readString rest
      some (.scalar c :: s, rest)
  | [] => none

/-! ## Numbers -/

/-- Digits of the text and what follows; at least one is needed. -/
def readDigits (cs : List Char) : Option (List Char × List Char) :=
  match cs.takeWhile Char.isDigit with
  | [] => none
  | ds => some (ds, cs.dropWhile Char.isDigit)

def readWhole : List Char → Option (List Char × List Char)
  | '0' :: rest => some (['0'], rest)
  | cs => readDigits cs

def readFraction : List Char → Option (List Char × List Char)
  | '.' :: cs => do
    let (ds, rest) ← readDigits cs
    some ('.' :: ds, rest)
  | cs => some ([], cs)

def readExponent : List Char → Option (List Char × List Char)
  | e :: cs =>
    if e = 'e' || e = 'E' then
      match cs with
      | '+' :: cs => do
        let (ds, rest) ← readDigits cs
        some (e :: '+' :: ds, rest)
      | '-' :: cs => do
        let (ds, rest) ← readDigits cs
        some (e :: '-' :: ds, rest)
      | cs => do
        let (ds, rest) ← readDigits cs
        some (e :: ds, rest)
    else some ([], e :: cs)
  | [] => some ([], [])

def readUnsigned (cs : List Char) : Option (List Char × List Char) := do
  let (whole, rest) ← readWhole cs
  let (fraction, rest) ← readFraction rest
  let (exponent, rest) ← readExponent rest
  some (whole ++ fraction ++ exponent, rest)

def readNumber : List Char → Option (List Char × List Char)
  | '-' :: cs => do
    let (ds, rest) ← readUnsigned cs
    some ('-' :: ds, rest)
  | cs => readUnsigned cs

/-! ## Values -/

mutual
/-- Reads a value and returns what follows it. Every nested call comes after a character has been
read, so a depth above the length of the text is never used up. -/
def readValue : Nat → List Char → Option (Json × List Char)
  | 0, _ => none
  | depth + 1, cs =>
    match skipBlanks cs with
    | 'n' :: 'u' :: 'l' :: 'l' :: rest => some (.null, rest)
    | 't' :: 'r' :: 'u' :: 'e' :: rest => some (.bool true, rest)
    | 'f' :: 'a' :: 'l' :: 's' :: 'e' :: rest => some (.bool false, rest)
    | '"' :: cs => do
      let (s, rest) ← readString cs
      some (.string s, rest)
    | '[' :: cs =>
      match skipBlanks cs with
      | ']' :: rest => some (.array [], rest)
      | cs => do
        let (x, rest) ← readValue depth cs
        let (xs, rest) ← readItems depth rest
        some (.array (x :: xs), rest)
    | '\x7b' :: cs =>
      match skipBlanks cs with
      | '\x7d' :: rest => some (.object [], rest)
      | cs => do
        let (m, rest) ← readMember depth cs
        let (ms, rest) ← readMembers depth rest
        some (.object (m :: ms), rest)
    | cs => do
      let (ds, rest) ← readNumber cs
      some (.number ds, rest)

/-- Reads the rest of an array after an item. -/
def readItems : Nat → List Char → Option (List Json × List Char)
  | 0, _ => none
  | depth + 1, cs =>
    match skipBlanks cs with
    | ']' :: rest => some ([], rest)
    | ',' :: cs => do
      let (x, rest) ← readValue depth cs
      let (xs, rest) ← readItems depth rest
      some (x :: xs, rest)
    | _ => none

/-- Reads a name, a colon and a value. -/
def readMember : Nat → List Char → Option ((List Symbol × Json) × List Char)
  | 0, _ => none
  | depth + 1, cs =>
    match skipBlanks cs with
    | '"' :: cs => do
      let (k, rest) ← readString cs
      match skipBlanks rest with
      | ':' :: cs => do
        let (x, rest) ← readValue depth cs
        some ((k, x), rest)
      | _ => none
    | _ => none

/-- Reads the rest of an object after a member. -/
def readMembers : Nat → List Char → Option (List (List Symbol × Json) × List Char)
  | 0, _ => none
  | depth + 1, cs =>
    match skipBlanks cs with
    | '\x7d' :: rest => some ([], rest)
    | ',' :: cs => do
      let (m, rest) ← readMember depth cs
      let (ms, rest) ← readMembers depth rest
      some (m :: ms, rest)
    | _ => none
end

def ofChars? (cs : List Char) : Option Json := do
  let (j, rest) ← readValue (cs.length + 1) cs
  if skipBlanks rest = [] then some j else none

def ofText? (text : String) : Option Json := ofChars? text.toList

end Counterbalance.Json
