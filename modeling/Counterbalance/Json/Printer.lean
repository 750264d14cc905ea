import Counterbalance.Json.Basic

/-! Text of JSON values, compact or with indentation. Quotes, backslashes and control characters are
escaped, the common ones by a letter; all other characters are written as they are. -/

namespace Counterbalance.Json

def hexDigits (code : Nat) : List Char :=
  [code / 4096 % 16, code / 256 % 16, code / 16 % 16, code % 16].map Nat.digitChar

def escapeCode (code : Nat) : List Char := '\\' :: 'u' :: hexDigits code

def escapeChar (c : Char) : List Char :=
  if c = '"' then ['\\', '"']
  else if c = '\\' then ['\\', '\\']
  else if c = '\x08' then ['\\', 'b']
  else if c = '\x0c' then ['\\', 'f']
  else if c = '\n' then ['\\', 'n']
  else if c = '\r' then ['\\', 'r']
  else if c = '\t' then ['\\', 't']
  else if c.toNat < 0x20 then escapeCode c.toNat
  else [c]

def Symbol.chars : Symbol → List Char
  | .scalar c => escapeChar c
  | .half code => escapeCode code

def quoted (s : List Symbol) : List Char := '"' :: (s.flatMap Symbol.chars ++ ['"'])

mutual
/-- The value's text without blanks between tokens. -/
def chars : Json → List Char
  | .null => "null".toList
  | .bool true => "true".toList
  | .bool false => "false".toList
  | .number digits => digits
  | .string s => quoted s
  | .array [] => ['[', ']']
  | .array (x :: xs) => '[' :: (chars x ++ itemChars xs)
  | .object [] => ['\x7b', '\x7d']
  | .object ((k, x) :: ms) => '\x7b' :: (quoted k ++ ':' :: (chars x ++ memberChars ms))

/-- The rest of an array after its first item. -/
def itemChars : List Json → List Char
  | [] => [']']
  | x :: xs => ',' :: (chars x ++ itemChars xs)

/-- The rest of an object after its first member. -/
def memberChars : List (List Symbol × Json) → List Char
  | [] => ['\x7d']
  | (k, x) :: ms => ',' :: (quoted k ++ ':' :: (chars x ++ memberChars ms))
end

def compact (j : Json) : String := String.ofList (chars j)

/-! ## Indented text -/

/-- A new line, indented by two blanks per level. -/
def newline (level : Nat) : List Char := '\n' :: List.replicate (2 * level) ' '

mutual
/-- The value's text with every item and member on a line of its own. -/
def indentedChars (level : Nat) : Json → List Char
  | .array (x :: xs) =>
    '[' :: (newline (level + 1) ++ indentedChars (level + 1) x ++ indentedItems level xs)
  | .object ((k, x) :: ms) =>
    '\x7b' :: (newline (level + 1) ++ quoted k ++ ':' :: ' ' :: (indentedChars (level + 1) x ++
      indentedMembers level ms))
  | j => chars j

def indentedItems (level : Nat) : List Json → List Char
  | [] => newline level ++ [']']
  | x :: xs => ',' :: (newline (level + 1) ++ indentedChars (level + 1) x ++ indentedItems level xs)

def indentedMembers (level : Nat) : List (List Symbol × Json) → List Char
  | [] => newline level ++ ['\x7d']
  | (k, x) :: ms =>
    ',' :: (newline (level + 1) ++ quoted k ++ ':' :: ' ' :: (indentedChars (level + 1) x ++
      indentedMembers level ms))
end

def indented (j : Json) : String := String.ofList (indentedChars 0 j)

end Counterbalance.Json
