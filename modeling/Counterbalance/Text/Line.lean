/-! Lines of a text, of characters or of bytes. A line feed ends a line; what follows the last one
is a line too, empty where the text ends with a line feed. -/

namespace Counterbalance.Text

def lines (cs : List Char) : List (List Char) := cs.splitOn '\n'

/-- The characters of a run of bytes, unless the bytes are no UTF-8. -/
def decodeUtf8? (bytes : List UInt8) : Option (List Char) :=
  (String.fromUTF8? ⟨bytes.toArray⟩).map String.toList

/-- A byte that is a line feed belongs to no longer encoding, so bytes are cut into lines before
each line is decoded. -/
def byteLines (bytes : List UInt8) : List (Option (List Char)) :=
  (bytes.splitOn 10).map decodeUtf8?

end Counterbalance.Text
