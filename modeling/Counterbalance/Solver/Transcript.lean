import Counterbalance.Solver.Verdict
import Counterbalance.Text.Blank
import Counterbalance.Text.Line

/-! Reading a solver's output. A line is blank, a comment, a status or a list of entries; the last
status decides, and the non-zero entries of all lines, ordered by variable, are the model. Entries
without a status are a model too. -/

namespace Counterbalance

namespace Transcript

inductive LineFault where
  | unknownStatus (status : List Char)
  | invalidLiteral (word : List Char)
deriving DecidableEq, Repr

def LineFault.message : LineFault → String
  | .unknownStatus status => "unsupported solver status '" ++ String.ofList status ++ "'"
  | .invalidLiteral word => "invalid literal '" ++ String.ofList word ++ "'"

end Transcript

inductive TranscriptError where
  /-- A line is no UTF-8. -/
  | unreadable
  /-- Line `number`, counted from 1, has no known form. -/
  | badLine (number : Nat) (fault : Transcript.LineFault)
  | noAnswer
deriving DecidableEq, Repr

def TranscriptError.message : TranscriptError → String
  | .unreadable => "IO error: stream did not contain valid UTF-8"
  | .badLine number fault => "DIMACS line " ++ Nat.repr number ++ ": " ++ fault.message
  | .noAnswer => "DIMACS line 0: no solver status or assignment found"

namespace Transcript

/-- What a line contributes. -/
inductive Line where
  | nothing
  | status (isSatisfiable : Bool)
  | entries (xs : List Int)
deriving DecidableEq, Repr

def Line.status? : Line → Option Bool
  | .status b => some b
  | _ => none

def Line.contents : Line → List Int
  | .entries xs => xs
  | _ => []

/-- The status after the letter `s`. -/
def readStatus (cs : List Char) : Except LineFault Bool :=
  if cs = "SATISFIABLE".toList then .ok true
  else if cs = "UNSATISFIABLE".toList then .ok false
  else .error (.unknownStatus cs)

/-- The status that a line states by one word. -/
def bareStatus? (cs : List Char) : Option Bool :=
  if cs = "SAT".toList ∨ cs = "SATISFIABLE".toList then some true
  else if cs = "UNSAT".toList ∨ cs = "UNSATISFIABLE".toList then some false
  else none

def readEntry (word : List Char) : Except LineFault Int :=
  match Text.readInt32? word with
  | some x => .ok x
  | none => .error (.invalidLiteral word)

/-- Zeros end lists of entries and are none themselves. -/
def readEntries (cs : List Char) : Except LineFault Line := do
  let xs ← (Text.words cs).mapM readEntry
  .ok (.entries (xs.filter (· ≠ 0)))

/-- Reads a line without blanks at its ends. -/
def readTrimmed (cs : List Char) : Except LineFault Line :=
  if cs = [] ∨ cs.head? = some 'c' then .ok .nothing
  else
    match Text.cutAtBlank? cs with
    | some (['s'], rest) => (readStatus (Text.trim rest)).map .status
    | some (['v'], rest) => readEntries rest
    | _ =>
      match bareStatus? cs with
      | some b => .ok (.status b)
      | none => if cs = ['v'] then .ok .nothing else readEntries cs

/-- Reads lines in order, the first of them with the given number. -/
def readLines (number : Nat) : List (Option (List Char)) → Except TranscriptError (List Line)
  | [] => .ok []
  | none :: _ => .error .unreadable
  | some cs :: rest => do
    let line ← (readTrimmed (Text.trim cs)).mapError (.badLine number)
    .ok (line :: (← readLines (number + 1) rest))

/-- Orders entries by variable; entries of one variable keep their order. -/
def sortByVariable (xs : List Int) : List Int := xs.mergeSort fun x y => x.natAbs ≤ y.natAbs

def conclude (lines : List Line) : Except TranscriptError Verdict :=
  match (lines.filterMap Line.status?).getLast?, lines.flatMap Line.contents with
  | some false, _ => .ok .unsatisfiable
  | none, [] => .error .noAnswer
  | _, xs => .ok (.satisfiable (sortByVariable xs))

def ofLines (lines : List (Option (List Char))) : Except TranscriptError Verdict := do
  conclude (← readLines 1 lines)

end Transcript

namespace Verdict

/-- Reads a solver's output. -/
def ofText (text : String) : Except TranscriptError Verdict :=
  Transcript.ofLines ((Text.lines text.toList).map some)

/-- Reads a solver's output from bytes, line by line, so that a fault in an earlier line is found
before bytes that are no UTF-8. -/
def ofBytes (bytes : List UInt8) : Except TranscriptError Verdict :=
  Transcript.ofLines (Text.byteLines bytes)

end Verdict

end Counterbalance
