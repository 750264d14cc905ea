import Counterbalance.Logic.Cnf

/-! The DIMACS text of a clause list: a header with the numbers of variables and clauses, then every
clause on a line of its own, ended by 0. The text is built as one string, or sent piece by piece to
a sink that may hold a limited number of bytes. -/

namespace Counterbalance

def Clause.dimacs (c : Clause) : String :=
  String.join (List.map (fun l => l.text ++ " ") c) ++ "0\n"

/-- Takes text up to its capacity, counted in bytes of UTF-8. -/
structure Sink where
  capacity : Option Nat := none
  written : String := ""

inductive SinkError where
  | full
deriving DecidableEq, Repr

def SinkError.message : SinkError → String
  | .full => "IO error: failed to write whole buffer"

def Sink.put (s : Sink) (piece : String) : Except SinkError Sink :=
  let text := s.written ++ piece
  match s.capacity with
  | none => .ok { s with written := text }
  | some n => if text.utf8ByteSize ≤ n then .ok { s with written := text } else .error .full

namespace Cnf

/-- The number of variables is given, as the last ones may occur in no clause. -/
def dimacsHeader (c : Cnf) (varCount : Nat) : String :=
  "p cnf " ++ Nat.repr varCount ++ " " ++ Nat.repr c.size ++ "\n"

def dimacs (c : Cnf) (varCount : Nat) : String :=
  c.clauses.foldl (fun text clause => text ++ Clause.dimacs clause) (c.dimacsHeader varCount)

/-- Sends the literals of one clause and its end mark. -/
def writeClause (sink : Sink) : Clause → Except SinkError Sink
  | [] => sink.put "0\n"
  | l :: c => do writeClause (← sink.put (l.text ++ " ")) c

def writeDimacs (c : Cnf) (varCount : Nat) (sink : Sink) : Except SinkError Sink := do
  c.clauses.foldlM writeClause (← sink.put (c.dimacsHeader varCount))

end Cnf

end Counterbalance
