import Std.Data.HashMap
import Counterbalance.Logic.Cnf
import Counterbalance.Logic.Formula
import Counterbalance.Logic.Supply

/-! Encoding of formulas as clauses with one auxiliary variable per connective. A literal stands for
itself; every other node gets a fresh variable, defined by the clauses of its gate, after its
arguments have been encoded from left to right. A session holds the clauses emitted so far, the
supply of variables and, if it memoizes, the literal of every node that it has encoded. -/

namespace Counterbalance

/-- A connective applied to the literals of its arguments. -/
inductive Gate where
  | not (a : Literal)
  | and (as : List Literal)
  | or (as : List Literal)
  | xor (a b : Literal)
  | iff (a b : Literal)

namespace Gate

/-- The clauses that say that `z` is equivalent to the gate. -/
def clauses (z : Literal) : Gate → List Clause
  | .not a => [[-z, -a], [z, a]]
  | .and as => as.map (fun a => [-z, a]) ++ [z :: as.map (-·)]
  | .or as => as.map (fun a => [z, -a]) ++ [-z :: as]
  | .xor a b => [[-z, a, b], [-z, -a, -b], [z, -a, b], [z, a, -b]]
  | .iff a b => [[-z, -a, b], [-z, a, -b], [z, a, b], [z, -a, -b]]

def eval (ν : Nat → Bool) : Gate → Bool
  | .not a => !a.eval ν
  | .and as => as.all (Literal.eval ν)
  | .or as => as.any (Literal.eval ν)
  | .xor a b => a.eval ν != b.eval ν
  | .iff a b => a.eval ν == b.eval ν

/-- The clauses of a gate hold exactly where its literal has the gate's value. -/
theorem all_eval_clauses (ν : Nat → Bool) (z : Literal) (g : Gate) :
    (g.clauses z).all (Clause.eval ν) = (z.eval ν == g.eval ν) := by
  cases g with
  | not a => simp [clauses, eval, Clause.eval]; cases z.eval ν <;> cases a.eval ν <;> rfl
  | and as =>
    cases h : z.eval ν <;>
      simp [clauses, eval, Clause.eval, h, Function.comp_def, List.all_eq_not_any_not (l := as)]
  | or as =>
    cases h : z.eval ν <;>
      simp [clauses, eval, Clause.eval, h, Function.comp_def, List.any_eq_not_all_not (l := as)]
  | xor a b =>
    simp [clauses, eval, Clause.eval]
    cases z.eval ν <;> cases a.eval ν <;> cases b.eval ν <;> rfl
  | iff a b =>
    simp [clauses, eval, Clause.eval]
    cases z.eval ν <;> cases a.eval ν <;> cases b.eval ν <;> rfl

end Gate

structure EncodingStats where
  formulas : Nat := 0
  auxiliaries : Nat := 0
  clauses : Nat := 0
  recalls : Nat := 0
deriving DecidableEq, Repr

structure Session where
  memoize : Bool
  supply : Supply
  cnf : Cnf := {}
  stats : EncodingStats := {}
  memo : Std.HashMap Formula Literal := {}

namespace Session

def start (supply : Supply) (memoize : Bool) : Session := { memoize, supply }

/-- Appends a clause as it is. -/
def addClause (s : Session) (c : Clause) : Session :=
  { s with cnf := s.cnf.push c, stats.clauses := s.stats.clauses + 1 }

def addClauses (s : Session) (cs : List Clause) : Session := cs.foldl addClause s

/-- Draws an auxiliary variable. -/
def fresh (s : Session) : Except LiteralError (Literal × Session) := do
  let (v, supply) := s.supply.draw
  let z ← Literal.positive v
  .ok (z, { s with supply, stats.auxiliaries := s.stats.auxiliaries + 1 })

/-- Gives the node `f` a fresh literal, defined by `gate`. -/
def define (f : Formula) (gate : Gate) (s : Session) : Except LiteralError (Literal × Session) := do
  let (z, s) ← s.fresh
  let s := s.addClauses (gate.clauses z)
  .ok (z, if s.memoize then { s with memo := s.memo.insert f z } else s)

/-- The literal of a node that was encoded before; otherwise what `encode` makes of the node. -/
def recallOr (f : Formula) (encode : Session → Except LiteralError (Literal × Session))
    (s : Session) : Except LiteralError (Literal × Session) :=
  match if s.memoize then s.memo[f]? else none with
  | some z => .ok (z, { s with stats.recalls := s.stats.recalls + 1 })
  | none => encode s

mutual
/-- The literal that stands for a node, and the session after its encoding. -/
def encodeNode : Formula → Session → Except LiteralError (Literal × Session)
  | .literal l, s => .ok (l, s)
  | .not f, s => s.recallOr (.not f) fun s => do
    let (a, s) ← encodeNode f s
    s.define (.not f) (.not a)
  | .and fs, s => s.recallOr (.and fs) fun s => do
    let (as, s) ← encodeNodes fs s
    s.define (.and fs) (.and as)
  | .or fs, s => s.recallOr (.or fs) fun s => do
    let (as, s) ← encodeNodes fs s
    s.define (.or fs) (.or as)
  | .xor f g, s => s.recallOr (.xor f g) fun s => do
    let (a, s) ← encodeNode f s
    let (b, s) ← encodeNode g s
    s.define (.xor f g) (.xor a b)
  | .iff f g, s => s.recallOr (.iff f g) fun s => do
    let (a, s) ← encodeNode f s
    let (b, s) ← encodeNode g s
    s.define (.iff f g) (.iff a b)

def encodeNodes : List Formula → Session → Except LiteralError (List Literal × Session)
  | [], s => .ok ([], s)
  | f :: fs, s => do
    let (a, s) ← encodeNode f s
    let (as, s) ← encodeNodes fs s
    .ok (a :: as, s)
end

/-- Encodes a formula; its root literal is equivalent to it under the emitted clauses. -/
def encode (f : Formula) (s : Session) : Except LiteralError (Literal × Session) :=
  encodeNode f { s with stats.formulas := s.stats.formulas + 1 }

/-- Encodes a formula and demands that it is true. -/
def assert (f : Formula) (s : Session) : Except LiteralError Session := do
  let (root, s) ← s.encode f
  .ok (s.addClause [root])

def assertAll (fs : List Formula) (s : Session) : Except LiteralError Session :=
  fs.foldlM (fun s f => s.assert f) s

/-- Takes `count` variables from the supply for use outside the encoding. -/
def reserve (count : Nat) (s : Session) : Session :=
  { s with supply := (s.supply.drawSpan count).2 }

/-- What the owner of a session may ask of it. -/
inductive Step where
  | encode (f : Formula)
  | assert (f : Formula)
  | clause (c : Clause)
  | reserve (count : Nat)

/-- Only encoding without assertion answers with a root literal. -/
def perform (s : Session) : Step → Except LiteralError (Option Literal × Session)
  | .encode f => do
    let (root, s) ← s.encode f
    .ok (some root, s)
  | .assert f => do .ok (none, ← s.assert f)
  | .clause c => .ok (none, s.addClause c)
  | .reserve count => .ok (none, s.reserve count)

end Session

/-- Encodes one formula into a clause list of its own. -/
def Formula.encode (f : Formula) (supply : Supply) :
    Except LiteralError (Literal × Cnf × Supply) := do
  let (root, s) ← (Session.start supply false).encode f
  .ok (root, s.cnf, s.supply)

/-- Encodes one formula into a clause list of its own that demands it. -/
def Formula.encodeAsserted (f : Formula) (supply : Supply) :
    Except LiteralError (Cnf × Supply) := do
  let s ← (Session.start supply false).assert f
  .ok (s.cnf, s.supply)

end Counterbalance
