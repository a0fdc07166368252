import PatternInference.Equations.Acyclic
import PatternInference.Expr.Union

/-!
The words that lead to a state, as equations: a word that leads to `s` leads to a predecessor of `s`
and goes on with a symbol from there. The equation of the initial state is the empty word.
-/

namespace PatternInference

structure Equations where
  stateCount : Nat
  initial : Nat
  unsolved : List (Nat × Expr)
  solved : List (Nat × Expr)
deriving DecidableEq

namespace Equations

def unentered? (stateCount initial : Nat) (edges : List (Transition Char)) : Option Nat :=
  (List.range (min stateCount (edges.length + 2))).find? fun s =>
    s != initial && !edges.any fun t => t.target == s

def predecessors (grouped : Bool) (incoming : List (Transition Char)) : List (Nat × List Char) :=
  if grouped then
    (incoming.map Transition.source).eraseDups.map fun p =>
      (p, (incoming.filter fun t => t.source == p).map Transition.symbol)
  else incoming.map fun t => (t.source, [t.symbol])

def term : Nat × List Char → Expr
  | (p, [c]) => .pending [c] p
  | (p, cs) => .seq (.pending [] p) (.union (cs.map fun c => .lit [c]))

def equation (grouped : Bool) (edges : List (Transition Char)) (s : Nat) : Expr :=
  .alt ((predecessors grouped (edges.filter fun t => t.target == s)).map term)

def create (stateCount initial : Nat) (edges : List (Transition Char)) (grouped : Bool) :
    Except Error Equations :=
  if stateCount ≤ initial then .error (.outOfRange .initialState initial stateCount)
  else
    match edges.findSome? (Transition.fault? stateCount), unentered? stateCount initial edges with
    | some e, _ => .error e
    | none, some s => .error (.invalid .transitions (.noIncoming s))
    | none, none =>
      match peeled? stateCount edges with
      | none => .error (.logic .outOfTable)
      | some peeled =>
        if peeled < stateCount then
          .error (.invalid .transitions (.cyclic (stateCount - peeled) stateCount))
        else
          .ok {
            stateCount, initial
            unsolved := ((List.range stateCount).filter (· != initial)).map fun s =>
              (s, equation grouped edges s)
            solved := [(initial, .epsilon)] }

def solution? (q : Equations) (s : Nat) : Option Expr := q.solved.lookup s

def isSolved (q : Equations) : Bool := q.unsolved.isEmpty

end Equations
end PatternInference
