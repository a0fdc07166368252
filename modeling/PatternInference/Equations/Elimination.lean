import PatternInference.Equations.Basic
import PatternInference.Cancellation
import PatternInference.Expr.Substitution

/-!
Solving the equations in rounds: the solutions found last are put into the other equations, and those
that wait for nothing more are solved.
-/

namespace PatternInference.Equations

def substituteIn (found : List (Nat × Expr)) (e : Expr) : Expr :=
  found.foldl (fun e (s, solution) => e.substitute s solution) e

def round (q : Equations) (found : List (Nat × Expr)) : Equations × List (Nat × Expr) :=
  let (done, rest) := (q.unsolved.map fun (s, e) => (s, substituteIn found e)).partition (·.2.isSolved)
  let solutions := done.map fun (s, e) => (s, e.normalize)
  ({ q with unsolved := rest, solved := q.solved ++ solutions }, solutions)

def rounds : Nat → Equations → List (Nat × Expr) → Outcome Equations
  | fuel, q, found =>
    if q.stateCount ≤ q.solved.length then .done q
    else
      match fuel, found with
      | 0, _ | _, [] => .failed q (.logic (.unsolved q.solved.length q.stateCount))
      | fuel + 1, found => let (q, found) := q.round found; rounds fuel q found

def solve (q : Equations) (cancelled : Bool) : Outcome Equations :=
  if cancelled ∧ q.solved.length < q.stateCount then .failed q .cancelled
  else rounds (q.unsolved.length + 1) q [(q.initial, .epsilon)]

def ascending (states : List Nat) : List Nat :=
  (states.mergeSort fun a b => decide (a ≤ b)).eraseReps

def unionOf (q : Equations) (accepting : List Nat) : Except Error Expr := do
  let parts ← (ascending accepting).mapM fun s =>
    match q.solution? s with
    | some e => .ok e
    | none => .error (.logic (.noSolution s))
  match parts with
  | [] => .error (.invalid .acceptingStates .noAccepting)
  | [e] => return e
  | parts => return .union parts

end PatternInference.Equations
