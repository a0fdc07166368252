import PatternInference.Table

/-!
Peeling off states that no transition enters, with the transitions from them, until none is left. The
states on a cycle stay, and so do those that a cycle leads to.
-/

namespace PatternInference.Equations

variable {α : Type}

/--
`waiting` counts the transitions into each state that are not taken away yet and `leading` lists where
those from it lead; `ready` has the states that nothing enters, the next one in front.
-/
structure Peel where
  waiting : Array Nat
  leading : Array (List Nat)
  ready : List Nat
  peeled : Nat

namespace Peel

def blank (n : Nat) : Peel := ⟨Array.replicate n 0, Array.replicate n [], [], 0⟩

def enter? (p : Peel) (t : Transition α) : Option Peel := do
  return { p with
    waiting := ← Table.put? p.waiting t.target ((← p.waiting[t.target]?) + 1)
    leading := ← Table.put? p.leading t.source ((← p.leading[t.source]?) ++ [t.target]) }

def offer? (p : Peel) (s : Nat) : Option Peel := do
  return { p with ready := if (← p.waiting[s]?) = 0 then s :: p.ready else p.ready }

def start? (n : Nat) (edges : List (Transition α)) : Option Peel := do
  (List.range n).foldlM offer? (← edges.foldlM enter? (blank n))

def release? (p : Peel) (s : Nat) : Option Peel := do
  match ← p.waiting[s]? with
  | 0 => none
  | left + 1 =>
    return { p with
      waiting := ← Table.put? p.waiting s left
      ready := if left = 0 then s :: p.ready else p.ready }

def run? : Nat → Peel → Option Peel
  | 0, p => if p.ready.isEmpty then some p else none
  | fuel + 1, p =>
    match p.ready with
    | [] => some p
    | s :: ready => do
      let targets ← p.leading[s]?
      run? fuel (← targets.foldlM release? { p with ready, peeled := p.peeled + 1 })

end Peel

def peeled? (n : Nat) (edges : List (Transition α)) : Option Nat := do
  return (← Peel.run? n (← Peel.start? n edges)).peeled

end PatternInference.Equations
