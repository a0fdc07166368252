import PatternInference.Cancellation
import PatternInference.Partition.Split

/-!
A minimization in progress. Its states and its transitions are kept as partitions, into blocks and
cords; while states are pruned, those reached so far stand in front.
-/

namespace PatternInference

/--
`live` states are not pruned and `reached` of them are reached; the first `finals` positions hold the
accepting ones.
-/
structure Minimization (α : Type) where
  stateCount : Nat
  initial : Nat
  columns : Columns α
  blocks : Partition
  cords : Partition
  reached : Nat
  finals : Nat
  live : Nat
  stage : Stage
deriving DecidableEq

namespace Minimization

variable {α : Type}

def create (stateCount initial : Nat) : Except Error (Minimization α) :=
  if initial < stateCount then
    .ok {
      stateCount, initial
      columns := .empty
      blocks := .whole stateCount
      cords := .whole 0
      reached := 0
      finals := 0
      live := stateCount
      stage := .created }
  else .error (.outOfRange .initialState initial stateCount)

def edges (m : Minimization α) : List (Transition α) := m.columns.rows

def store (m : Minimization α) (ts : List (Transition α)) : Minimization α :=
  { m with columns := m.columns.append ts }

def sources (m : Minimization α) : List Nat := m.columns.sources.toList

def targets (m : Minimization α) : List Nat := m.columns.targets.toList

def isLive? (m : Minimization α) (s : Nat) : Option Bool :=
  m.blocks.position[s]?.map fun i => decide (i < m.live)

def refusal? (m : Minimization α) (expected next : Stage) (interrupt : Interrupt) : Option Error :=
  if m.stage ≠ expected then some (.logic (.outOfOrder next expected m.stage))
  else if interrupt = .atStart then some .cancelled
  else none

def reachStage (m : Minimization α) (next : Stage) : Option (Minimization α) → Outcome (Minimization α)
  | some m' => .done { m' with stage := next }
  | none => .failed m (.logic .outOfTable)

end Minimization
end PatternInference
