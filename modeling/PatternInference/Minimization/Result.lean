import PatternInference.Minimization.Steps
import PatternInference.Trie.Walk

/-!
What a finished minimization says: its blocks as states, and the edges that leave the first state of a
block as transitions.
-/

namespace PatternInference.Minimization

variable {α : Type}

def finished (m : Minimization α) (reading : Reading) : Except Error Unit :=
  if m.stage = .refined then .ok () else .error (.logic (.unfinished reading))

def blockEdge? (m : Minimization α) (t : Transition α) : Option (Option (Transition α)) := do
  let source ← m.blocks.owner[t.source]?
  let target ← m.blocks.owner[t.target]?
  return if ← m.blocks.isFirst? t.source then some ⟨source, t.symbol, target⟩ else none

def transitions (m : Minimization α) : Except Error (List (Transition α)) := do
  m.finished .transitions
  let edges ← Error.ofTable (m.edges.mapM m.blockEdge?)
  return edges.filterMap id

def acceptingBlocks (m : Minimization α) : Except Error (List Nat) := do
  m.finished .acceptingBlocks
  let starts ← Error.ofTable ((List.range m.blocks.setCount).mapM (m.blocks.start[·]?))
  return (starts.zipIdx.filter fun (start, _) => decide (start < m.finals)).map (·.2)

def dump (m : Minimization α) : Except Error (Dump α) := do
  let transitions ← m.transitions
  let accepting ← m.acceptingBlocks
  let initial ← Error.ofTable m.blocks.owner[m.initial]?
  return { stateCount := m.blocks.setCount, initial, transitions, accepting }

def shape (m : Minimization α) : Except Error Shape := return (← m.dump).shape

def blockOf? (m : Minimization α) (s : Nat) : Option Nat :=
  if m.stage = .refined ∧ s < m.stateCount ∧ m.isLive? s = some true then m.blocks.owner[s]? else none

variable [DecidableEq α] [OrderedSymbol α]

def ofTrie (t : Trie α) (cancelled : Bool) : Except Error (Minimization α) :=
  run t.stateCount 0 t.transitions t.accepted cancelled

def ofDump (d : Dump α) (cancelled : Bool) : Except Error (Minimization α) :=
  run d.stateCount d.initial d.transitions d.accepting cancelled

end PatternInference.Minimization
