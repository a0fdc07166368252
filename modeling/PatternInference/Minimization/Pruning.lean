import PatternInference.Buckets
import PatternInference.Minimization.Basic

/-!
Dropping the states that the reached ones do not lead to. Reached states are moved to the front of the
blocks' order, which serves as the worklist.
-/

namespace PatternInference.Minimization

variable {α : Type}

structure Frontier where
  states : Partition
  reached : Nat

def Frontier.reach? (f : Frontier) (s : Nat) : Option Frontier := do
  let i ← f.states.position[s]?
  if i < f.reached then return f
  return { states := ← f.states.swap? i f.reached, reached := f.reached + 1 }

def Frontier.spreadFrom? (buckets : Buckets) (heads : Array Nat) (i : Nat) (f : Frontier) :
    Option Frontier := do
  let s ← f.states.order[i]?
  (← buckets.bucket? s).foldlM (fun f t => do f.reach? (← heads[t]?)) f

def Frontier.spread? (buckets : Buckets) (heads : Array Nat) :
    Nat → Nat → Frontier → Option Frontier
  | 0, i, f => if i < f.reached then none else some f
  | fuel + 1, i, f =>
    if i < f.reached then
      (f.spreadFrom? buckets heads i).bind (Frontier.spread? buckets heads fuel (i + 1))
    else some f

def tail (direction : Direction) (t : Transition α) : Nat := (direction.ends t.source t.target).1

def leaving? (states : Partition) (reached : Nat) (direction : Direction) (columns : Columns α) :
    Option (Columns α) :=
  columns.compact? fun c t => do
    let s ← (direction.ends c.sources c.targets).1[t]?
    return decide ((← states.position[s]?) < reached)

def prune? (direction : Direction) (m : Minimization α) : Option (Minimization α) := do
  let (tails, heads) := direction.ends m.sources m.targets
  let buckets ← Buckets.ofTails? m.stateCount tails
  let f ← Frontier.spread? buckets heads.toArray m.stateCount 0 ⟨m.blocks, m.reached⟩
  return { m with
    columns := ← leaving? f.states f.reached direction m.columns
    blocks := ← f.states.truncate? f.reached
    live := f.reached
    reached := 0 }

def reach? (m : Minimization α) (s : Nat) : Option (Minimization α) := do
  let f ← Frontier.reach? ⟨m.blocks, m.reached⟩ s
  return { m with blocks := f.states, reached := f.reached }

def reachLive? (m : Minimization α) (states : List Nat) : Option (Minimization α) :=
  states.foldlM (fun m s => do if ← m.isLive? s then m.reach? s else return m) m

end PatternInference.Minimization
