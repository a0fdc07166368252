import PatternInference.Minimization.Pruning
import PatternInference.Minimization.Refinement
import PatternInference.Partition.Runs
import PatternInference.Symbol

/-!
The steps of a minimization, in their order: `load`, `setFinals`, `partition`, `refine`. A step out of
order, or cancelled, changes nothing; a step that meets a faulty item keeps the items before it.
-/

namespace PatternInference.Minimization

variable {α : Type}

def finalFault? (stateCount s : Nat) : Option Error :=
  if stateCount ≤ s then some (.outOfRange .acceptingStates s stateCount) else none

def stopPruning (m : Minimization α) : Outcome (Minimization α) :=
  match m.reach? m.initial, Buckets.along? .forward m.stateCount m.sources m.targets with
  | some m, some _ => .failed m .cancelled
  | _, _ => .failed m (.logic .outOfTable)

def load (m : Minimization α) (edges : List (Transition α)) (interrupt : Interrupt) :
    Outcome (Minimization α) :=
  match m.refusal? .created .loaded interrupt with
  | some e => .failed m e
  | none =>
    let (front, e?) := interrupt.accept (Transition.fault? m.stateCount) edges
    let m := m.store front
    match e? with
    | some e => .failed m e
    | none =>
      if interrupt = .atEnd then m.stopPruning
      else m.reachStage .loaded ((m.reach? m.initial).bind (prune? .forward))

def setFinals (m : Minimization α) (finals : List Nat) (interrupt : Interrupt) :
    Outcome (Minimization α) :=
  match m.refusal? .loaded .finalsSet interrupt with
  | some e => .failed m e
  | none =>
    let (front, e?) := interrupt.accept (finalFault? m.stateCount) finals
    match m.reachLive? front, e? with
    | none, _ => .failed m (.logic .outOfTable)
    | some m, some e => .failed m e
    | some m, none => .done { m with finals := m.reached, stage := .finalsSet }

def partition? [DecidableEq α] [OrderedSymbol α] (m : Minimization α) : Option (Minimization α) := do
  let m ← m.prune? .backward
  return { m with
    blocks := ← (← m.blocks.markFirst? 0 m.finals).split?
    cords := ← Partition.ofKeys? OrderedSymbol.le m.columns.symbols.toList }

def partition [DecidableEq α] [OrderedSymbol α] (m : Minimization α) (cancelled : Bool) :
    Outcome (Minimization α) :=
  match m.refusal? .finalsSet .partitioned (.ofBool cancelled) with
  | some e => .failed m e
  | none =>
    if m.finals = 0 then .failed m (.invalid .acceptingStates .noReachableAccepting)
    else m.reachStage .partitioned m.partition?

def refine? (m : Minimization α) : Option (Minimization α) := do
  let incoming ← Buckets.along? .backward m.stateCount m.sources m.targets
  let r ← Refinement.run? m.columns.sources incoming m.columns.size 0 ⟨m.blocks, m.cords, 1⟩
  return { m with blocks := r.blocks, cords := r.cords }

def refine (m : Minimization α) (cancelled : Bool) : Outcome (Minimization α) :=
  match m.refusal? .partitioned .refined (.ofBool cancelled) with
  | some e => .failed m e
  | none => m.reachStage .refined m.refine?

variable [DecidableEq α] [OrderedSymbol α]

def finish (m : Minimization α) (cancelled : Bool) : Outcome (Minimization α) :=
  (m.partition cancelled).andThen (·.refine cancelled)

def run (stateCount initial : Nat) (edges : List (Transition α)) (finals : List Nat)
    (cancelled : Bool) : Except Error (Minimization α) := do
  let m ← create stateCount initial
  ((m.load edges (.ofBool cancelled)).andThen fun m =>
    (m.setFinals finals (.ofBool cancelled)).andThen (·.finish cancelled)).toExcept

end PatternInference.Minimization
