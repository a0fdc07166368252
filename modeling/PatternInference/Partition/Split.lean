import PatternInference.Cancellation
import PatternInference.Partition.Basic

/-!
Splitting the sets of a partition along their marks. The smaller part of a set becomes the new one, on
a tie the marked part, so that an element changes its set only when its set at least halves.
-/

namespace PatternInference.Partition

def assign? (p : Partition) (s start stop : Nat) : Option Partition := do
  let members ← Table.slice? p.order start stop
  return { p with
    start := ← Table.put? p.start s start
    stop := ← Table.put? p.stop s stop
    owner := ← Table.scatter? p.owner (members.map (·, s))
    marks := ← Table.put? p.marks s 0 }

def keep? (p : Partition) (s start stop : Nat) : Option Partition := do
  return { p with
    start := ← Table.put? p.start s start
    stop := ← Table.put? p.stop s stop
    marks := ← Table.put? p.marks s 0 }

def splitSet? (p : Partition) (s : Nat) : Option Partition := do
  let start ← p.start[s]?
  let stop ← p.stop[s]?
  let marks ← p.marks[s]?
  let border := start + marks
  if stop < border then none
  else if border = stop then p.keep? s start stop
  else
    let fresh := p.setCount
    let q := { p with setCount := fresh + 1 }
    if marks ≤ stop - border then (← q.assign? fresh start border).keep? s border stop
    else (← q.assign? fresh border stop).keep? s start border

def split? (p : Partition) : Option Partition :=
  p.pending.foldlM splitSet? { p with pending := [] }

def splitUnless? (p : Partition) (cancelled : Bool) : Option (Outcome Partition) :=
  match cancelled, p.pending with
  | true, _ :: rest => some (.failed { p with pending := rest } .cancelled)
  | _, _ => p.split?.map .done

end PatternInference.Partition
