import PatternInference.Partition.Basic

namespace PatternInference.Partition

def cut? (p : Partition) (i : Nat) : Option Partition := do
  return { p with
    stop := ← Table.put? p.stop p.setCount i
    start := ← Table.put? p.start (p.setCount + 1) i
    setCount := p.setCount + 1 }

def advance? (order : Array Nat) (alike : Nat → Nat → Bool) (p : Partition) (i e : Nat) : Option Partition :=
  if i = 0 then some p else do
    if alike (← order[i - 1]?) e then some p else p.cut? i

def place? (p : Partition) (e i : Nat) : Option Partition := do
  return { p with
    owner := ← Table.put? p.owner e p.setCount
    position := ← Table.put? p.position e i }

def settle? (order : Array Nat) (alike : Nat → Nat → Bool) (p : Partition) (i : Nat) : Option Partition := do
  let e ← order[i]?
  (← advance? order alike p i e).place? e i

def ofRuns? (order : List Nat) (alike : Nat → Nat → Bool) : Option Partition := do
  let n := order.length
  if n = 0 then return whole 0
  -- while it is built `setCount` is the number of the last set
  let p := { whole n with setCount := 0, start := ← Table.put? (whole n).start 0 0 }
  let p ← (List.range n).foldlM (settle? order.toArray alike) p
  return { p with
    stop := ← Table.put? p.stop p.setCount n
    setCount := p.setCount + 1
    order := order.toArray }

def ofKeys? {κ : Type} [DecidableEq κ] (le : κ → κ → Bool) (keys : List κ) : Option Partition :=
  let table := keys.toArray
  let order := keys.zipIdx.mergeSort fun x y => le x.1 y.1
  ofRuns? (order.map (·.2)) fun a b => table[a]? == table[b]?

end PatternInference.Partition
