import PatternInference.Table

/-!
Partitions of `0 .. n - 1` into numbered sets. Each set is a range of one array, its marked members in
front. Every operation checks its indices: `none` means that one of them is outside its table.
-/

namespace PatternInference

/--
`order` holds the elements set by set and `position` is its inverse; `owner` is the set of an
element. Set `s` is the range from `start[s]` to `stop[s]`, of which the first `marks[s]` members are
marked; `pending` lists the sets with marks, the latest first.
-/
structure Partition where
  order : Array Nat
  position : Array Nat
  owner : Array Nat
  start : Array Nat
  stop : Array Nat
  marks : Array Nat
  setCount : Nat
  pending : List Nat
deriving DecidableEq

namespace Partition

def whole (n : Nat) : Partition where
  order := Array.range n
  position := Array.range n
  owner := Array.replicate n 0
  start := Array.replicate (max n 1) 0
  stop := (Array.replicate (max n 1) 0).setIfInBounds 0 n
  marks := Array.replicate (max n 1) 0
  setCount := min n 1
  pending := []

def size (p : Partition) : Nat := p.order.size

def members? (p : Partition) (s : Nat) : Option (List Nat) := do
  Table.slice? p.order (← p.start[s]?) (← p.stop[s]?)

def isFirst? (p : Partition) (e : Nat) : Option Bool := do
  return (← p.position[e]?) == (← p.start[← p.owner[e]?]?)

def swap? (p : Partition) (i j : Nat) : Option Partition := do
  let a ← p.order[i]?
  let b ← p.order[j]?
  let order ← Table.scatter? p.order [(i, b), (j, a)]
  let position ← Table.scatter? p.position [(b, i), (a, j)]
  return { p with order, position }

def truncate? (p : Partition) (length : Nat) : Option Partition := do
  return { p with stop := ← Table.put? p.stop 0 length }

def mark? (p : Partition) (e : Nat) : Option Partition := do
  let s ← p.owner[e]?
  let i ← p.position[e]?
  let marks ← p.marks[s]?
  let border := (← p.start[s]?) + marks
  if i < border then return p
  let q ← p.swap? i border
  let table ← Table.put? q.marks s (marks + 1)
  return { q with marks := table, pending := if marks = 0 then s :: q.pending else q.pending }

def markFirst? (p : Partition) (s length : Nat) : Option Partition := do
  if length = 0 then return p
  return { p with marks := ← Table.put? p.marks s length, pending := s :: p.pending }

end Partition
end PatternInference
