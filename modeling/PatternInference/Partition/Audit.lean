import PatternInference.Partition.Basic

/-!
The check that a partition is in order: `position` inverts `order`, the sets are ranges that follow
one another from position 0 without gap, none of them empty, and `owner` agrees with them.
-/

namespace PatternInference.Partition

def rangeLe : Nat × Nat × Nat → Nat × Nat × Nat → Bool
  | (a, b, s), (c, d, t) => decide (a < c) || (decide (a = c) && (decide (b < d) || (decide (b = d) && decide (s ≤ t))))

def ranges? (p : Partition) : Option (List (Nat × Nat × Nat)) := do
  let ranges ← (List.range p.setCount).mapM fun s => do
    return (← p.start[s]?, ← p.stop[s]?, s)
  return ranges.mergeSort rangeLe

def tiled (p : Partition) (cursor : Nat) : List (Nat × Nat × Nat) → Bool
  | [] => true
  | (start, stop, s) :: rest =>
    start == cursor && decide (start < stop) &&
      ((Table.slice? p.order start stop).any fun members =>
        members.all fun e => p.owner[e]? == some s) &&
      p.tiled stop rest

def inverted (p : Partition) : Bool :=
  p.order.toList.zipIdx.all fun (e, i) => p.position[e]? == some i

def inOrder (p : Partition) : Bool :=
  p.inverted && p.ranges?.any (p.tiled 0)

end PatternInference.Partition
