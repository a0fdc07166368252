import PatternInference.Buckets
import PatternInference.Partition.Split

/-!
Refining blocks of states and cords of transitions against each other. A cord splits the blocks that
hold sources of it, a block splits the cords that lead into it. Block 0 need not be used: a cord that
the other blocks do not split apart is not split by it either.
-/

namespace PatternInference

structure Refinement where
  blocks : Partition
  cords : Partition
  next : Nat

namespace Refinement

def splitBlocks? (sources : Array Nat) (cord : Nat) (r : Refinement) : Option Refinement := do
  let marked ← (← r.cords.members? cord).foldlM (fun p t => do p.mark? (← sources[t]?)) r.blocks
  return { r with blocks := ← marked.split? }

def splitCords? (incoming : Buckets) (r : Refinement) (block : Nat) : Option Refinement := do
  let marked ← (← r.blocks.members? block).foldlM
    (fun p s => do (← incoming.bucket? s).foldlM Partition.mark? p) r.cords
  return { r with cords := ← marked.split? }

def round? (sources : Array Nat) (incoming : Buckets) (cord : Nat) (r : Refinement) :
    Option Refinement := do
  let r ← r.splitBlocks? sources cord
  let stop := r.blocks.setCount
  let r ← (List.range' r.next (stop - r.next)).foldlM (splitCords? incoming) r
  return { r with next := max r.next stop }

def run? (sources : Array Nat) (incoming : Buckets) : Nat → Nat → Refinement → Option Refinement
  | 0, cord, r => if cord < r.cords.setCount then none else some r
  | fuel + 1, cord, r =>
    if cord < r.cords.setCount then
      (r.round? sources incoming cord).bind (run? sources incoming fuel (cord + 1))
    else some r

end Refinement
end PatternInference
