import PatternInference.Table

/-!
Transitions by state: bucket `s` lists the transitions at `s` in ascending order. The buckets stand
one after the other in a single array, and `offsets[s]` is where bucket `s` begins.
-/

namespace PatternInference

inductive Direction where
  | forward
  | backward
deriving DecidableEq

def Direction.ends {α : Type} : Direction → α → α → α × α
  | forward, source, target => (source, target)
  | backward, source, target => (target, source)

structure Buckets where
  offsets : Array Nat
  entries : Array Nat
deriving DecidableEq

namespace Buckets

def counts? (stateCount : Nat) (tails : List Nat) : Option (Array Nat) :=
  tails.foldlM (fun t s => do Table.put? t s ((← t[s]?) + 1)) (Array.replicate (stateCount + 1) 0)

def sums? (stateCount : Nat) (table : Array Nat) : Option (Array Nat) :=
  (List.range stateCount).foldlM (fun t s => do Table.put? t (s + 1) ((← t[s + 1]?) + (← t[s]?))) table

def place? (b : Buckets) (s t : Nat) : Option Buckets := do
  match ← b.offsets[s]? with
  | 0 => none
  | free + 1 =>
    return { offsets := ← Table.put? b.offsets s free, entries := ← Table.put? b.entries free t }

def ofTails? (stateCount : Nat) (tails : List Nat) : Option Buckets := do
  let offsets ← sums? stateCount (← counts? stateCount tails)
  tails.zipIdx.reverse.foldlM (fun b (s, t) => b.place? s t)
    ⟨offsets, Array.replicate tails.length 0⟩

def bucket? (b : Buckets) (s : Nat) : Option (List Nat) := do
  Table.slice? b.entries (← b.offsets[s]?) (← b.offsets[s + 1]?)

def along? (direction : Direction) (stateCount : Nat) (sources targets : List Nat) : Option Buckets :=
  ofTails? stateCount (direction.ends sources targets).1

end Buckets
end PatternInference
