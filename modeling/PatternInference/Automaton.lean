import PatternInference.Error

namespace PatternInference

structure Transition (α : Type) where
  source : Nat
  symbol : α
  target : Nat
deriving DecidableEq

structure Shape where
  states : Nat
  transitions : Nat
  initial : Nat
  accepting : Nat
deriving DecidableEq

structure Dump (α : Type) where
  stateCount : Nat
  initial : Nat
  transitions : List (Transition α)
  accepting : List Nat
deriving DecidableEq

def Dump.shape {α : Type} (d : Dump α) : Shape where
  states := d.stateCount
  transitions := d.transitions.length
  initial := d.initial
  accepting := d.accepting.length

def Error.outOfRange (argument : Argument) (s stateCount : Nat) : Error :=
  .invalid argument (.stateOutOfRange s stateCount)

-- the source is looked at before the target
def Transition.fault? {α : Type} (stateCount : Nat) (t : Transition α) : Option Error :=
  if stateCount ≤ t.source then some (.outOfRange .transitions t.source stateCount)
  else if stateCount ≤ t.target then some (.outOfRange .transitions t.target stateCount)
  else none

end PatternInference
