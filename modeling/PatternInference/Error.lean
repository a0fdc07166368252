import PatternInference.Dump.Fault
import PatternInference.Text.Side

namespace PatternInference

inductive Stage where
  | created
  | loaded
  | finalsSet
  | partitioned
  | refined
deriving DecidableEq

def Stage.name : Stage → String
  | created => "new"
  | loaded => "load_transitions"
  | finalsSet => "set_final_states"
  | partitioned => "partition_transitions"
  | refined => "split_blocks_and_cords"

inductive Reading where
  | transitions
  | acceptingBlocks
deriving DecidableEq

def Reading.name : Reading → String
  | transitions => "transitions"
  | acceptingBlocks => "accepting_blocks"

inductive Argument where
  | transitions
  | initialState
  | acceptingStates
  | samples
  | dump
deriving DecidableEq

def Argument.name : Argument → String
  | transitions => "transitions"
  | initialState => "initial_state"
  | acceptingStates => "accepting_states"
  | samples => "samples"
  | dump => "dump"

inductive Fault where
  | stateOutOfRange (state stateCount : Nat)
  | noIncoming (state : Nat)
  | cyclic (behind stateCount : Nat)
  | noReachableAccepting
  | noAccepting
  | noSamples
  | line (number : Nat) (fault : Dump.Fault)
  | other (reason : String)
deriving DecidableEq

def Fault.reason : Fault → String
  | stateOutOfRange state stateCount => s!"state {state} is out of range (state count {stateCount})"
  | noIncoming state => s!"state {state} has no incoming transition"
  | cyclic behind stateCount =>
    s!"automaton is cyclic: {behind} of {stateCount} states lie on or behind a cycle"
  | noReachableAccepting => "no accepting state is reachable, the language is empty"
  | noAccepting => "no accepting state, the language is empty"
  | noSamples => "sample set is empty"
  | line number fault => s!"line {number}: " ++ fault.reason
  | other reason => reason

inductive Defect where
  | outOfOrder (next expected last : Stage)
  | unfinished (reading : Reading)
  | unsolved (solved total : Nat)
  | noSolution (state : Nat)
  | affixMismatch (side : Side) (text affix : List Char)
  | affixOfAlternation (side : Side) (affix : List Char)
  | outOfTable
  | outOfFuel
  | other (reason : String)
deriving DecidableEq

def Defect.reason : Defect → String
  | outOfOrder next expected last =>
    "`" ++ next.name ++ "` must follow `" ++ expected.name ++
      "`, but the last completed step was `" ++ last.name ++ "`"
  | unfinished reading => "`" ++ reading.name ++ "` called before minimization finished"
  | unsolved solved total => s!"equation system does not converge: {solved} of {total} states solved"
  | noSolution state => s!"accepting state {state} has no solution"
  | affixMismatch side text affix =>
    "literal `" ++ String.ofList text ++ "` does not " ++ side.verb ++ " with `" ++
      String.ofList affix ++ "`"
  | affixOfAlternation side affix =>
    "cannot strip " ++ side.affixName ++ " `" ++ String.ofList affix ++ "` from an alternation"
  | outOfTable => "an index left its table"
  | outOfFuel => "a bounded search did not finish"
  | other reason => reason

inductive Error where
  | invalid (argument : Argument) (fault : Fault)
  | cancelled
  | logic (defect : Defect)
deriving DecidableEq

namespace Error

def message : Error → String
  | invalid argument fault => "invalid `" ++ argument.name ++ "`: " ++ fault.reason
  | cancelled => "operation cancelled"
  | logic defect => "internal logic error: " ++ defect.reason

def isCancelled : Error → Bool
  | cancelled => true
  | _ => false

def ofTable {α : Type} : Option α → Except Error α
  | some a => .ok a
  | none => .error (logic .outOfTable)

end Error
end PatternInference
