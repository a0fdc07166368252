import PatternInference.Dump.Parser
import PatternInference.Equations.Elimination
import PatternInference.Expr.Printer
import PatternInference.Factoring
import PatternInference.Minimization.Result

/-!
A pattern that matches a set of samples: their prefix tree is minimized, the equations of its states
are solved, and the solution is factored. Without interior factoring it matches nothing else.
-/

namespace PatternInference

structure Options where
  simplify : Bool := true
  interior : Bool := true
  grouped : Bool := false
  anchored : Bool := false
deriving DecidableEq

structure Inference where
  options : Options
  samples : Trie Char
deriving DecidableEq

namespace Inference

def create (options : Options) : Inference := ⟨options, .empty⟩

def load (i : Inference) (samples : List (List Char)) : Inference :=
  { i with samples := i.samples.insertMany samples }

def sampleCount (i : Inference) : Nat := i.samples.wordCount

def automaton (i : Inference) (cancelled : Bool) : Except Error (Minimization Char) :=
  if i.sampleCount = 0 then .error (.invalid .samples .noSamples)
  else Minimization.ofTrie i.samples cancelled

def expression (i : Inference) (cancelled : Bool) : Except Error Expr := do
  let dump ← (← i.automaton cancelled).dump
  let system ← Equations.create dump.stateCount dump.initial dump.transitions i.options.grouped
  let solved ← (system.solve cancelled).toExcept
  let e ← solved.unionOf dump.accepting
  if i.options.simplify then Factoring.factor i.options.interior cancelled e else return e

def anchor (pattern : List Char) : List Char := "^(?:".toList ++ pattern ++ ")$".toList

def pattern (i : Inference) (cancelled : Bool) : Except Error (List Char) := do
  let text := (← i.expression cancelled).print
  return if i.options.anchored then anchor text else text

end Inference

def inferPattern (samples : List (List Char)) : Except Error (List Char) :=
  ((Inference.create {}).load samples).pattern false

end PatternInference
