import PatternInference.Automaton
import PatternInference.Trie.Basic

/-!
The edges of a prefix tree in preorder, one at a time. A walk holds the states on the current path,
the deepest one first, each with the children it has still to visit.
-/

namespace PatternInference.Trie

variable {α : Type}

structure Frame (α : Type) where
  state : Nat
  rest : List (α × Nat)

abbrev Walk (α : Type) := List (Frame α)

def walk (t : Trie α) : Walk α := [⟨0, t.children 0⟩]

def Walk.next? (t : Trie α) : Walk α → Option (Transition α × Walk α)
  | [] => none
  | ⟨_, []⟩ :: outer => Walk.next? t outer
  | ⟨s, (a, c) :: rest⟩ :: outer => some (⟨s, a, c⟩, ⟨c, t.children c⟩ :: ⟨s, rest⟩ :: outer)

def Walk.take (t : Trie α) : Nat → Walk α → List (Transition α)
  | 0, _ => []
  | n + 1, w =>
    match Walk.next? t w with
    | some (edge, w) => edge :: Walk.take t n w
    | none => []

def transitions (t : Trie α) : List (Transition α) := Walk.take t t.stateCount t.walk

end PatternInference.Trie
