import Mathlib.Computability.RegularExpressions
import Mathlib.Tactic.Lemma

namespace PatternInference.Pattern

def metacharacters : List Char :=
  ['\\', '.', '+', '*', '?', '(', ')', '|', '[', ']', '\x7b', '\x7d', '^', '$', '#', '&', '-', '~']

structure Scope where
  before : RegularExpression Char
  current : RegularExpression Char

namespace Scope

def opened : Scope := ⟨0, 1⟩

def whole (g : Scope) : RegularExpression Char := g.before + g.current

def push (g : Scope) (r : RegularExpression Char) : Scope := ⟨g.before, g.current * r⟩

def split (g : Scope) : Scope := ⟨g.whole, 1⟩

end Scope

def read? : List Char → Scope → List Scope → Option (RegularExpression Char)
  | [], g, [] => some g.whole
  | ['$'], g, [] => some g.whole
  | '\\' :: c :: rest, g, outer => if c ∈ metacharacters then read? rest (g.push (.char c)) outer else none
  | '(' :: '?' :: ':' :: rest, g, outer => read? rest .opened (g :: outer)
  | '(' :: rest, g, outer => read? rest .opened (g :: outer)
  | ')' :: rest, g, h :: outer => read? rest (h.push g.whole) outer
  | '|' :: rest, g, outer => read? rest g.split outer
  | c :: rest, g, outer => if c ∈ metacharacters then none else read? rest (g.push (.char c)) outer
  | [], _, _ :: _ => none

def parse? : List Char → Option (RegularExpression Char)
  | '^' :: rest => read? rest .opened []
  | text => read? text .opened []

variable {c : Char} {rest : List Char} {g h : Scope} {outer : List Scope}

lemma read?_group : read? ('(' :: '?' :: ':' :: rest) g outer = read? rest .opened (g :: outer) := rfl

lemma read?_close : read? (')' :: rest) g (h :: outer) = read? rest (h.push g.whole) outer := rfl

lemma read?_bar : read? ('|' :: rest) g outer = read? rest g.split outer := rfl

lemma read?_end : read? [] g [] = some g.whole := rfl

lemma read?_stop : read? ['$'] g [] = some g.whole := rfl

lemma read?_escaped (hc : c ∈ metacharacters) : read? ('\\' :: c :: rest) g outer = read? rest (g.push (.char c)) outer :=
  if_pos hc

lemma read?_plain (hc : c ∉ metacharacters) : read? (c :: rest) g outer = read? rest (g.push (.char c)) outer := by
  have hne : c ≠ '$' ∧ c ≠ '\\' ∧ c ≠ '(' ∧ c ≠ ')' ∧ c ≠ '|' := by
    simp only [metacharacters, List.mem_cons, not_or] at hc
    simp only [ne_eq, hc, not_false_eq_true, and_self]
  rw [read?, if_neg hc] <;> simp [hne]

lemma read?_open (hrest : rest.head? ≠ some '?') : read? ('(' :: rest) g outer = read? rest .opened (g :: outer) := by
  rw [read?]
  intro _ hquestion
  simp [hquestion] at hrest

end PatternInference.Pattern
