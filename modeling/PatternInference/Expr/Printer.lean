import PatternInference.Expr.Basic

/-!
Expressions as regular expressions. A backslash takes the meaning off a special character; an
alternation inside a concatenation stands in parentheses.
-/

namespace PatternInference.Expr

def special : List Char := "\\.+*?()|[]\x7b\x7d^$#&-~".toList

def escape (text : List Char) : List Char :=
  text.flatMap fun c => if c ∈ special then ['\\', c] else [c]

def factor (branches : Nat) (text : List Char) : List Char :=
  if 1 < branches then '(' :: text ++ [')'] else text

mutual

def print : Expr → List Char
  | lit text | pending text _ => escape text
  | alt parts => printBranches parts
  | seq left right => factor left.branchCount left.print ++ factor right.branchCount right.print

def printBranches : List Expr → List Char
  | [] => []
  | [e] => e.print
  | e :: rest => e.print ++ '|' :: printBranches rest

end

end PatternInference.Expr
