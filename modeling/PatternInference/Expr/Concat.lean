import PatternInference.Expr.Basic
import PatternInference.Error

namespace PatternInference.Expr

def concat : Expr → Expr → Expr
  | lit [], e => e
  | e, lit [] => e
  | lit s, lit t => lit (s ++ t)
  | seq e (lit s), lit t => seq e (lit (s ++ t))
  | lit s, seq (lit t) e => seq (lit (s ++ t)) e
  | e, f => seq e f

def attach : Side → Expr → Expr → Expr
  | .leading, e, f => concat e f
  | .trailing, e, f => concat f e

def exposed? (side : Side) : Expr → Option (List Char)
  | lit text | pending text _ => some text
  | seq left right =>
    match side with
    | .leading => left.exposed? side
    | .trailing => right.exposed? side
  | alt _ => none

def stripText (side : Side) (affix text : List Char) : Except Error Expr :=
  match side.strip? affix text with
  | some rest => .ok (lit rest)
  | none => .error (.logic (.affixMismatch side text affix))

def strip (side : Side) (affix : List Char) : Expr → Except Error Expr
  | lit text | pending text _ => stripText side affix text
  | seq left right =>
    match side with
    | .leading => (left.strip side affix).map (concat · right)
    | .trailing => (right.strip side affix).map (concat left)
  | alt _ => .error (.logic (.affixOfAlternation side affix))

end PatternInference.Expr
