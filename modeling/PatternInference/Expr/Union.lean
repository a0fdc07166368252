import PatternInference.Expr.Basic
import PatternInference.Text.Order

/-!
Alternations in normal form: no branch is an alternation, the literals come first in the order of
their texts, the other branches follow as they first occur.
-/

namespace PatternInference.Expr

def text (e : Expr) : List Char := e.literalText?.getD []

theorem sizeOf_append (es fs : List Expr) : sizeOf (es ++ fs) + 1 = sizeOf es + sizeOf fs := by
  induction es with
  | nil =>
    rw [List.nil_append, List.nil.sizeOf_spec]
    omega
  | cons e es ih =>
    rw [List.cons_append, List.cons.sizeOf_spec, List.cons.sizeOf_spec]
    omega

def gather : List Expr → List Expr → List Expr → List Expr × List Expr
  | [], literals, composites => (literals, composites)
  | alt parts :: rest, literals, composites => gather (parts ++ rest) literals composites
  | seq left right :: rest, literals, composites =>
    gather rest literals
      (if seq left right ∈ composites then composites else composites ++ [seq left right])
  | e :: rest, literals, composites => gather rest (literals ++ [e]) composites
termination_by stack => sizeOf stack
decreasing_by
  · have hsize := sizeOf_append parts rest
    rw [List.cons.sizeOf_spec, Expr.alt.sizeOf_spec]
    omega
  · rw [List.cons.sizeOf_spec]
    omega
  · rw [List.cons.sizeOf_spec]
    omega

-- equal texts keep their order; of equal neighbours one stays
def sorted (literals : List Expr) : List Expr :=
  (literals.mergeSort fun e f => Text.le e.text f.text).eraseReps

def ofBranches : List Expr → Expr
  | [e] => e
  | es => alt es

def union (parts : List Expr) : Expr :=
  let (literals, composites) := gather parts [] []
  ofBranches (sorted literals ++ composites)

def normalize : Expr → Expr
  | alt parts => union parts
  | e => e

end PatternInference.Expr
