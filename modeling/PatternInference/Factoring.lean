import PatternInference.Cancellation
import PatternInference.Expr.Concat
import PatternInference.Expr.Union
import PatternInference.Text.CommonPrefix
import PatternInference.Text.CommonSubstring

/-!
Making an alternation shorter by writing what its branches share once: a prefix, an interior text, or
a suffix, the first of these that applies, as long as one does. Each time letters go away, so their
number bounds the work.
-/

namespace PatternInference.Factoring

open PatternInference.Expr (concat lit union)

def mostShared? (symbols : List Char) : Option Char :=
  symbols.foldl
    (fun best c =>
      let n := symbols.count c
      match best with
      | none => if 2 ≤ n then some c else none
      | some b =>
        let m := symbols.count b
        if m < n ∨ m = n ∧ c.toNat < b.toNat then some c else some b)
    none

def outermost? (side : Side) (e : Expr) : Option Char :=
  (e.exposed? side).bind fun text => (side.inward text).head?

def sharedAffix (side : Side) (es : List Expr) : List Char :=
  side.inward (Text.commonPrefixOfAll ((es.filterMap (Expr.exposed? side)).map side.inward))

def within (again : List Expr → Except Error Expr) : Expr → Except Error Expr
  | .alt parts => again (Expr.branchesOf parts).eraseDups
  | e => .ok e

def affixFactored? (again : List Expr → Except Error Expr) (side : Side) (parts : List Expr) :
    Except Error (Option (List Expr)) :=
  match mostShared? (parts.filterMap (outermost? side)) with
  | none => .ok none
  | some c => do
    let group := parts.filter fun e => outermost? side e == some c
    let others := parts.filter fun e => outermost? side e != some c
    let affix := sharedAffix side group
    let inner ← within again (.alt (← group.mapM (Expr.strip side affix)))
    return some (Expr.attach side (lit affix) inner :: others)

def interiorFactored? (again : List Expr → Except Error Expr) (parts : List Expr) :
    Except Error (Option (List Expr)) :=
  let texts := parts.filterMap Expr.literalText?
  let root := Text.longestCommonSubstring texts
  if texts.length < 2 ∨ root = [] then .ok none
  else do
    let halves := texts.filterMap (Text.cutAround? root)
    let before ← within again (union (halves.map fun h => lit h.1))
    let after ← within again (union (halves.map fun h => lit h.2))
    return some (concat before (concat (lit root) after) :: parts.filter fun e => !e.isLiteral)

def step? (interior : Bool) (again : List Expr → Except Error Expr) (parts : List Expr) :
    Except Error (Option (List Expr)) := do
  if let some reduced ← affixFactored? again .leading parts then return some reduced
  if interior then
    if let some reduced ← interiorFactored? again parts then return some reduced
  affixFactored? again .trailing parts

def compact (interior : Bool) : Nat → List Expr → Except Error Expr
  | 0, _ => .error (.logic .outOfFuel)
  | fuel + 1, parts => do
    match ← step? interior (compact interior fuel) parts with
    | some reduced => compact interior fuel reduced
    | none => return union parts

def factor (interior cancelled : Bool) (e : Expr) : Except Error Expr :=
  within (fun parts => do checkCancelled cancelled; compact interior (e.letters + 1) parts) e

end PatternInference.Factoring
