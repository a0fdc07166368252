/-!
Star-free expressions over texts. A pending literal stands for the solution of its origin followed by
its text, until that solution is put in.
-/

namespace PatternInference

inductive Expr where
  | lit (text : List Char)
  | pending (text : List Char) (origin : Nat)
  | alt (parts : List Expr)
  | seq (left right : Expr)

namespace Expr

mutual

def decEq (e f : Expr) : Decidable (e = f) :=
  match e, f with
  | lit s, lit t => decidable_of_iff (s = t) (by simp)
  | pending s p, pending t q => decidable_of_iff (s = t ∧ p = q) (by simp)
  | alt es, alt fs =>
    haveI := listDecEq es fs
    decidable_of_iff (es = fs) (by simp)
  | seq e₁ e₂, seq f₁ f₂ =>
    haveI := decEq e₁ f₁
    haveI := decEq e₂ f₂
    decidable_of_iff (e₁ = f₁ ∧ e₂ = f₂) (by simp)
  | lit _, pending _ _ | lit _, alt _ | lit _, seq _ _
  | pending _ _, lit _ | pending _ _, alt _ | pending _ _, seq _ _
  | alt _, lit _ | alt _, pending _ _ | alt _, seq _ _
  | seq _ _, lit _ | seq _ _, pending _ _ | seq _ _, alt _ => isFalse (by simp)

def listDecEq (es fs : List Expr) : Decidable (es = fs) :=
  match es, fs with
  | [], [] => isTrue rfl
  | e :: es, f :: fs =>
    haveI := decEq e f
    haveI := listDecEq es fs
    decidable_of_iff (e = f ∧ es = fs) (by simp)
  | [], _ :: _ | _ :: _, [] => isFalse (by simp)

end

instance : DecidableEq Expr := decEq

def epsilon : Expr := lit []

def isLiteral : Expr → Bool
  | lit _ | pending _ _ => true
  | alt _ | seq _ _ => false

def literalText? : Expr → Option (List Char)
  | lit text | pending text _ => some text
  | alt _ | seq _ _ => none

def branchCount : Expr → Nat
  | alt parts => parts.length
  | _ => 1

mutual

def isSolved : Expr → Bool
  | lit _ => true
  | pending _ _ => false
  | alt parts => areSolved parts
  | seq left right => left.isSolved && right.isSolved

def areSolved : List Expr → Bool
  | [] => true
  | e :: rest => e.isSolved && areSolved rest

end

mutual

def letters : Expr → Nat
  | lit text | pending text _ => text.length
  | alt parts => lettersOf parts
  | seq left right => left.letters + right.letters

def lettersOf : List Expr → Nat
  | [] => 0
  | e :: rest => e.letters + lettersOf rest

end

mutual

def branches : Expr → List Expr
  | alt parts => branchesOf parts
  | e => [e]

def branchesOf : List Expr → List Expr
  | [] => []
  | e :: rest => e.branches ++ branchesOf rest

end

theorem areSolved_eq_all (es : List Expr) : areSolved es = es.all isSolved := by
  induction es with
  | nil => rfl
  | cons e es ih => simp [areSolved, ih]

theorem branchesOf_eq_flatMap (es : List Expr) : branchesOf es = es.flatMap branches := by
  induction es with
  | nil => rfl
  | cons e es ih => simp [branchesOf, ih]

@[elab_as_elim]
theorem structural {motive : Expr → Prop} (lit : ∀ text, motive (lit text))
    (pending : ∀ text origin, motive (pending text origin))
    (alt : ∀ parts, (∀ e ∈ parts, motive e) → motive (alt parts))
    (seq : ∀ left right, motive left → motive right → motive (seq left right)) (e : Expr) :
    motive e :=
  Expr.rec (motive_1 := motive) (motive_2 := fun es => ∀ e ∈ es, motive e) lit pending alt seq
    (by simp) (fun _ _ he hes _ h => (List.mem_cons.mp h).elim (fun h => h ▸ he) (hes _)) e

end Expr
end PatternInference
