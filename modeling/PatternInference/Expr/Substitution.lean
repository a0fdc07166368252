import PatternInference.Expr.Concat

namespace PatternInference.Expr

def followedBy : Expr → List Char → Expr
  | lit s, t | pending s _, t => lit (s ++ t)
  | e, t => concat e (lit t)

mutual

def substitute (e : Expr) (state : Nat) (solution : Expr) : Expr :=
  match e with
  | lit text => lit text
  | pending text origin => if origin = state then solution.followedBy text else pending text origin
  | alt parts => alt (substituteAll parts state solution)
  | seq left right => seq (left.substitute state solution) (right.substitute state solution)

def substituteAll (es : List Expr) (state : Nat) (solution : Expr) : List Expr :=
  match es with
  | [] => []
  | e :: rest => e.substitute state solution :: substituteAll rest state solution

end

mutual

def awaitsOnly (state : Nat) : Expr → Bool
  | lit _ => true
  | pending _ origin => origin == state
  | alt parts => awaitOnly state parts
  | seq left right => left.awaitsOnly state && right.awaitsOnly state

def awaitOnly (state : Nat) : List Expr → Bool
  | [] => true
  | e :: rest => e.awaitsOnly state && awaitOnly state rest

end

theorem substituteAll_eq_map (es : List Expr) (state : Nat) (solution : Expr) :
    substituteAll es state solution = es.map (·.substitute state solution) := by
  induction es with
  | nil => rfl
  | cons e es ih => simp [substituteAll, ih]

theorem awaitOnly_eq_all (state : Nat) (es : List Expr) :
    awaitOnly state es = es.all (awaitsOnly state) := by
  induction es with
  | nil => rfl
  | cons e es ih => simp [awaitOnly, ih]

end PatternInference.Expr
