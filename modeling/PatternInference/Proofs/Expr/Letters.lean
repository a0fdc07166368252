import PatternInference.Expr.Concat
import PatternInference.Proofs.Expr.Language

namespace PatternInference.Expr

variable {e f : Expr} {es fs : List Expr}

@[simp] lemma lettersOf_nil : lettersOf [] = 0 := rfl

@[simp] lemma lettersOf_cons : lettersOf (e :: es) = e.letters + lettersOf es := rfl

@[simp] lemma lettersOf_append : lettersOf (es ++ fs) = lettersOf es + lettersOf fs := by
  induction es with
  | nil => simp
  | cons e es ih => simp [ih, Nat.add_assoc]

lemma lettersOf_perm (h : es.Perm fs) : lettersOf es = lettersOf fs := by
  induction h with
  | nil => rfl
  | cons e _ ih => rw [lettersOf_cons, ih, lettersOf_cons]
  | swap e f es => simp only [lettersOf_cons, Nat.add_left_comm]
  | trans _ _ ih₁ ih₂ => exact ih₁.trans ih₂

lemma lettersOf_sublist (h : es.Sublist fs) : lettersOf es ≤ lettersOf fs := by
  induction h with
  | slnil => exact Nat.le_refl _
  | cons e _ ih => exact Nat.le_trans ih (Nat.le_add_left _ _)
  | cons_cons e _ ih => exact Nat.add_le_add_left ih _

lemma lettersOf_subperm (h : es.Subperm fs) : lettersOf es ≤ lettersOf fs := by
  obtain ⟨gs, hperm, hsub⟩ := h
  rw [← lettersOf_perm hperm]
  exact lettersOf_sublist hsub

lemma lettersOf_filter (P : Expr → Bool) (es : List Expr) :
    lettersOf (es.filter P) + lettersOf (es.filter fun e => !P e) = lettersOf es := by
  induction es with
  | nil => rfl
  | cons e es ih =>
    cases h : P e with
    | true => simp [h, ← ih, Nat.add_assoc]
    | false => simp [h, ← ih, Nat.add_left_comm]

lemma letters_concat : (concat e f).letters = e.letters + f.letters := by
  fun_cases concat e f <;> simp [letters] <;> omega

lemma lettersOf_branches : lettersOf e.branches = e.letters := by
  induction e using Expr.structural with
  | lit => rfl
  | pending => rfl
  | alt parts ih =>
    rw [branches, letters, branchesOf_eq_flatMap]
    induction parts with
    | nil => rfl
    | cons e parts ihparts =>
      rw [List.flatMap_cons, lettersOf_append, ih e (by simp), ihparts fun f hf => ih f (by simp [hf]), lettersOf_cons]
  | seq => rfl

lemma lettersOf_branchesOf : lettersOf (branchesOf es) = lettersOf es := lettersOf_branches (e := .alt es)

lemma letters_ofBranches : (ofBranches es).letters = lettersOf es := by
  fun_cases ofBranches es with
  | case1 e => simp
  | case2 => rfl

lemma letters_union_le : (union es).letters ≤ lettersOf es := by
  rw [union_eq, letters_ofBranches, ← @lettersOf_branchesOf es]
  exact lettersOf_subperm unionBranches_subperm

end PatternInference.Expr
