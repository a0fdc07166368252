import PatternInference.Proofs.Expr.Language

namespace PatternInference.Expr

mutual

def resolve (sol : Nat → Expr) : Expr → Expr
  | lit text => lit text
  | pending text origin => (sol origin).followedBy text
  | alt parts => alt (resolveAll sol parts)
  | seq left right => seq (left.resolve sol) (right.resolve sol)

def resolveAll (sol : Nat → Expr) : List Expr → List Expr
  | [] => []
  | e :: rest => e.resolve sol :: resolveAll sol rest

end

variable {sol sol' : Nat → Expr} {e : Expr} {t : List Char} {o : Nat}

lemma resolveAll_eq_map (es : List Expr) : resolveAll sol es = es.map (resolve sol) := by
  induction es with
  | nil => rfl
  | cons e es ih => rw [resolveAll, ih, List.map_cons]

lemma resolve_alt (parts : List Expr) : (alt parts).resolve sol = alt (parts.map (resolve sol)) := by
  rw [resolve, resolveAll_eq_map]

lemma resolve_congr (h : ∀ o ∈ e.origins, sol o = sol' o) : e.resolve sol = e.resolve sol' := by
  induction e using Expr.structural with
  | lit => rfl
  | pending text origin => rw [resolve, resolve, h origin (by simp [origins])]
  | alt parts ih =>
    rw [resolve_alt, resolve_alt, alt.injEq, List.map_inj_left]
    exact fun e he => ih e he fun o ho => h o (mem_origins_alt.mpr ⟨e, he, ho⟩)
  | seq left right ihl ihr =>
    rw [resolve, resolve, ihl fun o ho => h o (List.mem_append_left _ ho),
      ihr fun o ho => h o (List.mem_append_right _ ho)]

lemma resolve_of_isSolved (h : e.isSolved = true) : e.resolve sol = e := by
  induction e using Expr.structural with
  | lit => rfl
  | pending => cases h
  | alt parts ih =>
    rw [isSolved, areSolved_eq_all, List.all_eq_true] at h
    rw [resolve_alt, List.map_congr_left fun e he => ih e he (h e he), List.map_id']
  | seq left right ihl ihr =>
    rw [isSolved, Bool.and_eq_true] at h
    rw [resolve, ihl h.1, ihr h.2]

lemma isSolved_followedBy (h : e.isSolved = true) : (e.followedBy t).isSolved = true := by
  rw [isSolved_iff, origins_followedBy h]
  exact fun _ => List.not_mem_nil

lemma resolve_substitute (h : (sol o).isSolved = true) : (e.substitute o (sol o)).resolve sol = e.resolve sol := by
  induction e using Expr.structural with
  | lit => rfl
  | pending text origin =>
    rw [substitute]
    split_ifs with ho
    · -- what is put in is solved, so it is not touched again
      rw [resolve_of_isSolved (isSolved_followedBy h), resolve, ho]
    · rfl
  | alt parts ih =>
    rw [substitute, substituteAll_eq_map, resolve_alt, resolve_alt, List.map_map, alt.injEq, List.map_inj_left]
    exact ih
  | seq left right ihl ihr => rw [substitute, resolve, resolve, ihl, ihr]

end PatternInference.Expr
