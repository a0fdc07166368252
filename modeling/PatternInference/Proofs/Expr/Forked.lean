import PatternInference.Proofs.Expr.Language

namespace PatternInference.Expr

inductive Forked : Expr → Prop
  | lit (text : List Char) : Forked (lit text)
  | pending (text : List Char) (origin : Nat) : Forked (pending text origin)
  | alt {parts : List Expr} : 2 ≤ parts.length → (∀ e ∈ parts, Forked e) → Forked (alt parts)
  | seq {left right : Expr} : Forked left → Forked right → Forked (seq left right)

variable {e f solution : Expr} {es parts : List Expr} {t : List Char} {state : Nat}

lemma Forked.concat (he : e.Forked) (hf : f.Forked) : (concat e f).Forked := by
  fun_cases Expr.concat e f with
  | case1 => exact hf
  | case2 => exact he
  | case3 s t => exact .lit (s ++ t)
  | case4 e s t =>
    cases he with
    | seq he _ => exact .seq he (.lit (s ++ t))
  | case5 s t e =>
    cases hf with
    | seq _ he => exact .seq (.lit (s ++ t)) he
  | case6 => exact .seq he hf

lemma Forked.followedBy (he : e.Forked) : (e.followedBy t).Forked := by
  fun_cases Expr.followedBy e t with
  | case1 | case2 => exact .lit _
  | case3 => exact he.concat (.lit t)

lemma Forked.substitute (he : e.Forked) (hs : solution.Forked) : (e.substitute state solution).Forked := by
  induction he with
  | lit text => exact .lit text
  | pending text origin =>
    rw [Expr.substitute]
    split
    · exact hs.followedBy
    · exact .pending text origin
  | alt hlen _ ih =>
    rw [Expr.substitute, substituteAll_eq_map]
    apply Forked.alt
    · rwa [List.length_map]
    · intro f hf
      obtain ⟨e, he, rfl⟩ := List.mem_map.mp hf
      exact ih e he
  | seq _ _ ihl ihr => exact .seq ihl ihr

lemma Forked.branches (he : e.Forked) : e.branches ≠ [] ∧ ∀ f ∈ e.branches, f.Forked := by
  induction he with
  | lit text => simpa [Expr.branches] using Forked.lit text
  | pending text origin => simpa [Expr.branches] using Forked.pending text origin
  | @alt parts hlen _ ih =>
    simp only [Expr.branches, branchesOf_eq_flatMap]
    refine ⟨?_, ?_⟩
    · cases parts with
      | nil => simp at hlen
      | cons e parts => simp [(ih e (by simp)).1]
    · intro f hf
      obtain ⟨e, he, hf⟩ := List.mem_flatMap.mp hf
      exact (ih e he).2 f hf
  | seq hl hr _ _ => simpa [Expr.branches] using Forked.seq hl hr

lemma Forked.ofBranches (hne : es ≠ []) (hes : ∀ e ∈ es, e.Forked) : (ofBranches es).Forked := by
  cases es with
  | nil => exact absurd rfl hne
  | cons e es =>
    cases es with
    | nil => exact hes e (by simp)
    | cons f es => exact .alt (by simp) hes

lemma Forked.union (hne : es ≠ []) (hes : ∀ e ∈ es, e.Forked) : (union es).Forked := by
  rw [union_eq]
  apply Forked.ofBranches
  · obtain ⟨e, he⟩ := List.exists_mem_of_ne_nil es hne
    obtain ⟨f, hf⟩ := List.exists_mem_of_ne_nil _ (hes e he).branches.1
    apply List.ne_nil_of_mem (a := f)
    rw [mem_unionBranches, branchesOf_eq_flatMap]
    exact List.mem_flatMap.mpr ⟨e, he, hf⟩
  · intro f hf
    rw [mem_unionBranches, branchesOf_eq_flatMap] at hf
    obtain ⟨e, he, hf⟩ := List.mem_flatMap.mp hf
    exact (hes e he).branches.2 f hf

def Forkable (e : Expr) : Prop := ∃ parts, e = .alt parts ∧ parts ≠ [] ∧ ∀ p ∈ parts, p.Forked

lemma Forkable.substitute (he : e.Forkable) (hs : solution.Forked) : (e.substitute state solution).Forkable := by
  obtain ⟨parts, rfl, hne, hparts⟩ := he
  refine ⟨parts.map (·.substitute state solution), ?_, by simpa using hne, ?_⟩
  · rw [Expr.substitute, substituteAll_eq_map]
  · intro f hf
    obtain ⟨p, hp, rfl⟩ := List.mem_map.mp hf
    exact (hparts p hp).substitute hs

lemma Forkable.normalize (he : e.Forkable) : e.normalize.Forked := by
  obtain ⟨parts, rfl, hne, hparts⟩ := he
  exact .union hne hparts

end PatternInference.Expr
