import Mathlib.Data.List.Permutation
import PatternInference.Proofs.Expr.Affix
import PatternInference.Proofs.Expr.Substitution
import PatternInference.Proofs.Expr.Union

namespace PatternInference.Expr

variable {e : Expr} {parts : List Expr} {o : Nat}

lemma exists_at_of_mem_origins (h : o ∈ e.origins) : ∃ path t, At e path (pending t o) := by
  induction e using Expr.structural with
  | lit => cases h
  | pending text origin =>
    rw [origins, List.mem_singleton] at h
    exact ⟨[], text, h ▸ .here _⟩
  | alt parts ih =>
    obtain ⟨e, he, ho⟩ := mem_origins_alt.mp h
    obtain ⟨i, hi⟩ := List.getElem?_of_mem he
    obtain ⟨path, t, hat⟩ := ih e he ho
    exact ⟨i :: path, t, .branch hi hat⟩
  | seq left right ihl ihr =>
    rcases List.mem_append.mp h with h | h
    · obtain ⟨path, t, hat⟩ := ihl h
      exact ⟨0 :: path, t, .left hat⟩
    · obtain ⟨path, t, hat⟩ := ihr h
      exact ⟨1 :: path, t, .right hat⟩

lemma isSolved_iff_at : e.isSolved = true ↔ ∀ path t o, ¬ At e path (pending t o) := by
  rw [isSolved_iff]
  constructor
  · exact fun h path t o hat => h o hat.mem_origins
  · intro h o ho
    obtain ⟨path, t, hat⟩ := exists_at_of_mem_origins ho
    exact h path t o hat

theorem concat_and_union_denote (ρ : Nat → Language Char) :
    (∀ e f : Expr, (concat e f).meaning ρ = e.meaning ρ * f.meaning ρ ∧
        ((concat e f).isSolved = true ↔ e.isSolved = true ∧ f.isSolved = true)) ∧
      ∀ parts : List Expr, (∀ w, w ∈ (union parts).meaning ρ ↔ ∃ e ∈ parts, w ∈ e.meaning ρ) ∧
        ((union parts).isSolved = true ↔ ∀ e ∈ parts, ∀ path t o, ¬ At e path (pending t o)) ∧
        (union parts).normalize = union parts ∧
        ∀ es, union parts = alt es → Arranged (branchesOf parts) es := by
  refine ⟨fun e f => ⟨meaning_concat, isSolved_concat⟩, fun parts => ⟨fun w => mem_meaning_union, ?_, normalize_union,
    fun es => arranged_of_union_eq⟩⟩
  rw [isSolved_union]
  exact forall₂_congr fun e _ => isSolved_iff_at

theorem concat_and_union_denote_mixed :
    let twice := seq (alt [lit ['x'], lit ['y']]) (lit ['1'])
    let parts := [twice, pending ['b'] 2, alt [lit ['c'], alt [lit ['a'], twice]], pending ['b'] 2]
    let es := [lit ['a'], pending ['b'] 2, lit ['c'], twice]
    union parts = alt es ∧ Arranged (branchesOf parts) es ∧ (alt es).normalize = alt es ∧
      ['z', 'b'] ∈ (union parts).meaning (fun _ => {['z']}) ∧ (union parts).isSolved = false := by
  intro twice parts es
  have hunion : union parts = alt es := by cbv
  obtain ⟨hmeaning, hsolved, hnormal, harranged⟩ := (concat_and_union_denote fun _ => {['z']}).2 parts
  refine ⟨hunion, harranged es hunion, hunion ▸ hnormal, ?_, ?_⟩
  · exact (hmeaning _).mpr ⟨pending ['b'] 2, by simp [parts], Language.mem_mul.mpr ⟨['z'], rfl, ['b'], rfl, rfl⟩⟩
  · rw [Bool.eq_false_iff, ne_eq, hsolved]
    exact fun h => h (pending ['b'] 2) (by simp [parts]) [] ['b'] 2 (.here _)

end PatternInference.Expr
