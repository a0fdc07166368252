import Mathlib.Data.List.Pairwise
import Mathlib.Data.List.Permutation
import PatternInference.Proofs.Factoring.NormalForm

namespace PatternInference.Expr

variable {e : Expr} {es : List Expr}

lemma branchCount_of_unbranched (h : e.Unbranched) : e.branchCount = 1 := by
  cases e with
  | alt parts => exact absurd rfl (h parts)
  | lit | pending | seq => rfl

lemma branchCount_union_le (h : ∀ e ∈ es, e.Unbranched) : (union es).branchCount ≤ es.length := by
  have hle := (@unionBranches_subperm es).length_le
  rw [union_eq, branchesOf_eq_of_unbranched h]
  rcases ofBranches_cases (sortedLiterals es ++ composites es) with ⟨e, hes, he⟩ | hes
  · rw [hes] at hle
    rw [he, branchCount_of_unbranched (h e (mem_unionBranches.mp (by simp [hes])))]
    exact hle
  · rw [hes]
    exact hle

end PatternInference.Expr

namespace PatternInference.Factoring

open PatternInference.Expr

variable {interior : Bool} {parts : List Expr}

inductive Shares (interior : Bool) (parts : List Expr) : Prop
  | leading {e f : Expr} {c : Char} {s t : List Char} (he : e ∈ parts) (hf : f ∈ parts) (hne : e ≠ f)
    (hs : e.exposed? .leading = some (c :: s)) (ht : f.exposed? .leading = some (c :: t))
  | trailing {e f : Expr} {c : Char} {s t : List Char} (he : e ∈ parts) (hf : f ∈ parts) (hne : e ≠ f)
    (hs : e.exposed? .trailing = some (s ++ [c])) (ht : f.exposed? .trailing = some (t ++ [c]))
  | interior {text : List Char} (hinterior : interior = true) (hmany : 2 ≤ (parts.filterMap literalText?).length)
    (hne : text ≠ []) (htext : ∀ t ∈ parts.filterMap literalText?, text <:+: t)

lemma Normal.not_shares (h : Normal interior parts) : ¬ Shares interior parts := by
  have hsymm : ∀ (side : Side) (glue : Char → List Char → List Char), Std.Symm fun e f : Expr =>
      ∀ c s t, e.exposed? side = some (glue c s) → f.exposed? side ≠ some (glue c t) :=
    fun _ _ => ⟨fun _ _ hef c s t hf he => hef c t s he hf⟩
  intro hshares
  cases hshares with
  | leading he hf hne hs ht =>
    have := hsymm .leading List.cons
    exact h.leading.forall he hf hne _ _ _ hs ht
  | trailing he hf hne hs ht =>
    have := hsymm .trailing fun c s => s ++ [c]
    exact h.trailing.forall he hf hne _ _ _ hs ht
  | interior hinterior hmany hne htext =>
    obtain ⟨t, ht, hnot⟩ := h.interior hinterior hmany _ hne
    exact hnot (htext t ht)

def distinctBranches (parts : List Expr) : List Expr := (branchesOf parts).eraseDups

theorem factor_shrinks (interior : Bool) (hsolved : (alt parts).isSolved = true) :
    ∃ f, factor interior false (alt parts) = .ok f ∧ f.letters ≤ lettersOf (distinctBranches parts) ∧
      f.branchCount ≤ (distinctBranches parts).length ∧
      (Shares interior (distinctBranches parts) → f.letters < lettersOf (distinctBranches parts)) := by
  obtain ⟨es, hfactor, h⟩ := factor_alt interior hsolved
  refine ⟨union es, hfactor, letters_union_le.trans h.letters_le, ?_, fun hshares => ?_⟩
  · exact (branchCount_union_le h.unbranched).trans h.length_le
  · apply Nat.lt_of_le_of_lt letters_union_le (h.letters_lt fun hsettled => ?_)
    have hunbranched : ∀ e ∈ (branchesOf parts).eraseDups, e.Unbranched := fun e he =>
      unbranched_of_mem_branchesOf (List.mem_eraseDups.mp he)
    exact (hsettled.normal hunbranched nodup_eraseDups).not_shares hshares

theorem factor_shrinks_interior :
    ∃ f, factor true false (alt [lit ['1', 'a', 'b'], alt [lit ['2', 'a', 'b'], seq (alt []) (lit ['b'])]]) = .ok f ∧
      f.letters < 7 ∧ f.branchCount ≤ 3 := by
  have hsolved : (alt [lit ['1', 'a', 'b'], alt [lit ['2', 'a', 'b'], seq (alt []) (lit ['b'])]]).isSolved = true := rfl
  have hbranches : distinctBranches [lit ['1', 'a', 'b'], alt [lit ['2', 'a', 'b'], seq (alt []) (lit ['b'])]] =
      [lit ['1', 'a', 'b'], lit ['2', 'a', 'b'], seq (alt []) (lit ['b'])] := by cbv
  have hshares : Shares true [lit ['1', 'a', 'b'], lit ['2', 'a', 'b'], seq (alt []) (lit ['b'])] := by
    have hinfix : ∀ t ∈ [['1', 'a', 'b'], ['2', 'a', 'b']], ['a', 'b'] <:+: t := by decide
    exact .interior rfl (by decide) (by decide) hinfix
  obtain ⟨f, hf, _, hcount, hless⟩ := factor_shrinks true hsolved
  rw [hbranches] at hcount hless
  exact ⟨f, hf, hless hshares, hcount⟩

end PatternInference.Factoring
