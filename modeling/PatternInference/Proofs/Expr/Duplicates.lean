import Mathlib.Data.List.Chain
import Mathlib.Data.List.Permutation
import PatternInference.Proofs.Expr.Union

/-! Which branches a union has twice: literals that come back behind another literal with their text. -/

namespace PatternInference.Expr

variable {e f : Expr} {es parts : List Expr}

lemma le_text_of_eq (h : e.text = f.text) : Text.le e.text f.text = true := by
  rw [h]
  simpa using le_text_total f f

lemma filter_text_mergeSort (text : List Char) :
    (es.mergeSort fun e f => Text.le e.text f.text).filter (fun e => e.text = text) =
      es.filter fun e => e.text = text := by
  apply filter_mergeSort le_text_trans le_text_total
  intro e f he hf
  exact le_text_of_eq ((of_decide_eq_true he).trans (of_decide_eq_true hf).symm)

lemma sublist_mergeSort_iff : [e, f, e].Sublist (es.mergeSort fun e f => Text.le e.text f.text) ↔
    e.text = f.text ∧ [e, f, e].Sublist es := by
  constructor
  · intro h
    obtain ⟨hef, hfe⟩ := rel_of_pairwise pairwise_mergeSort_text h
    have htext := Text.le_antisymm hef hfe
    have hsub := sublist_filter_iff (p := fun g => g.text = e.text).mpr ⟨h, by simp [htext]⟩
    rw [filter_text_mergeSort] at hsub
    exact ⟨htext, hsub.trans List.filter_sublist⟩
  · rintro ⟨htext, h⟩
    have htexts : ∀ g ∈ [e, f, e], g.text = e.text := by simp [htext]
    apply List.sublist_mergeSort le_text_trans le_text_total _ h
    apply List.pairwise_of_forall_mem_list
    intro g hg k hk
    exact le_text_of_eq ((htexts g hg).trans (htexts k hk).symm)

/-- A literal comes back behind a different one with the same text. -/
def Interleaved (es : List Expr) : Prop :=
  ∃ e f, e ≠ f ∧ e.isLiteral = true ∧ f.isLiteral = true ∧ e.text = f.text ∧ [e, f, e].Sublist es

lemma nodup_sortedLiterals_iff : (sortedLiterals es).Nodup ↔ ¬ Interleaved es := by
  have hsub : ∀ e f, [e, f, e].Sublist ((es.filter isLiteral).mergeSort fun e f => Text.le e.text f.text) ↔
      e.isLiteral = true ∧ f.isLiteral = true ∧ e.text = f.text ∧ [e, f, e].Sublist es := by
    intro e f
    rw [sublist_mergeSort_iff, sublist_filter_iff]
    simp only [List.mem_cons, List.not_mem_nil, or_false]
    grind
  rw [sortedLiterals, sorted, nodup_eraseReps_iff]
  simp only [hsub, Interleaved]
  grind

lemma isChain_unionBranches : (sortedLiterals es ++ composites es).IsChain (· ≠ ·) := by
  apply List.isChain_append.mpr
  refine ⟨isChain_eraseReps, nodup_eraseDups.isChain, ?_⟩
  intro e he f hf hef
  have hliteral := isLiteral_of_mem_sortedLiterals (List.mem_of_mem_getLast? he)
  rw [hef, isLiteral_of_mem_composites (List.mem_of_mem_head? hf)] at hliteral
  cases hliteral

theorem union_nodup_iff (h : union parts = alt es) :
    es.IsChain (· ≠ ·) ∧ (es.filter fun e => !e.isLiteral).Nodup ∧
      (es.Nodup ↔ ¬ Interleaved (branchesOf parts)) := by
  rw [eq_unionBranches h]
  refine ⟨isChain_unionBranches, ?_, nodup_unionBranches_iff.trans nodup_sortedLiterals_iff⟩
  rw [filter_not_isLiteral_unionBranches]
  exact nodup_eraseDups

theorem union_nodup_iff_neighbours :
    let twice := seq (lit ['x']) (pending ['y'] 3)
    let parts := [twice, pending ['a'] 2, alt [pending ['a'] 2, lit ['a']], twice, lit ['a']]
    let es := [pending ['a'] 2, lit ['a'], twice]
    union parts = alt es ∧ es.Nodup ∧ ¬ Interleaved (branchesOf parts) := by
  intro twice parts es
  have hunion : union parts = alt es := by cbv
  have hnodup : es.Nodup := by simp [es, twice]
  exact ⟨hunion, hnodup, (union_nodup_iff hunion).2.2.mp hnodup⟩

theorem union_repeats_pending :
    union [pending ['a'] 1, pending ['a'] 2, pending ['a'] 1] =
        alt [pending ['a'] 1, pending ['a'] 2, pending ['a'] 1] ∧
      ¬ [pending ['a'] 1, pending ['a'] 2, pending ['a'] 1].Nodup := by
  refine ⟨?_, by simp⟩
  cbv

end PatternInference.Expr
