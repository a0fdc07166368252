import PatternInference.Proofs.Expr.Language

namespace PatternInference.Expr

def Unbranched (e : Expr) : Prop := ∀ parts, e ≠ alt parts

variable {e f : Expr} {es parts : List Expr}

lemma branches_eq_of_unbranched (h : e.Unbranched) : e.branches = [e] := by
  cases e with
  | alt parts => exact absurd rfl (h parts)
  | lit | pending | seq => rfl

lemma branchesOf_eq_of_unbranched (h : ∀ e ∈ es, e.Unbranched) : branchesOf es = es := by
  induction es with
  | nil => rfl
  | cons e es ih =>
    obtain ⟨he, hes⟩ := List.forall_mem_cons.mp h
    rw [branchesOf, branches_eq_of_unbranched he, ih hes]
    rfl

lemma unbranched_of_mem_branches (h : f ∈ e.branches) : f.Unbranched := by
  induction e using Expr.structural with
  | alt parts ih =>
    rw [branches, branchesOf_eq_flatMap, List.mem_flatMap] at h
    obtain ⟨e, he, hf⟩ := h
    exact ih e he hf
  | lit | pending | seq =>
    intro parts
    rw [branches] at h
    · simp [List.mem_singleton.mp h]
    · simp

lemma unbranched_of_mem_branchesOf (h : e ∈ branchesOf es) : e.Unbranched := unbranched_of_mem_branches (e := alt es) h

lemma unbranched_concat (h : e.Unbranched ∧ e ≠ lit [] ∨ f.Unbranched ∧ f ≠ lit []) : (concat e f).Unbranched := by
  intro parts
  fun_cases concat e f <;> simp_all [Unbranched]

lemma concat_ne_epsilon (h : e ≠ lit []) : concat e f ≠ lit [] := by
  fun_cases concat e f <;> simp_all

lemma eq_lit (hliteral : e.isLiteral = true) (hsolved : e.isSolved = true) :
    ∃ text, e = lit text ∧ e.literalText? = some text := by
  cases e with
  | lit text => exact ⟨text, rfl, rfl⟩
  | pending => cases hsolved
  | alt | seq => cases hliteral

lemma le_text_trans (e f g : Expr) (hef : Text.le e.text f.text = true) (hfg : Text.le f.text g.text = true) :
    Text.le e.text g.text = true := Text.le_trans hef hfg

lemma le_text_total (e f : Expr) : (Text.le e.text f.text || Text.le f.text e.text) = true :=
  Text.le_total e.text f.text

lemma pairwise_mergeSort_text :
    (es.mergeSort fun e f => Text.le e.text f.text).Pairwise fun e f => Text.le e.text f.text = true :=
  List.pairwise_mergeSort le_text_trans le_text_total es

lemma nodup_sortedLiterals (h : ∀ e ∈ es, e.isSolved = true) : (sortedLiterals es).Nodup := by
  have hlit : ∀ e ∈ (es.filter isLiteral).mergeSort fun e f => Text.le e.text f.text, ∃ text, e = lit text := by
    intro e he
    obtain ⟨hmem, hliteral⟩ := List.mem_filter.mp (List.mem_mergeSort.mp he)
    obtain ⟨text, htext, _⟩ := eq_lit hliteral (h e hmem)
    exact ⟨text, htext⟩
  apply nodup_eraseReps pairwise_mergeSort_text
  intro e he f hf hef hfe
  obtain ⟨s, rfl⟩ := hlit e he
  obtain ⟨t, rfl⟩ := hlit f hf
  rw [lit.injEq]
  exact Text.le_antisymm hef hfe

lemma isLiteral_of_mem_sortedLiterals (h : e ∈ sortedLiterals es) : e.isLiteral = true :=
  (List.mem_filter.mp (List.mem_mergeSort.mp (mem_eraseReps.mp h))).2

lemma isLiteral_of_mem_composites (h : e ∈ composites es) : e.isLiteral = false := by
  simpa using (List.mem_filter.mp (List.mem_eraseDups.mp h)).2

lemma nodup_unionBranches_iff : (sortedLiterals es ++ composites es).Nodup ↔ (sortedLiterals es).Nodup := by
  constructor
  · exact fun h => h.sublist (List.sublist_append_left _ _)
  · intro h
    apply h.append nodup_eraseDups
    intro e hsorted hcomposite
    have hliteral := isLiteral_of_mem_sortedLiterals hsorted
    rw [isLiteral_of_mem_composites hcomposite] at hliteral
    cases hliteral

lemma nodup_unionBranches (h : ∀ e ∈ es, e.isSolved = true) : (sortedLiterals es ++ composites es).Nodup :=
  nodup_unionBranches_iff.mpr (nodup_sortedLiterals h)

lemma filter_isLiteral_unionBranches : (sortedLiterals es ++ composites es).filter isLiteral = sortedLiterals es := by
  rw [List.filter_append, List.filter_eq_self.mpr fun e he => isLiteral_of_mem_sortedLiterals he,
    List.filter_eq_nil_iff.mpr fun e he => by simp [isLiteral_of_mem_composites he], List.append_nil]

lemma filter_not_isLiteral_unionBranches :
    (sortedLiterals es ++ composites es).filter (fun e => !e.isLiteral) = composites es := by
  rw [List.filter_append, List.filter_eq_nil_iff.mpr fun e he => by simp [isLiteral_of_mem_sortedLiterals he],
    List.filter_eq_self.mpr fun e he => by simp [isLiteral_of_mem_composites he], List.nil_append]

lemma sorted_sortedLiterals : (sortedLiterals es).Pairwise fun e f => Text.le e.text f.text = true :=
  pairwise_mergeSort_text.sublist eraseReps_sublist

lemma unionBranches_idem :
    sortedLiterals (sortedLiterals es ++ composites es) ++ composites (sortedLiterals es ++ composites es) =
      sortedLiterals es ++ composites es := by
  have hleft : sortedLiterals (sortedLiterals es ++ composites es) = sortedLiterals es := by
    rw [sortedLiterals, filter_isLiteral_unionBranches, sorted, List.mergeSort_of_pairwise sorted_sortedLiterals,
      sortedLiterals, sorted, eraseReps_eraseReps]
  have hright : composites (sortedLiterals es ++ composites es) = composites es := by
    rw [composites, filter_not_isLiteral_unionBranches]
    exact eraseDups_of_nodup nodup_eraseDups
  rw [hleft, hright]

/-- The order of the branches of a union, where `found` are the branches of what is united. -/
structure Arranged (found branches : List Expr) : Prop where
  mem_iff : ∀ e, e ∈ branches ↔ e ∈ found
  unbranched : ∀ e ∈ branches, e.Unbranched
  literals_first : branches = branches.filter isLiteral ++ branches.filter fun e => !e.isLiteral
  literals_sorted : (branches.filter isLiteral).Pairwise fun e f => Text.le e.text f.text = true
  composites_nodup : (branches.filter fun e => !e.isLiteral).Nodup
  composites_ordered : (branches.filter fun e => !e.isLiteral).Pairwise fun e f => found.idxOf e < found.idxOf f

lemma pairwise_idxOf_composites : (composites es).Pairwise fun e f => es.idxOf e < es.idxOf f := by
  apply pairwise_idxOf_eraseDups.imp_of_mem
  intro e f he hf hlt
  have hcomposite : ∀ g ∈ composites es, (!g.isLiteral) = true := fun g hg => by
    rw [isLiteral_of_mem_composites hg, Bool.not_false]
  exact (idxOf_filter_lt_iff (p := fun e => !e.isLiteral) (hcomposite e he) (hcomposite f hf)).mp hlt

lemma arranged_unionBranches (h : ∀ e ∈ es, e.Unbranched) : Arranged es (sortedLiterals es ++ composites es) where
  mem_iff _ := mem_unionBranches
  unbranched e he := h e (mem_unionBranches.mp he)
  literals_first := by rw [filter_isLiteral_unionBranches, filter_not_isLiteral_unionBranches]
  literals_sorted := by
    rw [filter_isLiteral_unionBranches]
    exact sorted_sortedLiterals
  composites_nodup := by
    rw [filter_not_isLiteral_unionBranches]
    exact nodup_eraseDups
  composites_ordered := by
    rw [filter_not_isLiteral_unionBranches]
    exact pairwise_idxOf_composites

lemma ofBranches_cases (es : List Expr) : (∃ e, es = [e] ∧ ofBranches es = e) ∨ ofBranches es = alt es := by
  fun_cases ofBranches es with
  | case1 e => exact .inl ⟨e, rfl, rfl⟩
  | case2 => exact .inr rfl

lemma eq_unionBranches (h : union parts = alt es) :
    es = sortedLiterals (branchesOf parts) ++ composites (branchesOf parts) := by
  rw [union_eq] at h
  rcases ofBranches_cases (sortedLiterals (branchesOf parts) ++ composites (branchesOf parts)) with ⟨e, hes, he⟩ | hes
  · have hmem : e ∈ branchesOf parts := mem_unionBranches.mp (hes ▸ List.mem_singleton_self e)
    exact absurd (he.symm.trans h) (unbranched_of_mem_branchesOf hmem es)
  · exact (alt.inj (hes.symm.trans h)).symm

lemma arranged_of_union_eq (h : union parts = alt es) : Arranged (branchesOf parts) es := by
  rw [eq_unionBranches h]
  exact arranged_unionBranches fun e he => unbranched_of_mem_branchesOf he

lemma normalize_of_unbranched (h : e.Unbranched) : e.normalize = e := by
  cases e with
  | alt parts => exact absurd rfl (h parts)
  | lit | pending | seq => rfl

lemma normalize_union : (union parts).normalize = union parts := by
  have hunbranched : ∀ e ∈ sortedLiterals (branchesOf parts) ++ composites (branchesOf parts), e.Unbranched := by
    intro e he
    exact unbranched_of_mem_branchesOf (mem_unionBranches.mp he)
  rw [union_eq]
  rcases ofBranches_cases (sortedLiterals (branchesOf parts) ++ composites (branchesOf parts)) with ⟨e, hes, he⟩ | hes
  · rw [he]
    exact normalize_of_unbranched (hunbranched e (by simp [hes]))
  · rw [hes, normalize, union_eq, branchesOf_eq_of_unbranched hunbranched, unionBranches_idem, hes]

end PatternInference.Expr
