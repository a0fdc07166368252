import PatternInference.Proofs.Expr.Expansions
import PatternInference.Proofs.Expr.Forked
import PatternInference.Proofs.Expr.Letters

/-! Putting other branches in the place of some: no word is lost and no letter is added. -/

namespace PatternInference.Factoring

open PatternInference.Expr

variable {interior : Bool} {e f : Expr} {parts reduced rest others : List Expr}

/-- The new branches have the words of the old ones; only where interiors are factored they may have more. -/
structure Rewrites (interior : Bool) (parts reduced : List Expr) : Prop where
  solved : ∀ e ∈ reduced, e.isSolved = true
  complete : ∀ f ∈ parts, ∀ w ∈ f.language, ∃ e ∈ reduced, w ∈ e.language
  sound : interior = false → ∀ e ∈ reduced, ∀ w ∈ e.language, ∃ f ∈ parts, w ∈ f.language
  unambiguous : interior = false → (expansionsOf parts).Nodup → (expansionsOf reduced).Nodup
  letters : lettersOf reduced ≤ lettersOf parts
  forked : parts ≠ [] → (∀ f ∈ parts, f.Forked) → reduced ≠ [] ∧ ∀ e ∈ reduced, e.Forked

namespace Rewrites

lemma of_perm (hsolved : ∀ e ∈ parts, e.isSolved = true) (h : reduced.Perm parts) :
    Rewrites interior parts reduced where
  solved := fun e he => hsolved e (h.mem_iff.mp he)
  complete := fun f hf w hw => ⟨f, h.mem_iff.mpr hf, hw⟩
  sound := fun _ e he w hw => ⟨e, h.mem_iff.mp he, hw⟩
  unambiguous := fun _ hnodup => nodup_expansionsOf_of_subperm h.subperm hnodup
  letters := (lettersOf_perm h).le
  forked := by
    intro hne hforked
    refine ⟨fun hnil => hne ?_, fun e he => hforked e (h.mem_iff.mp he)⟩
    rw [hnil] at h
    exact h.symm.eq_nil

lemma refl (hsolved : ∀ e ∈ parts, e.isSolved = true) : Rewrites interior parts parts := of_perm hsolved (.refl parts)

lemma trans (h₁ : Rewrites interior parts reduced) (h₂ : Rewrites interior reduced rest) :
    Rewrites interior parts rest where
  solved := h₂.solved
  complete := by
    intro f hf w hw
    obtain ⟨e, he, hw⟩ := h₁.complete f hf w hw
    exact h₂.complete e he w hw
  sound := by
    intro hinterior e he w hw
    obtain ⟨f, hf, hw⟩ := h₂.sound hinterior e he w hw
    exact h₁.sound hinterior f hf w hw
  unambiguous := fun hinterior hnodup => h₂.unambiguous hinterior (h₁.unambiguous hinterior hnodup)
  letters := Nat.le_trans h₂.letters h₁.letters
  forked := by
    intro hne hforked
    obtain ⟨hne, hforked⟩ := h₁.forked hne hforked
    exact h₂.forked hne hforked

lemma append_right (h : Rewrites interior parts reduced) (hne : parts ≠ []) (hothers : ∀ e ∈ others, e.isSolved = true) :
    Rewrites interior (parts ++ others) (reduced ++ others) := by
  constructor
  case solved =>
    intro e he
    cases List.mem_append.mp he with
    | inl he => exact h.solved e he
    | inr he => exact hothers e he
  case complete =>
    intro f hf w hw
    cases List.mem_append.mp hf with
    | inl hf =>
      obtain ⟨e, he, hw⟩ := h.complete f hf w hw
      exact ⟨e, List.mem_append_left _ he, hw⟩
    | inr hf => exact ⟨f, List.mem_append_right _ hf, hw⟩
  case sound =>
    intro hinterior e he w hw
    cases List.mem_append.mp he with
    | inl he =>
      obtain ⟨f, hf, hw⟩ := h.sound hinterior e he w hw
      exact ⟨f, List.mem_append_left _ hf, hw⟩
    | inr he => exact ⟨e, List.mem_append_right _ he, hw⟩
  case unambiguous =>
    intro hinterior hnodup
    rw [expansionsOf_append, List.nodup_append] at hnodup ⊢
    obtain ⟨hparts, hothers, hdisjoint⟩ := hnodup
    refine ⟨h.unambiguous hinterior hparts, hothers, fun w hw => hdisjoint w ?_⟩
    obtain ⟨e, he, hw⟩ := mem_expansionsOf.mp hw
    exact mem_expansionsOf.mpr (h.sound hinterior e he w hw)
  case letters =>
    have hle := h.letters
    rw [lettersOf_append, lettersOf_append]
    omega
  case forked =>
    intro _ hforked
    obtain ⟨hreduced, hrforked⟩ := h.forked hne fun f hf => hforked f (List.mem_append_left _ hf)
    refine ⟨by simp [hreduced], fun e he => ?_⟩
    cases List.mem_append.mp he with
    | inl he => exact hrforked e he
    | inr he => exact hforked e (List.mem_append_right _ he)

lemma of_filter {P : Expr → Bool} (hsolved : ∀ e ∈ parts, e.isSolved = true) (hne : parts.filter P ≠ [])
    (h : Rewrites interior (parts.filter P) reduced) :
    Rewrites interior parts (reduced ++ parts.filter fun e => !P e) := by
  apply (of_perm hsolved (List.filter_append_perm P parts)).trans
  apply h.append_right hne
  intro e he
  exact hsolved e (List.mem_filter.mp he).1

lemma branchesOf (hsolved : ∀ e ∈ parts, e.isSolved = true) : Rewrites interior parts (branchesOf parts).eraseDups := by
  have hmem : ∀ w : List Char, (∃ e ∈ Expr.branchesOf parts, w ∈ e.language) ↔ ∃ f ∈ parts, w ∈ f.language := by
    intro w
    exact (mem_meaning_branches (e := .alt parts)).trans mem_meaning_alt
  constructor
  case solved =>
    intro e he
    rw [List.mem_eraseDups, branchesOf_eq_flatMap, List.mem_flatMap] at he
    obtain ⟨f, hf, he⟩ := he
    apply isSolved_iff.mpr
    intro o ho
    exact isSolved_iff.mp (hsolved f hf) o (mem_origins_branches.mp ⟨e, he, ho⟩)
  case complete =>
    intro f hf w hw
    obtain ⟨e, he, hw⟩ := (hmem w).mpr ⟨f, hf, hw⟩
    exact ⟨e, List.mem_eraseDups.mpr he, hw⟩
  case sound =>
    intro _ e he w hw
    exact (hmem w).mp ⟨e, List.mem_eraseDups.mp he, hw⟩
  case unambiguous =>
    intro _ hnodup
    rw [← expansionsOf_branchesOf] at hnodup
    exact nodup_expansionsOf_of_subperm eraseDups_sublist.subperm hnodup
  case letters =>
    exact Nat.le_trans (lettersOf_sublist eraseDups_sublist) (Nat.le_of_eq lettersOf_branchesOf)
  case forked =>
    intro hne hforked
    obtain ⟨f, hf⟩ := List.exists_mem_of_ne_nil parts hne
    obtain ⟨e, he⟩ := List.exists_mem_of_ne_nil _ (hforked f hf).branches.1
    have hbranch : e ∈ Expr.branchesOf parts := by
      rw [branchesOf_eq_flatMap]
      exact List.mem_flatMap.mpr ⟨f, hf, he⟩
    refine ⟨List.ne_nil_of_mem (List.mem_eraseDups.mpr hbranch), fun e he => ?_⟩
    rw [List.mem_eraseDups, branchesOf_eq_flatMap, List.mem_flatMap] at he
    obtain ⟨f, hf, he⟩ := he
    exact (hforked f hf).branches.2 e he

lemma union (hsolved : ∀ e ∈ parts, e.isSolved = true) : Rewrites interior parts [union parts] := by
  constructor
  case solved =>
    intro e he
    rw [List.mem_singleton.mp he]
    exact isSolved_union.mpr hsolved
  case complete =>
    intro f hf w hw
    exact ⟨_, by simp, mem_meaning_union.mpr ⟨f, hf, hw⟩⟩
  case sound =>
    intro _ e he w hw
    rw [List.mem_singleton.mp he] at hw
    exact mem_meaning_union.mp hw
  case unambiguous =>
    intro _ hnodup
    rw [expansionsOf_singleton]
    exact nodup_expansions_union hnodup
  case letters =>
    simpa using letters_union_le
  case forked =>
    intro hne hforked
    refine ⟨by simp, fun e he => ?_⟩
    rw [List.mem_singleton.mp he]
    exact .union hne hforked

lemma alt (h : Rewrites interior parts [e]) : Rewrites interior [.alt parts] [e] := by
  refine ⟨h.solved, ?_, ?_, ?_, ?_, ?_⟩
  · intro f hf w hw
    rw [List.mem_singleton.mp hf] at hw
    obtain ⟨f, hf, hw⟩ := mem_meaning_alt.mp hw
    exact h.complete f hf w hw
  · intro hinterior e he w hw
    exact ⟨_, List.mem_singleton_self _, mem_meaning_alt.mpr (h.sound hinterior e he w hw)⟩
  · intro hinterior hnodup
    rw [expansionsOf_singleton] at hnodup
    exact h.unambiguous hinterior hnodup
  · simpa [Expr.letters] using h.letters
  · intro _ hforked
    cases hforked _ (List.mem_singleton_self _) with
    | alt hlen hparts =>
      apply h.forked _ hparts
      rintro rfl
      simp at hlen

lemma mem_language {w : List Char} (h : Rewrites interior [e] [f]) (hw : w ∈ e.language) : w ∈ f.language := by
  obtain ⟨g, hg, hw⟩ := h.complete e (List.mem_singleton_self e) w hw
  rwa [List.mem_singleton.mp hg] at hw

lemma language_eq (h : Rewrites interior [e] [f]) (hinterior : interior = false) : f.language = e.language := by
  ext w
  refine ⟨fun hw => ?_, h.mem_language⟩
  obtain ⟨g, hg, hw⟩ := h.sound hinterior f (List.mem_singleton_self f) w hw
  rwa [List.mem_singleton.mp hg] at hw

lemma nodup_expansions (h : Rewrites interior [e] [f]) (hinterior : interior = false) (he : e.expansions.Nodup) :
    f.expansions.Nodup := by
  rw [← expansionsOf_singleton] at he ⊢
  exact h.unambiguous hinterior he

end Rewrites

end PatternInference.Factoring
