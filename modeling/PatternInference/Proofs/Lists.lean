import Mathlib.Data.List.Forall2
import Mathlib.Tactic.Lemma

namespace PatternInference

lemma bind_eq_ok_iff {ε β γ : Type} {x : Except ε β} {f : β → Except ε γ} {c : γ} :
    x >>= f = .ok c ↔ ∃ b, x = .ok b ∧ f b = .ok c := by
  cases x with
  | error e => simp [bind, Except.bind]
  | ok b => simp [bind, Except.bind]

lemma ok_bind {ε β γ : Type} {b : β} {f : β → Except ε γ} : (Except.ok b >>= f) = f b := rfl

lemma bind_eq_error_iff {ε β γ : Type} {x : Except ε β} {f : β → Except ε γ} {e : ε} :
    x >>= f = .error e ↔ x = .error e ∨ ∃ b, x = .ok b ∧ f b = .error e := by
  cases x with
  | error e => simp [bind, Except.bind]
  | ok b => simp [bind, Except.bind]

lemma mapError_eq_ok_iff {ε ε' β : Type} {g : ε → ε'} {x : Except ε β} {b : β} : x.mapError g = .ok b ↔ x = .ok b := by
  cases x with
  | error e => simp [Except.mapError]
  | ok c => simp [Except.mapError]

lemma mapM_eq_pure_map {m : Type → Type} [Monad m] [LawfulMonad m] {ι κ : Type} {f : ι → m κ} (g : ι → κ) {xs : List ι}
    (h : ∀ x ∈ xs, f x = pure (g x)) : xs.mapM f = pure (xs.map g) := by
  induction xs with
  | nil => rfl
  | cons x xs ih => simp [List.mapM_cons, h x (by simp), ih fun y hy => h y (by simp [hy])]

lemma forall_mem_of_forall₂ {ι κ : Type} {R : ι → κ → Prop} {p : κ → Prop} {xs : List ι} {ys : List κ}
    (h : List.Forall₂ R xs ys) (hp : ∀ x y, x ∈ xs → R x y → p y) : ∀ y ∈ ys, p y := by
  induction h with
  | nil => exact List.forall_mem_nil p
  | cons hxy _ ih =>
    rw [List.forall_mem_cons]
    exact ⟨hp _ _ List.mem_cons_self hxy, ih fun x y hx => hp x y (List.mem_cons_of_mem _ hx)⟩

lemma foldl_pick_spec {ι : Type} {R pick : ι → ι → Prop} [DecidableRel pick] {best : ι} {xs : List ι}
    (hrefl : ∀ x, R x x) (htrans : ∀ x y z, R x y → R y z → R x z)
    (h : (best :: xs).Pairwise fun x y => if pick x y then R x y else R y x) :
    xs.foldl (fun x y => if pick x y then y else x) best ∈ best :: xs ∧
      ∀ x ∈ best :: xs, R x (xs.foldl (fun x y => if pick x y then y else x) best) := by
  induction xs generalizing best with
  | nil => simpa using hrefl best
  | cons y xs ih =>
    obtain ⟨hbest, hrest⟩ := List.pairwise_cons.mp h
    have hy := hbest y List.mem_cons_self
    rw [List.foldl_cons]
    split at hy
    · next hpick =>
      obtain ⟨hmem, hall⟩ := ih hrest
      rw [if_pos hpick]
      exact ⟨.tail _ hmem, List.forall_mem_cons.mpr ⟨htrans _ _ _ hy (hall y List.mem_cons_self), hall⟩⟩
    · next hpick =>
      obtain ⟨hmem, hall⟩ := ih (List.pairwise_cons.mpr ⟨fun x hx => hbest x (.tail _ hx), (List.pairwise_cons.mp hrest).2⟩)
      obtain ⟨hfirst, hothers⟩ := List.forall_mem_cons.mp hall
      rw [if_neg hpick]
      refine ⟨List.mem_cons.mpr ((List.mem_cons.mp hmem).imp_right (.tail _)), List.forall_mem_cons.mpr ⟨hfirst, ?_⟩⟩
      exact List.forall_mem_cons.mpr ⟨htrans _ _ _ hy hfirst, hothers⟩

section

variable {α : Type} {p : α → Bool} {le : α → α → Bool} {xs ys : List α}

lemma sublist_filter_iff : ys.Sublist (xs.filter p) ↔ ys.Sublist xs ∧ ∀ y ∈ ys, p y = true := by
  constructor
  · intro h
    exact ⟨h.trans List.filter_sublist, fun y hy => (List.mem_filter.mp (h.subset hy)).2⟩
  · intro h
    rw [← List.filter_eq_self.mpr h.2]
    exact h.1.filter p

lemma rel_of_pairwise {R : α → α → Prop} {a b : α} (h : xs.Pairwise R) (hsub : [a, b, a].Sublist xs) :
    R a b ∧ R b a := by
  have hpairs := h.sublist hsub
  simp only [List.pairwise_cons, List.mem_cons, forall_eq_or_imp] at hpairs
  exact ⟨hpairs.1.1, hpairs.2.1.1⟩

lemma filter_mergeSort (htrans : ∀ a b c, le a b = true → le b c = true → le a c = true)
    (htotal : ∀ a b, (le a b || le b a) = true) (hp : ∀ a b, p a = true → p b = true → le a b = true) :
    (xs.mergeSort le).filter p = xs.filter p := by
  have hsorted : (xs.filter p).Pairwise fun a b => le a b = true := by
    apply List.pairwise_of_forall_mem_list
    intro a ha b hb
    exact hp a b (List.mem_filter.mp ha).2 (List.mem_filter.mp hb).2
  have hsublist := List.sublist_mergeSort htrans htotal hsorted List.filter_sublist
  have hfilter := sublist_filter_iff.mpr ⟨hsublist, fun a ha => (List.mem_filter.mp ha).2⟩
  exact (hfilter.eq_of_length ((List.mergeSort_perm xs le).filter p).length_eq.symm).symm

end

variable {α : Type} [BEq α] [LawfulBEq α] {a b x : α} {xs ys zs : List α}

omit [LawfulBEq α] in
lemma eraseRepsBy_loop_eq (acc : List α) :
    List.eraseRepsBy.loop (· == ·) a xs acc = acc.reverse ++ (a :: xs).eraseReps := by
  induction xs generalizing a acc with
  | nil => simp [List.eraseReps, List.eraseRepsBy, List.eraseRepsBy.loop]
  | cons b xs ih =>
    simp only [List.eraseReps, List.eraseRepsBy] at ih ⊢
    cases h : a == b with
    | true => simp only [List.eraseRepsBy.loop, h, ih acc]
    | false =>
      simp only [List.eraseRepsBy.loop, h]
      rw [ih (a :: acc), ih [a]]
      simp

lemma eraseReps_cons_self : (a :: a :: xs).eraseReps = (a :: xs).eraseReps := by
  simp [List.eraseReps, List.eraseRepsBy, List.eraseRepsBy.loop]

lemma eraseReps_cons_of_ne (h : a ≠ b) : (a :: b :: xs).eraseReps = a :: (b :: xs).eraseReps := by
  have hab : (a == b) = false := by simpa using h
  have hloop : List.eraseRepsBy.loop (· == ·) b xs [a] = [a].reverse ++ (b :: xs).eraseReps := eraseRepsBy_loop_eq [a]
  simp only [List.eraseReps, List.eraseRepsBy, List.eraseRepsBy.loop, hab]
  exact hloop

lemma mem_eraseReps : x ∈ xs.eraseReps ↔ x ∈ xs := by
  induction xs with
  | nil => rfl
  | cons a xs ih =>
    cases xs with
    | nil => rfl
    | cons b xs =>
      by_cases h : a = b
      · subst h
        rw [eraseReps_cons_self, ih]
        simp
      · rw [eraseReps_cons_of_ne h, List.mem_cons, ih, List.mem_cons (a := x) (b := a)]

lemma eraseReps_sublist : xs.eraseReps.Sublist xs := by
  induction xs with
  | nil => exact .slnil
  | cons a xs ih =>
    cases xs with
    | nil => exact .refl _
    | cons b xs =>
      by_cases h : a = b
      · subst h
        rw [eraseReps_cons_self]
        exact ih.cons a
      · rw [eraseReps_cons_of_ne h]
        exact ih.cons_cons a

lemma exists_eraseReps_cons (a : α) (xs : List α) : ∃ ys, (a :: xs).eraseReps = a :: ys := by
  induction xs with
  | nil => exact ⟨[], rfl⟩
  | cons b xs ih =>
    by_cases h : a = b
    · subst h
      rwa [eraseReps_cons_self]
    · exact ⟨_, eraseReps_cons_of_ne h⟩

lemma eraseReps_eraseReps : xs.eraseReps.eraseReps = xs.eraseReps := by
  induction xs with
  | nil => rfl
  | cons a xs ih =>
    cases xs with
    | nil => rfl
    | cons b xs =>
      by_cases h : a = b
      · subst h
        rwa [eraseReps_cons_self]
      · obtain ⟨ys, hys⟩ := exists_eraseReps_cons b xs
        rw [hys] at ih
        rw [eraseReps_cons_of_ne h, hys, eraseReps_cons_of_ne h, ih]

omit [LawfulBEq α] in
lemma eraseDups_sublist : xs.eraseDups.Sublist xs := by
  induction hlen : xs.length using Nat.strongRecOn generalizing xs with
  | ind n ih =>
    cases xs with
    | nil => exact .slnil
    | cons a xs =>
      rw [List.eraseDups_cons]
      have hle := List.length_filter_le (fun b => !b == a) xs
      rw [List.length_cons] at hlen
      exact ((ih _ (by omega) rfl).trans List.filter_sublist).cons_cons a

lemma nodup_eraseDups : xs.eraseDups.Nodup := by
  induction hlen : xs.length using Nat.strongRecOn generalizing xs with
  | ind n ih =>
    cases xs with
    | nil => exact .nil
    | cons a xs =>
      rw [List.eraseDups_cons, List.nodup_cons]
      have hle := List.length_filter_le (fun b => !b == a) xs
      rw [List.length_cons] at hlen
      refine ⟨fun hmem => ?_, ih _ (by omega) rfl⟩
      simp at hmem

lemma eraseDups_of_nodup (h : xs.Nodup) : xs.eraseDups = xs := by
  induction xs with
  | nil => rfl
  | cons a xs ih =>
    obtain ⟨ha, hxs⟩ := List.nodup_cons.mp h
    have hfilter : (xs.filter fun b => !b == a) = xs := by
      rw [List.filter_eq_self]
      intro b hb
      simpa using fun heq : b = a => ha (heq ▸ hb)
    rw [List.eraseDups_cons, hfilter, ih hxs]

lemma isChain_eraseReps : xs.eraseReps.IsChain (· ≠ ·) := by
  induction xs with
  | nil => exact .nil
  | cons a xs ih =>
    cases xs with
    | nil => exact .singleton a
    | cons b xs =>
      by_cases hab : a = b
      · subst hab
        rwa [eraseReps_cons_self]
      · obtain ⟨ys, hys⟩ := exists_eraseReps_cons b xs
        rw [eraseReps_cons_of_ne hab, hys, List.isChain_cons_cons]
        exact ⟨hab, hys ▸ ih⟩

lemma nodup_eraseReps_iff : xs.eraseReps.Nodup ↔ ∀ a b, [a, b, a].Sublist xs → a = b := by
  induction xs with
  | nil => simp [List.eraseReps, List.eraseRepsBy]
  | cons x xs ih =>
    cases xs with
    | nil => simp [List.eraseReps, List.eraseRepsBy, List.eraseRepsBy.loop]
    | cons y xs =>
      by_cases hxy : x = y
      · subst hxy
        rw [eraseReps_cons_self, ih]
        refine ⟨fun h a b hsub => ?_, fun h a b hsub => h a b (hsub.cons x)⟩
        rcases List.cons_sublist_cons'.mp hsub with hrest | ⟨rfl, hrest⟩
        · exact h a b hrest
        · rcases List.cons_sublist_cons'.mp hrest with hrest | ⟨rfl, _⟩
          · exact h a b (hrest.cons_cons a)
          · rfl
      · rw [eraseReps_cons_of_ne hxy, List.nodup_cons, mem_eraseReps, ih]
        constructor
        · intro h a b hsub
          rcases List.cons_sublist_cons'.mp hsub with hrest | ⟨rfl, hrest⟩
          · exact h.2 a b hrest
          · exact absurd (hrest.subset (List.mem_of_mem_tail List.mem_cons_self)) h.1
        · intro h
          refine ⟨fun hx => hxy (h x y ?_), fun a b hsub => h a b (hsub.cons x)⟩
          have hx : x ∈ xs := (List.mem_cons.mp hx).resolve_left hxy
          exact ((List.singleton_sublist.mpr hx).cons_cons y).cons_cons x

lemma nodup_eraseReps {R : α → α → Prop} (h : xs.Pairwise R)
    (hanti : ∀ a ∈ xs, ∀ b ∈ xs, R a b → R b a → a = b) : xs.eraseReps.Nodup := by
  apply nodup_eraseReps_iff.mpr
  intro a b hsub
  obtain ⟨hab, hba⟩ := rel_of_pairwise h hsub
  exact hanti a (hsub.subset (by simp)) b (hsub.subset (by simp)) hab hba

lemma idxOf_filter_lt_iff {p : α → Bool} (ha : p a = true) (hb : p b = true) :
    (xs.filter p).idxOf a < (xs.filter p).idxOf b ↔ xs.idxOf a < xs.idxOf b := by
  induction xs with
  | nil => rfl
  | cons x xs ih =>
    by_cases hxa : x = a
    · subst hxa
      by_cases hxb : x = b
      · simp [hxb]
      · simp [ha, hxb]
    · by_cases hxb : x = b
      · subst hxb
        simp [hb, hxa]
      · cases hx : p x with
        | true => simp [hx, hxa, hxb, ih]
        | false => simp [hx, hxa, hxb, ih]

lemma pairwise_idxOf_eraseDups : xs.eraseDups.Pairwise fun a b => xs.idxOf a < xs.idxOf b := by
  induction hlen : xs.length using Nat.strongRecOn generalizing xs with
  | ind n ih =>
    cases xs with
    | nil => exact .nil
    | cons a xs =>
      have hle := List.length_filter_le (fun b => !b == a) xs
      rw [List.length_cons] at hlen
      have hmem : ∀ b ∈ (xs.filter fun b => !b == a).eraseDups, (!b == a) = true ∧ a ≠ b := by
        intro b hb
        have hb := (List.mem_filter.mp (List.mem_eraseDups.mp hb)).2
        refine ⟨hb, ?_⟩
        rintro rfl
        simp at hb
      rw [List.eraseDups_cons, List.pairwise_cons]
      constructor
      · intro b hb
        simp [(hmem b hb).2]
      · apply (ih _ (by omega) rfl).imp_of_mem
        intro b c hb hc hlt
        have hlt := (idxOf_filter_lt_iff (p := fun b => !b == a) (hmem b hb).1 (hmem c hc).1).mp hlt
        simpa [(hmem b hb).2, (hmem c hc).2] using hlt

lemma eraseDups_concat_of_mem (h : a ∈ xs) : (xs ++ [a]).eraseDups = xs.eraseDups := by
  simp [List.eraseDups_append, List.removeAll, h]

lemma eraseDups_concat_of_notMem (h : a ∉ xs) : (xs ++ [a]).eraseDups = xs.eraseDups ++ [a] := by
  simp [List.eraseDups_append, List.removeAll, h, List.eraseDups_cons]

lemma eraseDups_append_congr (h : xs.eraseDups = ys.eraseDups) : (xs ++ zs).eraseDups = (ys ++ zs).eraseDups := by
  have hmem : ∀ z, xs.elem z = ys.elem z := by
    intro z
    rw [Bool.eq_iff_iff, List.elem_iff, List.elem_iff, ← List.mem_eraseDups, h, List.mem_eraseDups]
  rw [List.eraseDups_append, List.eraseDups_append, h]
  simp only [List.removeAll, hmem]

end PatternInference
