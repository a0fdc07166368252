import PatternInference.Proofs.Factoring.Interior

namespace PatternInference.Factoring

open PatternInference.Expr

variable {interior : Bool} {again : List Expr → Except Error Expr} {fuel : Nat} {e : Expr} {parts : List Expr}

lemma or_else_spec {first second : Except Error (Option (List Expr))}
    (hfirst : ∃ r, first = .ok r ∧ ∀ reduced, r = some reduced → Advances interior parts reduced)
    (hsecond : ∃ r, second = .ok r ∧ ∀ reduced, r = some reduced → Advances interior parts reduced) :
    ∃ r, (do if let some reduced ← first then return some reduced
             second) = .ok r ∧ ∀ reduced, r = some reduced → Advances interior parts reduced := by
  obtain ⟨r, rfl, hr⟩ := hfirst
  cases r with
  | none => exact hsecond
  | some reduced => exact ⟨some reduced, rfl, hr⟩

lemma step?_spec (hagain : Answers interior fuel again) (hsolved : ∀ e ∈ parts, e.isSolved = true)
    (hfuel : lettersOf parts ≤ fuel) : ∃ r, step? interior again parts = .ok r ∧
      ∀ reduced, r = some reduced → Advances interior parts reduced := by
  apply or_else_spec (affixFactored?_spec hagain hsolved hfuel)
  cases interior with
  | false => exact affixFactored?_spec hagain hsolved hfuel
  | true => exact or_else_spec (interiorFactored?_spec hagain hsolved hfuel) (affixFactored?_spec hagain hsolved hfuel)

lemma compact_spec (interior : Bool) (fuel : Nat) : Answers interior fuel (compact interior fuel) := by
  induction fuel with
  | zero =>
    intro parts _ hfuel
    exact absurd hfuel (Nat.not_lt_zero _)
  | succ fuel ih =>
    intro parts hsolved hfuel
    obtain ⟨r, hstep, hr⟩ := step?_spec ih hsolved (Nat.le_of_lt_succ hfuel)
    rw [compact, hstep]
    cases r with
    | none => exact ⟨_, rfl, .union hsolved⟩
    | some reduced =>
      obtain ⟨hrewrites, hless⟩ := hr reduced rfl
      obtain ⟨e, he, hcompact⟩ := ih reduced hrewrites.solved (by omega)
      exact ⟨e, he, hrewrites.trans hcompact⟩

lemma factor_spec (interior : Bool) (hsolved : e.isSolved = true) :
    ∃ f, factor interior false e = .ok f ∧ Rewrites interior [e] [f] := by
  apply within_spec _ hsolved (Nat.lt_succ_self _)
  intro parts hparts hfuel
  exact compact_spec interior (e.letters + 1) parts hparts hfuel

theorem factor_keeps_words (hsolved : e.isSolved = true) :
    ∃ f, factor false false e = .ok f ∧ f.isSolved = true ∧ f.language = e.language := by
  obtain ⟨f, hf, hrewrites⟩ := factor_spec false hsolved
  exact ⟨f, hf, hrewrites.solved f (List.mem_singleton_self f), hrewrites.language_eq rfl⟩

theorem factor_keeps_words_nested :
    ∃ f, factor false false (alt [alt [lit ['x']], alt [], seq (lit ['x']) (alt [lit [], lit ['y']])]) = .ok f ∧
      f.isSolved = true ∧ f.language = (alt [alt [lit ['x']], alt [], seq (lit ['x']) (alt [lit [], lit ['y']])]).language :=
  factor_keeps_words rfl

theorem factor_widens (hsolved : e.isSolved = true) :
    ∃ f, factor true false e = .ok f ∧ f.isSolved = true ∧ ∀ w ∈ e.language, w ∈ f.language := by
  obtain ⟨f, hf, hrewrites⟩ := factor_spec true hsolved
  exact ⟨f, hf, hrewrites.solved f (List.mem_singleton_self f), fun w hw => hrewrites.mem_language hw⟩

theorem factor_widens_interior :
    ∃ f, factor true false (alt [lit ['1', 'a', '5'], alt [lit ['2', 'a', '6']],
        seq (alt [lit ['x'], lit []]) (lit ['b']), seq (alt []) (lit ['c', 'b'])]) = .ok f ∧ f.isSolved = true ∧
      ∀ w ∈ (alt [lit ['1', 'a', '5'], alt [lit ['2', 'a', '6']], seq (alt [lit ['x'], lit []]) (lit ['b']),
        seq (alt []) (lit ['c', 'b'])]).language, w ∈ f.language :=
  factor_widens rfl

end PatternInference.Factoring
