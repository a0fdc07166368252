import Mathlib.Data.List.Permutation
import PatternInference.Proofs.Expr.Union
import PatternInference.Proofs.Factoring.Compact

/-! Factoring ends in a normal form, and it leaves a normal form as it is. -/

namespace PatternInference.Factoring

open PatternInference.Expr

variable {interior : Bool} {again : List Expr → Except Error Expr} {fuel : Nat} {side : Side} {c : Char}
  {symbols root affix : List Char} {e inner before after : Expr} {parts : List Expr} {r : Option (List Expr)}

/--
No branch is an alternation, all are different, no two share their outermost symbol, and where interiors are
factored the literals have no text in common.
-/
structure Normal (interior : Bool) (parts : List Expr) : Prop where
  unbranched : ∀ e ∈ parts, e.Unbranched
  nodup : parts.Nodup
  leading : parts.Pairwise fun e f => ∀ c s t, e.exposed? .leading = some (c :: s) → f.exposed? .leading ≠ some (c :: t)
  trailing : parts.Pairwise fun e f =>
    ∀ c s t, e.exposed? .trailing = some (s ++ [c]) → f.exposed? .trailing ≠ some (t ++ [c])
  interior : interior = true → 2 ≤ (parts.filterMap literalText?).length →
    ∀ text, text ≠ [] → ∃ t ∈ parts.filterMap literalText?, ¬ text <:+: t

structure Settled (interior : Bool) (parts : List Expr) : Prop where
  affix : ∀ side, mostShared? (parts.filterMap (outermost? side)) = none
  interior : interior = true →
    (parts.filterMap literalText?).length < 2 ∨ Text.longestCommonSubstring (parts.filterMap literalText?) = []

lemma of_foldl_eq_none {f : Option Char → Char → Option Char} {best : Option Char} (hf : ∀ b c, f (some b) c ≠ none)
    (h : symbols.foldl f best = none) : best = none ∧ ∀ c ∈ symbols, f none c = none := by
  induction symbols generalizing best with
  | nil => exact ⟨h, by simp⟩
  | cons a symbols ih =>
    obtain ⟨ha, hsymbols⟩ := ih h
    cases best with
    | none => exact ⟨rfl, List.forall_mem_cons.mpr ⟨ha, hsymbols⟩⟩
    | some b => exact absurd ha (hf b a)

lemma mostShared?_eq_none_iff : mostShared? symbols = none ↔ symbols.Nodup := by
  rw [List.nodup_iff_count_le_one]
  refine ⟨fun h c => ?_, fun h => ?_⟩
  · by_contra hcount
    have hmem : c ∈ symbols := List.count_pos_iff.mp (by omega)
    rw [mostShared?] at h
    have hnone := (of_foldl_eq_none (fun b c => by dsimp only; split <;> simp) h).2 c hmem
    simp only [if_pos (show 2 ≤ symbols.count c by omega)] at hnone
    cases hnone
  · cases hshared : mostShared? symbols with
    | none => rfl
    | some c =>
      have hcount := two_le_count hshared
      have hle := h c
      omega

lemma unbranched_attach (h : affix ≠ []) : (attach side (lit affix) e).Unbranched := by
  have hlit : (lit affix).Unbranched ∧ lit affix ≠ lit [] := ⟨fun _ => nofun, by simpa using h⟩
  cases side with
  | leading => exact unbranched_concat (.inl hlit)
  | trailing => exact unbranched_concat (.inr hlit)

lemma unbranched_around (h : root ≠ []) : (concat before (concat (lit root) after)).Unbranched := by
  have hlit : (lit root).Unbranched ∧ lit root ≠ lit [] := ⟨fun _ => nofun, by simpa using h⟩
  exact unbranched_concat (.inr ⟨unbranched_concat (.inl hlit), concat_ne_epsilon hlit.2⟩)

structure Merged (parts reduced : List Expr) : Prop where
  unbranched : (∀ e ∈ parts, e.Unbranched) → ∀ e ∈ reduced, e.Unbranched
  length_lt : reduced.length < parts.length

structure Factored (interior : Bool) (parts es : List Expr) : Prop where
  solved : ∀ e ∈ es, e.isSolved = true
  unbranched : ∀ e ∈ es, e.Unbranched
  settled : Settled interior es
  length_le : es.length ≤ parts.length
  letters_le : lettersOf es ≤ lettersOf parts
  letters_lt : ¬ Settled interior parts → lettersOf es < lettersOf parts

lemma Merged.of_filter {P : Expr → Bool} (he : e.Unbranched) (hmany : 2 ≤ (parts.filter P).length) :
    Merged parts (e :: parts.filter fun f => !P f) := by
  refine ⟨fun hparts => List.forall_mem_cons.mpr ⟨he, fun f hf => hparts f (List.mem_filter.mp hf).1⟩, ?_⟩
  have hlength := List.length_eq_length_filter_add (l := parts) P
  rw [List.length_cons]
  omega

lemma length_filter_isLiteral : (parts.filter isLiteral).length = (parts.filterMap literalText?).length := by
  rw [List.length_filterMap_eq_countP, List.countP_eq_length_filter]
  congr 2
  funext e
  cases e <;> rfl

lemma affixFactored?_cases (h : affixFactored? again side parts = .ok r) :
    r = none ∧ mostShared? (parts.filterMap (outermost? side)) = none ∨
      ∃ reduced, r = some reduced ∧ Merged parts reduced := by
  rw [affixFactored?] at h
  cases hshared : mostShared? (parts.filterMap (outermost? side)) with
  | none =>
    rw [hshared] at h
    cases h
    exact .inl ⟨rfl, rfl⟩
  | some c =>
    obtain ⟨hcount, houtermost⟩ := group_spec hshared
    have hne := List.ne_nil_of_length_pos (Nat.zero_lt_of_lt hcount)
    simp only [hshared, bind_eq_ok_iff] at h
    obtain ⟨_, _, _, _, h⟩ := h
    cases h
    exact .inr ⟨_, rfl, .of_filter (unbranched_attach (sharedAffix_spec hne houtermost).1) hcount⟩

lemma interiorFactored?_cases (h : interiorFactored? again parts = .ok r) :
    r = none ∧ ((parts.filterMap literalText?).length < 2 ∨
        Text.longestCommonSubstring (parts.filterMap literalText?) = []) ∨
      ∃ reduced, r = some reduced ∧ Merged parts reduced := by
  rw [interiorFactored?] at h
  dsimp only at h
  split at h
  · next hnone =>
    cases h
    exact .inl ⟨rfl, hnone⟩
  · next hshared =>
    obtain ⟨hmany, hroot⟩ := not_or.mp hshared
    simp only [bind_eq_ok_iff] at h
    obtain ⟨_, _, _, _, h⟩ := h
    cases h
    exact .inr ⟨_, rfl, .of_filter (unbranched_around hroot) (length_filter_isLiteral ▸ Nat.not_lt.mp hmany)⟩

lemma step?_cases (h : step? interior again parts = .ok r) :
    r = none ∧ Settled interior parts ∨ ∃ reduced, r = some reduced ∧ Merged parts reduced := by
  rw [step?, bind_eq_ok_iff] at h
  obtain ⟨first, hfirst, h⟩ := h
  rcases affixFactored?_cases hfirst with ⟨rfl, hleading⟩ | ⟨reduced, rfl, hmerged⟩
  · cases interior with
    | false =>
      rcases affixFactored?_cases h with ⟨rfl, htrailing⟩ | hsome
      · exact .inl ⟨rfl, fun side => by cases side <;> assumption, nofun⟩
      · exact .inr hsome
    | true =>
      simp only [if_true, bind_eq_ok_iff] at h
      obtain ⟨second, hsecond, h⟩ := h
      rcases interiorFactored?_cases hsecond with ⟨rfl, hinterior⟩ | ⟨reduced, rfl, hmerged⟩
      · rcases affixFactored?_cases h with ⟨rfl, htrailing⟩ | hsome
        · exact .inl ⟨rfl, fun side => by cases side <;> assumption, fun _ => hinterior⟩
        · exact .inr hsome
      · cases h
        exact .inr ⟨reduced, rfl, hmerged⟩
  · cases h
    exact .inr ⟨reduced, rfl, hmerged⟩

lemma Settled.step?_eq (h : Settled interior parts) : step? interior again parts = .ok none := by
  have haffix : ∀ side, affixFactored? again side parts = .ok none := by
    intro side
    rw [affixFactored?, h.affix side]
  rw [step?, haffix, haffix]
  cases hinterior : interior with
  | false => rfl
  | true =>
    have hnone : interiorFactored? again parts = .ok none := by
      rw [interiorFactored?]
      exact if_pos (h.interior hinterior)
    rw [hnone]
    rfl

lemma compact_factored (hsolved : ∀ e ∈ parts, e.isSolved = true) (hunbranched : ∀ e ∈ parts, e.Unbranched)
    (hfuel : lettersOf parts < fuel) :
    ∃ es, compact interior fuel parts = .ok (union es) ∧ Factored interior parts es := by
  induction fuel generalizing parts with
  | zero => exact absurd hfuel (Nat.not_lt_zero _)
  | succ fuel ih =>
    obtain ⟨r, hstep, hr⟩ := step?_spec (compact_spec interior fuel) hsolved (Nat.le_of_lt_succ hfuel)
    rw [compact, hstep]
    rcases step?_cases hstep with ⟨rfl, hsettled⟩ | ⟨reduced, rfl, hmerged⟩
    · exact ⟨parts, rfl, hsolved, hunbranched, hsettled, le_rfl, le_rfl, fun hnot => absurd hsettled hnot⟩
    · obtain ⟨hrewrites, hless⟩ := hr _ rfl
      obtain ⟨es, hes, h⟩ := ih hrewrites.solved (hmerged.unbranched hunbranched) (by omega)
      have hlt := Nat.lt_of_le_of_lt h.letters_le hless
      exact ⟨es, hes, h.solved, h.unbranched, h.settled, h.length_le.trans hmerged.length_lt.le, hlt.le, fun _ => hlt⟩

lemma Settled.unionBranches (h : Settled interior parts) : Settled interior (sortedLiterals parts ++ composites parts) := by
  refine ⟨fun side => ?_, fun hinterior => ?_⟩
  · have hcount := h.affix side
    rw [mostShared?_eq_none_iff, List.nodup_iff_count_le_one] at hcount ⊢
    intro c
    apply Nat.le_trans _ (hcount c)
    rw [List.count_filterMap, List.count_filterMap]
    exact unionBranches_subperm.countP_le _
  · have hmem : ∀ t, t ∈ (sortedLiterals parts ++ composites parts).filterMap literalText? ↔
        t ∈ parts.filterMap literalText? := by
      intro t
      simp only [List.mem_filterMap, mem_unionBranches]
    by_cases hmany : ((sortedLiterals parts ++ composites parts).filterMap literalText?).length < 2
    · exact .inl hmany
    · right
      obtain ⟨es, hperm, hsub⟩ := @unionBranches_subperm parts
      have hlen := (hperm.filterMap literalText?).length_eq
      have hle := (hsub.filterMap literalText?).length_le
      have hne := List.ne_nil_of_length_pos (by omega : 0 < (parts.filterMap literalText?).length)
      apply Text.eq_nil_of_isInfix hne ((h.interior hinterior).resolve_left (by omega))
      intro t ht
      exact Text.isInfix_longestCommonSubstring ((hmem t).mpr ht)

lemma Settled.normal (h : Settled interior parts) (hunbranched : ∀ e ∈ parts, e.Unbranched) (hnodup : parts.Nodup) :
    Normal interior parts := by
  have houter : ∀ side, parts.Pairwise fun e f => ∀ c, outermost? side e = some c → outermost? side f ≠ some c := by
    intro side
    have hsymbols := mostShared?_eq_none_iff.mp (h.affix side)
    rw [List.Nodup, List.pairwise_filterMap] at hsymbols
    exact hsymbols.imp fun hne c he hf => hne c he c hf rfl
  refine ⟨hunbranched, hnodup, (houter .leading).imp ?_, (houter .trailing).imp ?_, fun hinterior hmany text htext => ?_⟩
  · intro e f hne c s t he hf
    exact hne c (by simp [outermost?, he, Side.inward]) (by simp [outermost?, hf, Side.inward])
  · intro e f hne c s t he hf
    exact hne c (by simp [outermost?, he, Side.inward]) (by simp [outermost?, hf, Side.inward])
  · by_contra hall
    push Not at hall
    have hne := List.ne_nil_of_length_pos (by omega : 0 < (parts.filterMap literalText?).length)
    exact htext (Text.eq_nil_of_isInfix hne ((h.interior hinterior).resolve_left (by omega)) hall)

lemma Normal.factor_eq (h : Normal interior parts) (hsettled : Settled interior parts)
    (hunion : sortedLiterals parts ++ composites parts = parts) :
    factor interior false (ofBranches parts) = .ok (ofBranches parts) := by
  fun_cases ofBranches parts with
  | case1 e =>
    have he := h.unbranched e (by simp)
    cases e with
    | alt parts => exact absurd rfl (he parts)
    | lit | pending | seq => rfl
  | case2 parts hmany =>
    have hbranches := branchesOf_eq_of_unbranched h.unbranched
    have hcompact : ∀ fuel, compact interior (fuel + 1) parts = .ok (alt parts) := by
      intro fuel
      rw [compact, hsettled.step?_eq]
      change Except.ok (union parts) = _
      rw [union_eq, hbranches, hunion, ofBranches]
      exact hmany
    rw [factor, within, hbranches, eraseDups_of_nodup h.nodup]
    exact hcompact _

lemma factor_alt (interior : Bool) (hsolved : (alt parts).isSolved = true) :
    ∃ es, factor interior false (alt parts) = .ok (union es) ∧ Factored interior (branchesOf parts).eraseDups es := by
  rw [isSolved, areSolved_eq_all, List.all_eq_true] at hsolved
  have hbranches : Rewrites interior parts (branchesOf parts).eraseDups := .branchesOf hsolved
  exact compact_factored hbranches.solved (fun e he => unbranched_of_mem_branchesOf (List.mem_eraseDups.mp he))
    (Nat.lt_succ_of_le hbranches.letters)

theorem factor_normalizes (interior : Bool) (hsolved : e.isSolved = true) :
    ∃ f, factor interior false e = .ok f ∧ factor interior false f = .ok f ∧ ∀ parts, f = alt parts → Normal interior parts := by
  cases e with
  | lit | pending | seq => exact ⟨_, rfl, rfl, fun _ => nofun⟩
  | alt parts =>
    obtain ⟨es, hfactor, hes, hunbranched, hsettled⟩ := factor_alt interior hsolved
    have hnormal := hsettled.unionBranches.normal (fun e he => hunbranched e (mem_unionBranches.mp he)) (nodup_unionBranches hes)
    rw [union_eq, branchesOf_eq_of_unbranched hunbranched] at hfactor
    refine ⟨_, hfactor, hnormal.factor_eq hsettled.unionBranches unionBranches_idem, fun parts hparts => ?_⟩
    revert hnormal hparts
    fun_cases ofBranches (sortedLiterals es ++ composites es) with
    | case1 e => exact fun hnormal hparts => absurd hparts (hnormal.unbranched e (by simp) parts)
    | case2 =>
      intro hnormal hparts
      rwa [← alt.inj hparts]

theorem factor_normalizes_interior :
    let shared := seq (alt [lit ['1'], lit ['2']]) (seq (lit ['a']) (alt [lit ['5'], lit ['6']]))
    let e := alt [lit ['1', 'a', '5'], shared, alt [lit ['2', 'a', '6'], seq (alt [lit [], lit ['x']]) (alt [])]]
    let f := alt [shared, seq (alt [lit [], lit ['x']]) (alt [])]
    factor true false e = .ok f ∧ factor true false f = .ok f ∧
      Normal true [shared, seq (alt [lit [], lit ['x']]) (alt [])] := by
  intro shared e f
  obtain ⟨g, hg, hagain, hnormal⟩ := factor_normalizes (e := e) true rfl
  have hf : factor true false e = .ok f := by cbv
  rw [hf, Except.ok.injEq] at hg
  subst hg
  exact ⟨hf, hagain, hnormal _ rfl⟩

end PatternInference.Factoring
