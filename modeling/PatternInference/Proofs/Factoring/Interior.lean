import PatternInference.Proofs.Expr.Union
import PatternInference.Proofs.Factoring.Affix
import PatternInference.Proofs.Text.CommonSubstring

namespace PatternInference.Factoring

open PatternInference.Expr

variable {again : List Expr → Except Error Expr} {fuel : Nat} {root : List Char} {parts : List Expr}
  {texts : List (List Char)} {before after : Expr}

lemma lettersOf_filter_isLiteral :
    lettersOf (parts.filter isLiteral) = lettersOf ((parts.filterMap literalText?).map .lit) := by
  induction parts with
  | nil => rfl
  | cons e parts ih => cases e <;> simp [List.filter_cons, List.filterMap_cons, isLiteral, literalText?, Expr.letters, ih]

lemma letters_halves (hroot : ∀ t ∈ texts, root <:+: t) :
    lettersOf ((texts.filterMap (Text.cutAround? root)).map fun h => .lit h.1) + texts.length * root.length +
      lettersOf ((texts.filterMap (Text.cutAround? root)).map fun h => .lit h.2) = lettersOf (texts.map .lit) := by
  induction texts with
  | nil => simp
  | cons t texts ih =>
    have ht := hroot t (by simp)
    rw [← Text.occursIn_iff, Text.occursIn, Option.isSome_iff_exists] at ht
    obtain ⟨h, hcut⟩ := ht
    have hlen := congrArg List.length (Text.cutAround?_eq_some hcut)
    have htexts := ih fun t ht => hroot t (by simp [ht])
    simp only [List.length_append] at hlen
    simp only [List.filterMap_cons, hcut, List.map_cons, lettersOf_cons, Expr.letters, List.length_cons, Nat.succ_mul]
    omega

lemma rewrites_around (hsolved : ∀ e ∈ parts, e.isSolved = true) (hne : parts.filterMap literalText? ≠ [])
    (hroot : ∀ t ∈ parts.filterMap literalText?, root <:+: t)
    (hbefore : Rewrites true (((parts.filterMap literalText?).filterMap (Text.cutAround? root)).map fun h => .lit h.1)
      [before])
    (hafter : Rewrites true (((parts.filterMap literalText?).filterMap (Text.cutAround? root)).map fun h => .lit h.2)
      [after]) : Rewrites true (parts.filter isLiteral) [concat before (concat (lit root) after)] := by
  set texts := parts.filterMap literalText? with htexts
  set halves := texts.filterMap (Text.cutAround? root) with hhalves
  have hcut : ∀ t ∈ texts, ∃ h ∈ halves, t = h.1 ++ root ++ h.2 := by
    intro t ht
    have hoccurs := hroot t ht
    rw [← Text.occursIn_iff, Text.occursIn, Option.isSome_iff_exists] at hoccurs
    obtain ⟨h, hcut⟩ := hoccurs
    exact ⟨h, List.mem_filterMap.mpr ⟨t, ht, hcut⟩, Text.cutAround?_eq_some hcut⟩
  have hletters := letters_halves hroot
  rw [← hhalves] at hletters
  constructor
  case solved =>
    intro e he
    rw [List.mem_singleton.mp he]
    exact isSolved_concat.mpr ⟨hbefore.solved _ (by simp), isSolved_concat.mpr ⟨rfl, hafter.solved _ (by simp)⟩⟩
  case complete =>
    intro f hf w hw
    obtain ⟨hparts, hliteral⟩ := List.mem_filter.mp hf
    obtain ⟨text, rfl, htext⟩ := eq_lit hliteral (hsolved f hparts)
    obtain ⟨h, hh, heq⟩ := hcut text (List.mem_filterMap.mpr ⟨_, hparts, htext⟩)
    obtain ⟨e, he, hb⟩ := hbefore.complete (.lit h.1) (List.mem_map_of_mem hh) h.1 rfl
    rw [List.mem_singleton.mp he] at hb
    obtain ⟨e, he, ha⟩ := hafter.complete (.lit h.2) (List.mem_map_of_mem hh) h.2 rfl
    rw [List.mem_singleton.mp he] at ha
    refine ⟨_, List.mem_singleton_self _, ?_⟩
    rw [mem_singleton.mp hw, heq]
    simp only [Expr.language, meaning_concat, meaning_lit, Language.mem_mul]
    exact ⟨h.1, hb, root ++ h.2, ⟨root, rfl, h.2, ha, rfl⟩, by simp⟩
  case sound => simp
  case unambiguous => simp
  case letters =>
    have hb := hbefore.letters
    have ha := hafter.letters
    have hpos := Nat.le_mul_of_pos_left root.length (List.length_pos_iff.mpr hne)
    simp only [lettersOf_cons, lettersOf_nil] at ha hb ⊢
    rw [lettersOf_filter_isLiteral, ← htexts, letters_concat, letters_concat, Expr.letters]
    omega
  case forked =>
    intro _ _
    obtain ⟨t, ht⟩ := List.exists_mem_of_ne_nil texts hne
    obtain ⟨h, hh, _⟩ := hcut t ht
    have hnehalves := List.ne_nil_of_mem hh
    have hlits : ∀ g : List Char × List Char → List Char, ∀ e ∈ halves.map fun h => lit (g h), e.Forked := by
      intro g e he
      obtain ⟨h, _, rfl⟩ := List.mem_map.mp he
      exact .lit (g h)
    obtain ⟨_, hb⟩ := hbefore.forked (by simpa using hnehalves) (hlits Prod.fst)
    obtain ⟨_, ha⟩ := hafter.forked (by simpa using hnehalves) (hlits Prod.snd)
    refine ⟨by simp, fun e he => ?_⟩
    rw [List.mem_singleton.mp he]
    exact .concat (hb before (by simp)) (.concat (.lit root) (ha after (by simp)))

lemma within_union (hagain : Answers true fuel again) (parts : List Expr) (hsolved : ∀ e ∈ parts, e.isSolved = true)
    (hfuel : lettersOf parts < fuel) :
    ∃ e, within again (.union parts) = .ok e ∧ Rewrites true parts [e] := by
  have hunion : Rewrites true parts [Expr.union parts] := .union hsolved
  obtain ⟨e, he, hrewrites⟩ := within_spec hagain (isSolved_union.mpr hsolved)
    (Nat.lt_of_le_of_lt letters_union_le hfuel)
  exact ⟨e, he, hunion.trans hrewrites⟩

lemma interiorFactored?_spec (hagain : Answers true fuel again) (hsolved : ∀ e ∈ parts, e.isSolved = true)
    (hfuel : lettersOf parts ≤ fuel) : ∃ r, interiorFactored? again parts = .ok r ∧
      ∀ reduced, r = some reduced → Advances true parts reduced := by
  rw [interiorFactored?]
  set texts := parts.filterMap literalText? with htexts
  set root := Text.longestCommonSubstring texts with hrootdef
  dsimp only
  split
  · exact ⟨none, rfl, by simp⟩
  · next hshared =>
    obtain ⟨hmany, hroot⟩ := not_or.mp hshared
    have hinfix : ∀ t ∈ texts, root <:+: t := fun t ht => Text.isInfix_longestCommonSubstring ht
    have hletters := letters_halves hinfix
    rw [htexts, ← lettersOf_filter_isLiteral, ← htexts] at hletters
    set halves := texts.filterMap (Text.cutAround? root) with hhalves
    have hsplit := lettersOf_filter isLiteral parts
    have hrootpos := List.length_pos_iff.mpr hroot
    have hshrink := Nat.mul_le_mul_right root.length (Nat.not_lt.mp hmany)
    have hlits : ∀ g : List Char × List Char → List Char, ∀ e ∈ halves.map fun h => lit (g h), e.isSolved = true := by
      intro g e he
      obtain ⟨h, _, rfl⟩ := List.mem_map.mp he
      rfl
    obtain ⟨before, hbefore, hb⟩ := within_union hagain (halves.map fun h => lit h.1) (hlits Prod.fst) (by omega)
    obtain ⟨after, hafter, ha⟩ := within_union hagain (halves.map fun h => lit h.2) (hlits Prod.snd) (by omega)
    have hne : texts ≠ [] := by
      rintro hnil
      simp [hnil] at hmany
    have hliterals : parts.filter isLiteral ≠ [] := by
      obtain ⟨t, ht⟩ := List.exists_mem_of_ne_nil texts hne
      obtain ⟨e, he, htext⟩ := List.mem_filterMap.mp ht
      apply List.ne_nil_of_mem (a := e)
      cases e with
      | lit | pending => exact List.mem_filter.mpr ⟨he, rfl⟩
      | alt | seq => cases htext
    have haround := rewrites_around hsolved hne hinfix hb ha
    refine ⟨some (concat before (concat (lit root) after) :: parts.filter fun e => !e.isLiteral), ?_, ?_⟩
    · rw [hbefore, hafter]
      rfl
    · rintro reduced ⟨⟩
      refine ⟨.of_filter hsolved hliterals haround, ?_⟩
      have hble := hb.letters
      have hale := ha.letters
      simp only [lettersOf_cons, lettersOf_nil] at hble hale
      rw [lettersOf_cons, letters_concat, letters_concat, Expr.letters]
      omega

end PatternInference.Factoring
