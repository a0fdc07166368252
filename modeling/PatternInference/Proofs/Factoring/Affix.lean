import Mathlib.Tactic.Choose
import PatternInference.Factoring
import PatternInference.Proofs.Expr.Affix
import PatternInference.Proofs.Factoring.Rewrites
import PatternInference.Proofs.Text.CommonPrefix

namespace PatternInference.Factoring

open PatternInference.Expr

variable {interior : Bool} {again : List Expr → Except Error Expr} {fuel k : Nat} {side : Side} {c : Char}
  {symbols affix : List Char} {e inner : Expr} {parts reduced group : List Expr} {m : Expr → Expr}

def Answers (interior : Bool) (fuel : Nat) (again : List Expr → Except Error Expr) : Prop :=
  ∀ parts, (∀ e ∈ parts, e.isSolved = true) → lettersOf parts < fuel →
    ∃ e, again parts = .ok e ∧ Rewrites interior parts [e]

def Advances (interior : Bool) (parts reduced : List Expr) : Prop :=
  Rewrites interior parts reduced ∧ lettersOf reduced < lettersOf parts

lemma within_alt (hagain : Answers interior fuel again) (hsolved : ∀ e ∈ parts, e.isSolved = true)
    (hfuel : lettersOf parts < fuel) : ∃ e, within again (.alt parts) = .ok e ∧ Rewrites interior parts [e] := by
  have hbranches : Rewrites interior parts (branchesOf parts).eraseDups := .branchesOf hsolved
  obtain ⟨e, he, hrewrites⟩ := hagain _ hbranches.solved (Nat.lt_of_le_of_lt hbranches.letters hfuel)
  exact ⟨e, he, hbranches.trans hrewrites⟩

lemma within_spec (hagain : Answers interior fuel again) (hsolved : e.isSolved = true) (hfuel : e.letters < fuel) :
    ∃ f, within again e = .ok f ∧ Rewrites interior [e] [f] := by
  cases e with
  | alt parts =>
    simp only [isSolved, areSolved_eq_all, List.all_eq_true] at hsolved
    obtain ⟨f, hf, hrewrites⟩ := within_alt hagain hsolved hfuel
    exact ⟨f, hf, hrewrites.alt⟩
  | lit | pending | seq => exact ⟨_, rfl, .refl (by simpa using hsolved)⟩

lemma of_foldl_eq_some {P : Char → Prop} {f : Option Char → Char → Option Char} {best : Option Char}
    (hf : ∀ best c, (∀ b, best = some b → P b) → ∀ b, f best c = some b → P b) (hbest : ∀ b, best = some b → P b)
    (h : symbols.foldl f best = some c) : P c := by
  induction symbols generalizing best with
  | nil => exact hbest c h
  | cons a symbols ih => exact ih (hf best a hbest) h

lemma two_le_count (h : mostShared? symbols = some c) : 2 ≤ symbols.count c := by
  rw [mostShared?] at h
  refine of_foldl_eq_some (P := fun b => 2 ≤ symbols.count b) ?_ (by simp) h
  intro best a hbest b hb
  cases best with
  | none =>
    obtain ⟨hcount, heq⟩ := Option.ite_none_right_eq_some.mp hb
    cases heq
    exact hcount
  | some d =>
    have hd := hbest d rfl
    dsimp only at hb
    split at hb
    · next hbetter =>
      cases hb
      omega
    · cases hb
      exact hd

lemma exists_of_outermost? (h : outermost? side e = some c) :
    ∃ text, e.exposed? side = some text ∧ [c] <+: side.inward text := by
  obtain ⟨text, htext, hhead⟩ := Option.bind_eq_some_iff.mp h
  refine ⟨text, htext, ?_⟩
  obtain ⟨rest, hrest⟩ := List.head?_eq_some_iff.mp hhead
  rw [hrest]
  exact ⟨rest, rfl⟩

lemma sharedAffix_spec (hne : group ≠ []) (hgroup : ∀ e ∈ group, outermost? side e = some c) :
    sharedAffix side group ≠ [] ∧
      ∀ e ∈ group, ∃ text rest, e.exposed? side = some text ∧ side.strip? (sharedAffix side group) text = some rest := by
  set texts := (group.filterMap (exposed? side)).map side.inward with htexts
  have hmem : ∀ e ∈ group, ∀ text, e.exposed? side = some text → side.inward text ∈ texts := by
    intro e he text htext
    exact List.mem_map_of_mem (List.mem_filterMap.mpr ⟨e, he, htext⟩)
  obtain ⟨e, he⟩ := List.exists_mem_of_ne_nil group hne
  obtain ⟨text, htext, _⟩ := exists_of_outermost? (hgroup e he)
  have hiff : ∀ p, p <+: side.inward (sharedAffix side group) ↔ ∀ t ∈ texts, p <+: t := by
    intro p
    rw [sharedAffix, Side.inward_inward]
    exact Text.prefix_commonPrefixOfAll_iff (List.ne_nil_of_mem (hmem e he text htext))
  refine ⟨?_, fun e he => ?_⟩
  · have hc : [c] <+: side.inward (sharedAffix side group) := by
      rw [hiff]
      intro t ht
      obtain ⟨text, htext, rfl⟩ := List.mem_map.mp ht
      obtain ⟨e, he, hexposed⟩ := List.mem_filterMap.mp htext
      obtain ⟨text', htext', hhead⟩ := exists_of_outermost? (hgroup e he)
      rw [hexposed] at htext'
      cases htext'
      exact hhead
    intro hnil
    cases side <;> simp [hnil, Side.inward] at hc
  · obtain ⟨text, htext, _⟩ := exists_of_outermost? (hgroup e he)
    obtain ⟨rest, hrest⟩ := Side.exists_strip? ((hiff _).mp (List.prefix_refl _) _ (hmem e he text htext))
    exact ⟨text, rest, htext, hrest⟩

lemma group_spec (h : mostShared? (parts.filterMap (outermost? side)) = some c) :
    2 ≤ (parts.filter fun e => outermost? side e == some c).length ∧
      ∀ e ∈ parts.filter fun e => outermost? side e == some c, outermost? side e = some c := by
  have hcount := two_le_count h
  rw [List.count_filterMap, List.countP_eq_length_filter] at hcount
  exact ⟨hcount, fun e he => by simpa using (List.mem_filter.mp he).2⟩

lemma lettersOf_map_add (h : ∀ e ∈ group, (m e).letters + k = e.letters) :
    lettersOf (group.map m) + group.length * k = lettersOf group := by
  induction group with
  | nil => simp
  | cons e group ih =>
    have he := h e (by simp)
    have hgroup := ih fun f hf => h f (by simp [hf])
    rw [List.map_cons, lettersOf_cons, lettersOf_cons, List.length_cons, Nat.succ_mul]
    omega

lemma rewrites_attach (hne : group ≠ []) (hstripped : ∀ e ∈ group, Stripped side affix e (m e))
    (hinner : Rewrites interior (group.map m) [inner]) : Rewrites interior group [attach side (lit affix) inner] := by
  have hletters := lettersOf_map_add fun e he => (hstripped e he).letters
  constructor
  case solved =>
    intro e he
    rw [List.mem_singleton.mp he]
    exact isSolved_attach.mpr ⟨rfl, hinner.solved inner (by simp)⟩
  case complete =>
    intro f hf w hw
    obtain ⟨v, hv, hglue⟩ := (hstripped f hf).mem_language.mp hw
    obtain ⟨e, he, hv⟩ := hinner.complete (m f) (List.mem_map_of_mem hf) v hv
    rw [List.mem_singleton.mp he] at hv
    exact ⟨_, List.mem_singleton_self _, mem_language_attach.mpr ⟨v, hv, hglue⟩⟩
  case sound =>
    intro hinterior e he w hw
    rw [List.mem_singleton.mp he] at hw
    obtain ⟨v, hv, hglue⟩ := mem_language_attach.mp hw
    obtain ⟨f, hf, hv⟩ := hinner.sound hinterior inner (by simp) v hv
    obtain ⟨g, hg, rfl⟩ := List.mem_map.mp hf
    exact ⟨g, hg, (hstripped g hg).mem_language.mpr ⟨v, hv, hglue⟩⟩
  case unambiguous =>
    intro hinterior hnodup
    have hgroup : expansionsOf group = (expansionsOf (group.map m)).map (side.glue affix) := by
      rw [expansionsOf_eq_flatMap, expansionsOf_eq_flatMap, List.flatMap_map, List.map_flatMap]
      exact List.flatMap_congr fun e he => (hstripped e he).expansions.symm
    rw [hgroup] at hnodup
    have hinnernodup := hinner.unambiguous hinterior hnodup.of_map
    rw [expansionsOf_singleton] at hinnernodup ⊢
    rw [expansions_attach]
    exact hinnernodup.map Side.glue_injective
  case letters =>
    have hle := hinner.letters
    have hpos := Nat.le_mul_of_pos_left affix.length (List.length_pos_iff.mpr hne)
    simp only [lettersOf_cons, lettersOf_nil, letters_attach, Expr.letters] at hle ⊢
    omega
  case forked =>
    intro _ hforked
    have hm : ∀ f ∈ group.map m, f.Forked := by
      intro f hf
      obtain ⟨g, hg, rfl⟩ := List.mem_map.mp hf
      exact (hstripped g hg).forked (hforked g hg)
    obtain ⟨_, hinnerforked⟩ := hinner.forked (by simpa using hne) hm
    refine ⟨by simp, fun e he => ?_⟩
    rw [List.mem_singleton.mp he]
    exact .attach (.lit affix) (hinnerforked inner (by simp))

lemma affixFactored?_spec (hagain : Answers interior fuel again) (hsolved : ∀ e ∈ parts, e.isSolved = true)
    (hfuel : lettersOf parts ≤ fuel) : ∃ r, affixFactored? again side parts = .ok r ∧
      ∀ reduced, r = some reduced → Advances interior parts reduced := by
  rw [affixFactored?]
  cases hshared : mostShared? (parts.filterMap (outermost? side)) with
  | none => exact ⟨none, rfl, by simp⟩
  | some c =>
    set group := parts.filter fun e => outermost? side e == some c with hgroup
    obtain ⟨hcount, houtermost⟩ := group_spec hshared
    rw [← hgroup] at hcount houtermost
    have hne : group ≠ [] := by
      rw [← List.length_pos_iff]
      omega
    obtain ⟨haffix, hstrips⟩ := sharedAffix_spec hne houtermost
    set affix := sharedAffix side group with haffixdef
    have hstripped : ∀ e ∈ group, ∃ m, e.strip side affix = .ok m ∧ Stripped side affix e m := by
      intro e he
      obtain ⟨text, rest, hexposed, hrest⟩ := hstrips e he
      exact strip_spec (hsolved e (List.mem_filter.mp he).1) hexposed hrest
    choose! m hm hstripped using hstripped
    have hletters := lettersOf_map_add fun e he => (hstripped e he).letters
    have hsplit := lettersOf_filter (fun e => outermost? side e == some c) parts
    rw [← hgroup] at hsplit
    have haffixpos := List.length_pos_iff.mpr haffix
    have hshared := Nat.mul_le_mul_right affix.length hcount
    have hmsolved : ∀ e ∈ group.map m, e.isSolved = true := by
      intro f hf
      obtain ⟨e, he, rfl⟩ := List.mem_map.mp hf
      exact (hstripped e he).solved
    obtain ⟨inner, hinner, hrewrites⟩ := within_alt hagain hmsolved (by omega)
    have hattach := Rewrites.of_filter hsolved hne (rewrites_attach hne hstripped hrewrites)
    have hle := hrewrites.letters
    simp only [lettersOf_cons, lettersOf_nil] at hle
    refine ⟨some (attach side (lit affix) inner :: parts.filter fun e => outermost? side e != some c), ?_, ?_⟩
    · dsimp only
      rw [mapM_eq_pure_map m hm]
      simp only [pure_bind, hinner]
      rfl
    · rintro reduced ⟨⟩
      refine ⟨hattach, ?_⟩
      change lettersOf (_ :: parts.filter fun e => !(outermost? side e == some c)) < _
      rw [lettersOf_cons, letters_attach, Expr.letters]
      omega

end PatternInference.Factoring
