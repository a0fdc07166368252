import Mathlib.Data.List.Flatten
import PatternInference.Proofs.Expr.Language

/-! The words of an expression as a list: one for each way to choose a branch of every alternation. -/

namespace PatternInference.Expr

def pairings (us vs : List (List Char)) : List (List Char) := us.flatMap fun u => vs.map (u ++ ·)

mutual

/-- What the choices give; a pending literal gives nothing yet. -/
def expansions : Expr → List (List Char)
  | lit text => [text]
  | pending _ _ => []
  | alt parts => expansionsOf parts
  | seq left right => pairings left.expansions right.expansions

def expansionsOf : List Expr → List (List Char)
  | [] => []
  | e :: rest => e.expansions ++ expansionsOf rest

end

variable {e f : Expr} {es fs parts : List Expr} {s t w : List Char} {us vs ws : List (List Char)}

lemma mem_pairings : w ∈ pairings us vs ↔ ∃ u ∈ us, ∃ v ∈ vs, u ++ v = w := by
  simp [pairings]

@[simp] lemma pairings_singleton_left : pairings [s] vs = vs.map (s ++ ·) := by
  simp [pairings]

@[simp] lemma pairings_singleton_right : pairings us [t] = us.map (· ++ t) := by
  simp [pairings, List.map_eq_flatMap]

lemma pairings_assoc : pairings (pairings us vs) ws = pairings us (pairings vs ws) := by
  simp [pairings, List.flatMap_assoc, List.map_flatMap, List.flatMap_map, Function.comp_def]

lemma nodup_pairings {us vs : List (List Char)} {k : Nat} (hus : us.Nodup) (hvs : vs.Nodup)
    (hlen : ∀ v ∈ vs, v.length = k) : (pairings us vs).Nodup := by
  rw [pairings, List.nodup_flatMap]
  refine ⟨fun u _ => hvs.map (List.append_right_injective u), hus.imp fun {u u'} hne w hw hw' => ?_⟩
  obtain ⟨v, hv, rfl⟩ := List.mem_map.mp hw
  obtain ⟨v', hv', heq⟩ := List.mem_map.mp hw'
  exact hne (List.append_inj_left' heq.symm (by rw [hlen v hv, hlen v' hv']))

lemma expansionsOf_eq_flatMap (es : List Expr) : expansionsOf es = es.flatMap expansions := by
  induction es with
  | nil => rfl
  | cons e es ih => rw [expansionsOf, ih, List.flatMap_cons]

lemma expansions_alt : (alt parts).expansions = parts.flatMap expansions := expansionsOf_eq_flatMap parts

@[simp] lemma expansionsOf_singleton : expansionsOf [e] = e.expansions := List.append_nil _

@[simp] lemma expansionsOf_append : expansionsOf (es ++ fs) = expansionsOf es ++ expansionsOf fs := by
  simp only [expansionsOf_eq_flatMap, List.flatMap_append]

lemma mem_expansions : w ∈ e.expansions ↔ w ∈ e.language := by
  induction e using Expr.structural generalizing w with
  | lit text => simp [expansions, language, mem_singleton]
  | pending text origin => simp [expansions, language]
  | alt parts ih =>
    rw [expansions_alt, List.mem_flatMap, language, mem_meaning_alt]
    exact exists_congr fun e => and_congr_right fun he => ih e he
  | seq left right ihl ihr =>
    simp only [expansions, mem_pairings, ihl, ihr, language, meaning_seq, Language.mem_mul]

lemma mem_expansionsOf : w ∈ expansionsOf es ↔ ∃ e ∈ es, w ∈ e.language := by
  rw [expansionsOf_eq_flatMap, List.mem_flatMap]
  simp only [mem_expansions]

lemma expansions_concat : (concat e f).expansions = pairings e.expansions f.expansions := by
  fun_cases concat e f <;> simp [expansions]

lemma expansions_followedBy (h : e.isSolved = true) : (e.followedBy t).expansions = e.expansions.map (· ++ t) := by
  cases e with
  | lit s => rfl
  | pending => cases h
  | alt parts => simp [followedBy, expansions_concat, expansions]
  | seq left right => simp [followedBy, expansions_concat, expansions]

lemma expansionsOf_branches : expansionsOf e.branches = e.expansions := by
  induction e using Expr.structural with
  | lit => rfl
  | pending => rfl
  | alt parts ih =>
    rw [branches, branchesOf_eq_flatMap, expansionsOf_eq_flatMap, expansions_alt, List.flatMap_assoc]
    refine List.flatMap_congr fun e he => ?_
    rw [← expansionsOf_eq_flatMap, ih e he]
  | seq => exact expansionsOf_singleton

lemma expansionsOf_branchesOf : expansionsOf (branchesOf es) = expansionsOf es := expansionsOf_branches (e := .alt es)

lemma nodup_expansionsOf_of_subperm (h : es.Subperm fs) (hfs : (expansionsOf fs).Nodup) : (expansionsOf es).Nodup := by
  obtain ⟨gs, hperm, hsub⟩ := h
  rw [expansionsOf_eq_flatMap] at hfs ⊢
  exact ((hperm.flatMap_right expansions).nodup_iff).mp (hfs.sublist (hsub.flatMap expansions))

lemma expansions_ofBranches : (ofBranches es).expansions = expansionsOf es := by
  fun_cases ofBranches es with
  | case1 e => exact expansionsOf_singleton.symm
  | case2 => rfl

lemma nodup_expansions_union (h : (expansionsOf es).Nodup) : (union es).expansions.Nodup := by
  rw [union_eq, expansions_ofBranches]
  apply nodup_expansionsOf_of_subperm unionBranches_subperm
  rwa [expansionsOf_branchesOf]

lemma nodup_expansions_normalize (h : e.expansions.Nodup) : e.normalize.expansions.Nodup := by
  cases e with
  | alt parts => exact nodup_expansions_union h
  | lit | pending | seq => exact h

end PatternInference.Expr
