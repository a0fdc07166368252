import Mathlib.Computability.Language
import PatternInference.Expr.Substitution
import PatternInference.Expr.Union
import PatternInference.Proofs.Lists

namespace PatternInference.Expr

mutual

/-- What an expression denotes if `ρ` holds what is denoted by the states that its literals wait for. -/
def meaning (ρ : Nat → Language Char) : Expr → Language Char
  | lit text => {text}
  | pending text origin => ρ origin * {text}
  | alt parts => meaningOf ρ parts
  | seq left right => left.meaning ρ * right.meaning ρ

def meaningOf (ρ : Nat → Language Char) : List Expr → Language Char
  | [] => 0
  | e :: rest => e.meaning ρ + meaningOf ρ rest

end

def language (e : Expr) : Language Char := e.meaning 0

mutual

def origins : Expr → List Nat
  | lit _ => []
  | pending _ origin => [origin]
  | alt parts => originsOf parts
  | seq left right => left.origins ++ right.origins

def originsOf : List Expr → List Nat
  | [] => []
  | e :: rest => e.origins ++ originsOf rest

end

variable {ρ σ : Nat → Language Char} {e f solution : Expr} {es fs : List Expr} {s t w : List Char} {state o : Nat}

@[simp] lemma meaning_lit : meaning ρ (lit s) = {s} := rfl
@[simp] lemma meaning_pending : meaning ρ (pending s o) = ρ o * {s} := rfl
@[simp] lemma meaning_seq : meaning ρ (seq e f) = e.meaning ρ * f.meaning ρ := rfl

lemma mem_meaningOf : w ∈ meaningOf ρ es ↔ ∃ e ∈ es, w ∈ e.meaning ρ := by
  induction es with
  | nil => simp [meaningOf, Language.notMem_zero]
  | cons e es ih => simp [meaningOf, Language.mem_add, ih]

lemma mem_meaning_alt : w ∈ meaning ρ (alt es) ↔ ∃ e ∈ es, w ∈ e.meaning ρ := mem_meaningOf

lemma mem_originsOf : o ∈ originsOf es ↔ ∃ e ∈ es, o ∈ e.origins := by
  induction es with
  | nil => simp [originsOf]
  | cons e es ih => simp [originsOf, ih]

lemma mem_origins_alt : o ∈ origins (alt es) ↔ ∃ e ∈ es, o ∈ e.origins := mem_originsOf

lemma isSolved_iff : e.isSolved = true ↔ ∀ o, o ∉ e.origins := by
  induction e using Expr.structural with
  | lit => simp [isSolved, origins]
  | pending text origin => simp [isSolved, origins]
  | alt parts ih =>
    simp only [isSolved, areSolved_eq_all, List.all_eq_true, mem_origins_alt, not_exists, not_and]
    constructor
    · exact fun h o e he => (ih e he).mp (h e he) o
    · exact fun h e he => (ih e he).mpr fun o => h o e he
  | seq left right ihl ihr =>
    simp only [isSolved, Bool.and_eq_true, ihl, ihr, origins, List.mem_append, not_or, forall_and]

lemma meaning_congr (h : ∀ o, o ∈ e.origins → ρ o = σ o) : e.meaning ρ = e.meaning σ := by
  induction e using Expr.structural with
  | lit => rfl
  | pending text origin =>
    rw [meaning_pending, meaning_pending, h origin (by simp [origins])]
  | alt parts ih =>
    ext w
    simp only [mem_meaning_alt]
    apply exists_congr
    intro e
    apply and_congr_right
    intro he
    rw [ih e he fun o ho => h o (mem_origins_alt.mpr ⟨e, he, ho⟩)]
  | seq left right ihl ihr =>
    rw [meaning_seq, meaning_seq, ihl fun o ho => h o (by simp [origins, ho]),
      ihr fun o ho => h o (by simp [origins, ho])]

lemma meaning_of_isSolved (h : e.isSolved = true) : e.meaning ρ = e.language :=
  meaning_congr fun o ho => absurd ho (isSolved_iff.mp h o)

lemma mem_singleton : w ∈ ({s} : Language Char) ↔ w = s := Iff.rfl

lemma singleton_mul_singleton : ({s} * {t} : Language Char) = {s ++ t} := by
  ext w
  simp [Language.mem_mul, mem_singleton, eq_comm]

lemma singleton_nil : ({[]} : Language Char) = 1 := rfl

lemma meaning_concat : (concat e f).meaning ρ = e.meaning ρ * f.meaning ρ := by
  fun_cases concat e f <;> simp [singleton_nil, ← singleton_mul_singleton, mul_assoc]

lemma origins_concat : (concat e f).origins = e.origins ++ f.origins := by
  fun_cases concat e f <;> simp [origins]

lemma meaning_followedBy (h : e.isSolved = true) : (e.followedBy t).meaning ρ = e.meaning ρ * {t} := by
  cases e with
  | lit s => simp [followedBy, singleton_mul_singleton]
  | pending s o => simp [isSolved] at h
  | alt parts => simp [followedBy, meaning_concat]
  | seq left right => simp [followedBy, meaning_concat]

lemma origins_followedBy (h : e.isSolved = true) : (e.followedBy t).origins = [] := by
  apply List.eq_nil_iff_forall_not_mem.mpr
  have hs := isSolved_iff.mp h
  cases e with
  | lit s => simp [followedBy, origins]
  | pending s o => simp [isSolved] at h
  | alt parts => simpa [followedBy, origins_concat, origins] using hs
  | seq left right => simpa [followedBy, origins_concat, origins] using hs

lemma meaning_substitute (h : solution.isSolved = true) (hρ : ρ state = solution.meaning ρ) :
    (e.substitute state solution).meaning ρ = e.meaning ρ := by
  induction e using Expr.structural with
  | lit => rfl
  | pending text origin =>
    rw [substitute]
    split
    · next ho => rw [meaning_followedBy h, meaning_pending, ho, hρ]
    · rfl
  | alt parts ih =>
    ext w
    simp only [substitute, substituteAll_eq_map, mem_meaning_alt, List.mem_map, exists_exists_and_eq_and]
    apply exists_congr
    intro e
    apply and_congr_right
    intro he
    rw [ih e he]
  | seq left right ihl ihr => rw [substitute, meaning_seq, meaning_seq, ihl, ihr]

lemma mem_origins_substitute (h : solution.isSolved = true) :
    o ∈ (e.substitute state solution).origins ↔ o ∈ e.origins ∧ o ≠ state := by
  induction e using Expr.structural with
  | lit => simp [substitute, origins]
  | pending text origin =>
    rw [substitute]
    split
    · next ho =>
      rw [origins_followedBy h]
      simp [origins, ho]
    · next ho =>
      simp only [origins, List.mem_singleton, iff_self_and]
      rintro rfl
      exact ho
  | alt parts ih =>
    simp only [substitute, substituteAll_eq_map, mem_origins_alt, List.mem_map, exists_exists_and_eq_and]
    constructor
    · rintro ⟨e, he, ho⟩
      obtain ⟨ho, hne⟩ := (ih e he).mp ho
      exact ⟨⟨e, he, ho⟩, hne⟩
    · rintro ⟨⟨e, he, ho⟩, hne⟩
      exact ⟨e, he, (ih e he).mpr ⟨ho, hne⟩⟩
  | seq left right ihl ihr => simp only [substitute, origins, List.mem_append, ihl, ihr, or_and_right]

def sortedLiterals (es : List Expr) : List Expr := sorted (es.filter isLiteral)

def composites (es : List Expr) : List Expr := (es.filter fun e => !e.isLiteral).eraseDups

-- the stack holds what the recursion has still to visit
lemma gather_eq (stack literals found : List Expr) : gather stack literals found.eraseDups =
    (literals ++ (branchesOf stack).filter isLiteral,
      (found ++ (branchesOf stack).filter fun e => !e.isLiteral).eraseDups) := by
  generalize hcomposites : found.eraseDups = composites
  fun_induction gather stack literals composites generalizing found with
  | case1 literals composites => simp [branchesOf, hcomposites]
  | case2 parts rest literals composites ih =>
    rw [ih found hcomposites]
    simp only [branchesOf_eq_flatMap, List.flatMap_append, List.flatMap_cons, branches]
  | case3 left right rest literals composites ih =>
    have hbranches : branchesOf (seq left right :: rest) = seq left right :: branchesOf rest := by simp [branchesOf, branches]
    simp only [dite_eq_ite] at ih
    rw [ih (found ++ [seq left right]) ?_, hbranches]
    · simp [isLiteral]
    · rw [← hcomposites]
      by_cases hmem : seq left right ∈ found
      · simp [eraseDups_concat_of_mem hmem, hmem]
      · simp [eraseDups_concat_of_notMem hmem, hmem]
  | case4 e rest literals composites hnotAlt hnotSeq ih =>
    have hbranches : branchesOf (e :: rest) = e :: branchesOf rest ∧ e.isLiteral = true := by
      cases e with
      | lit | pending => simp [branchesOf, branches, isLiteral]
      | alt parts => exact (hnotAlt parts rfl).elim
      | seq left right => exact (hnotSeq left right rfl).elim
    rw [ih found hcomposites, hbranches.1]
    simp [hbranches.2]

lemma union_eq : union es = ofBranches (sortedLiterals (branchesOf es) ++ composites (branchesOf es)) := by
  rw [union, ← List.eraseDups_nil, gather_eq]
  rfl

lemma mem_unionBranches : e ∈ sortedLiterals es ++ composites es ↔ e ∈ es := by
  simp only [sortedLiterals, sorted, composites, List.mem_append, mem_eraseReps, List.mem_mergeSort, List.mem_eraseDups,
    List.mem_filter, ← and_or_left]
  cases e.isLiteral <;> simp

lemma unionBranches_subperm : (sortedLiterals es ++ composites es).Subperm es := by
  have hsorted : (sortedLiterals es).Subperm (es.filter isLiteral) :=
    eraseReps_sublist.subperm.trans (List.mergeSort_perm _ _).subperm
  exact (hsorted.append eraseDups_sublist.subperm).trans (List.filter_append_perm isLiteral es).subperm

lemma mem_meaning_ofBranches : w ∈ (ofBranches es).meaning ρ ↔ ∃ e ∈ es, w ∈ e.meaning ρ := by
  fun_cases ofBranches es
  · simp
  · exact mem_meaning_alt

lemma mem_origins_ofBranches : o ∈ (ofBranches es).origins ↔ ∃ e ∈ es, o ∈ e.origins := by
  fun_cases ofBranches es
  · simp
  · exact mem_origins_alt

lemma mem_meaning_branches : (∃ f ∈ e.branches, w ∈ f.meaning ρ) ↔ w ∈ e.meaning ρ := by
  induction e using Expr.structural with
  | lit => simp [branches]
  | pending => simp [branches]
  | alt parts ih =>
    simp only [branches, branchesOf_eq_flatMap, List.mem_flatMap, mem_meaning_alt]
    constructor
    · rintro ⟨f, ⟨e, he, hf⟩, hw⟩
      exact ⟨e, he, (ih e he).mp ⟨f, hf, hw⟩⟩
    · rintro ⟨e, he, hw⟩
      obtain ⟨f, hf, hw⟩ := (ih e he).mpr hw
      exact ⟨f, ⟨e, he, hf⟩, hw⟩
  | seq => simp [branches]

lemma mem_origins_branches : (∃ f ∈ e.branches, o ∈ f.origins) ↔ o ∈ e.origins := by
  induction e using Expr.structural with
  | lit => simp [branches]
  | pending => simp [branches]
  | alt parts ih =>
    simp only [branches, branchesOf_eq_flatMap, List.mem_flatMap, mem_origins_alt]
    constructor
    · rintro ⟨f, ⟨e, he, hf⟩, ho⟩
      exact ⟨e, he, (ih e he).mp ⟨f, hf, ho⟩⟩
    · rintro ⟨e, he, ho⟩
      obtain ⟨f, hf, ho⟩ := (ih e he).mpr ho
      exact ⟨f, ⟨e, he, hf⟩, ho⟩
  | seq => simp [branches]

lemma mem_meaning_union : w ∈ (union es).meaning ρ ↔ ∃ e ∈ es, w ∈ e.meaning ρ := by
  simp only [union_eq, mem_meaning_ofBranches, mem_unionBranches, branchesOf_eq_flatMap, List.mem_flatMap]
  constructor
  · rintro ⟨f, ⟨e, he, hf⟩, hw⟩
    exact ⟨e, he, mem_meaning_branches.mp ⟨f, hf, hw⟩⟩
  · rintro ⟨e, he, hw⟩
    obtain ⟨f, hf, hw⟩ := mem_meaning_branches.mpr hw
    exact ⟨f, ⟨e, he, hf⟩, hw⟩

lemma mem_origins_union : o ∈ (union es).origins ↔ ∃ e ∈ es, o ∈ e.origins := by
  simp only [union_eq, mem_origins_ofBranches, mem_unionBranches, branchesOf_eq_flatMap, List.mem_flatMap]
  constructor
  · rintro ⟨f, ⟨e, he, hf⟩, ho⟩
    exact ⟨e, he, mem_origins_branches.mp ⟨f, hf, ho⟩⟩
  · rintro ⟨e, he, ho⟩
    obtain ⟨f, hf, ho⟩ := mem_origins_branches.mpr ho
    exact ⟨f, ⟨e, he, hf⟩, ho⟩

lemma meaning_normalize : e.normalize.meaning ρ = e.meaning ρ := by
  cases e with
  | alt parts =>
    ext w
    rw [normalize, mem_meaning_union, mem_meaning_alt]
  | lit | pending | seq => rfl

lemma isSolved_union : (union es).isSolved = true ↔ ∀ e ∈ es, e.isSolved = true := by
  simp only [isSolved_iff, mem_origins_union, not_exists, not_and]
  exact ⟨fun h e he o => h o e he, fun h o e he => h e he o⟩

lemma isSolved_normalize (h : e.isSolved = true) : e.normalize.isSolved = true := by
  cases e with
  | alt parts =>
    rw [normalize, isSolved_union]
    simpa [isSolved, areSolved_eq_all] using h
  | lit | pending | seq => exact h

end PatternInference.Expr
