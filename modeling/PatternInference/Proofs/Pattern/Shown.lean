import PatternInference.Proofs.Pattern.Printing

/-!
A printed expression is read as the alternatives that its text shows. A factor with a single branch gets no
parentheses, so the bars inside of that branch are among those of the whole text.
-/

namespace PatternInference.Expr

open Pattern

inductive Branched : Expr → Prop
  | lit (text : List Char) : Branched (lit text)
  | pending (text : List Char) (origin : Nat) : Branched (pending text origin)
  | alt {parts : List Expr} : parts ≠ [] → (∀ e ∈ parts, Branched e) → Branched (alt parts)
  | seq {left right : Expr} : Branched left → Branched right → Branched (seq left right)

lemma Delimited.branched {e : Expr} (h : e.Delimited) : e.Branched := by
  induction h with
  | lit text => exact .lit text
  | pending text origin => exact .pending text origin
  | alt hne _ ih => exact .alt hne ih
  | seq _ _ _ _ ihl ihr => exact .seq ihl ihr

def splice : List Expr → List Expr → List Expr
  | [x], y :: ys => seq x y :: ys
  | x :: xs, ys => x :: splice xs ys
  | [], ys => ys

def grouped (branches : Nat) (xs : List Expr) : List Expr := if 1 < branches then [alt xs] else xs

mutual

def alternatives : Expr → List Expr
  | lit text => [lit text]
  | pending text origin => [pending text origin]
  | alt parts => alternativesOf parts
  | seq left right => splice (grouped left.branchCount left.alternatives) (grouped right.branchCount right.alternatives)

def alternativesOf : List Expr → List Expr
  | [] => []
  | e :: rest => e.alternatives ++ alternativesOf rest

end

def shown (e : Expr) : Expr := alt e.alternatives

example : (seq (alt [alt [lit ['a'], lit ['b']]]) (lit ['c'])).shown = alt [lit ['a'], seq (lit ['b']) (lit ['c'])] := rfl

def printFactors : List Expr → List Char
  | [] => []
  | [x] => factor x.branchCount x.print
  | x :: xs => factor x.branchCount x.print ++ '|' :: printFactors xs

variable {e x y : Expr} {es xs ys : List Expr} {s t w : List Char}

lemma printFactors_cons (h : xs ≠ []) :
    printFactors (x :: xs) = factor x.branchCount x.print ++ '|' :: printFactors xs := by
  cases xs with
  | nil => exact absurd rfl h
  | cons => rw [printFactors]; simp

lemma splice_cons (h : xs ≠ []) : splice (x :: xs) ys = x :: splice xs ys := by
  cases xs with
  | nil => exact absurd rfl h
  | cons => rw [splice]; simp

lemma splice_ne_nil (h : xs ≠ []) : splice xs ys ≠ [] := by
  cases xs with
  | nil => exact absurd rfl h
  | cons x xs => cases xs <;> cases ys <;> simp [splice]

lemma factor_of_le_one {n : Nat} (h : n ≤ 1) : factor n s = s := if_neg (Nat.not_lt.mpr h)

lemma printFactors_append (hx : xs ≠ []) (hy : ys ≠ []) :
    printFactors (xs ++ ys) = printFactors xs ++ '|' :: printFactors ys := by
  induction xs with
  | nil => exact absurd rfl hx
  | cons x xs ih =>
    cases xs with
    | nil => exact printFactors_cons hy
    | cons x' xs =>
      have hne := List.cons_ne_nil x' xs
      rw [List.cons_append, printFactors_cons (by simp), ih hne, printFactors_cons hne]
      simp

lemma printFactors_splice (hx : xs ≠ []) (hy : ys ≠ []) :
    printFactors (splice xs ys) = printFactors xs ++ printFactors ys := by
  -- on the left list alone: it is its last alternative that takes in the first one of `ys`
  induction xs with
  | nil => exact absurd rfl hx
  | cons x xs ih =>
    cases xs with
    | nil =>
      obtain ⟨y, ys, rfl⟩ := List.exists_cons_of_ne_nil hy
      have hseq : factor (seq x y).branchCount (seq x y).print =
          factor x.branchCount x.print ++ factor y.branchCount y.print := factor_of_le_one le_rfl
      rw [splice]
      cases ys with
      | nil => exact hseq
      | cons y' ys =>
        have hne := List.cons_ne_nil y' ys
        rw [printFactors_cons hne, hseq, printFactors_cons hne, printFactors, List.append_assoc]
    | cons x' xs =>
      have hne := List.cons_ne_nil x' xs
      rw [splice_cons hne, printFactors_cons (splice_ne_nil hne), ih hne, printFactors_cons hne]
      simp

structure Operand (e : Expr) : Prop where
  delimited : e.Delimited
  single : e.branchCount ≤ 1 → e.Single
  solved : e.isSolved = true

structure Plain (e : Expr) : Prop extends Operand e where
  branchCount_eq : e.branchCount = 1

lemma Operand.seq (hx : x.Operand) (hy : y.Operand) : (seq x y).Plain :=
  ⟨⟨.seq hx.delimited hx.single hy.delimited hy.single, fun _ => .seq x y, by simp [isSolved, hx.solved, hy.solved]⟩, rfl⟩

lemma printBranches_eq_printFactors (h : ∀ x ∈ xs, x.branchCount = 1) : printBranches xs = printFactors xs := by
  induction xs with
  | nil => rfl
  | cons x xs ih =>
    have hx : factor x.branchCount x.print = x.print := factor_of_le_one (h x (by simp)).le
    cases xs with
    | nil => rw [printBranches, printFactors, hx]
    | cons x' xs => rw [printBranches_cons, printFactors_cons (by simp), ih fun z hz => h z (by simp [hz]), hx]

structure Shows (xs : List Expr) (s : List Char) : Prop where
  ne_nil : xs ≠ []
  plain : ∀ x ∈ xs, x.Plain
  print_eq : printFactors xs = s

structure Operands (xs : List Expr) (s : List Char) : Prop where
  ne_nil : xs ≠ []
  operand : ∀ x ∈ xs, x.Operand
  plain_front : ∀ x ∈ xs.dropLast, x.Plain
  plain_rest : ∀ x ∈ xs.tail, x.Plain
  print_eq : printFactors xs = s

lemma Operands.one (h : x.Operand) : Operands [x] (factor x.branchCount x.print) :=
  ⟨by simp, by simpa using h, by simp, by simp, rfl⟩

namespace Shows

lemma one (h : x.Plain) : Shows [x] x.print :=
  ⟨by simp, by simpa using h, factor_of_le_one h.branchCount_eq.le⟩

lemma operands (h : Shows xs s) : Operands xs s :=
  ⟨h.ne_nil, fun x hx => (h.plain x hx).toOperand, fun x hx => h.plain x (List.mem_of_mem_dropLast hx),
    fun x hx => h.plain x (List.mem_of_mem_tail hx), h.print_eq⟩

lemma append (hx : Shows xs s) (hy : Shows ys t) : Shows (xs ++ ys) (s ++ '|' :: t) :=
  ⟨by simp [hx.ne_nil], List.forall_mem_append.mpr ⟨hx.plain, hy.plain⟩,
    by rw [printFactors_append hx.ne_nil hy.ne_nil, hx.print_eq, hy.print_eq]⟩

lemma printBranches_eq (h : Shows xs s) : printBranches xs = s :=
  (printBranches_eq_printFactors fun x hx => (h.plain x hx).branchCount_eq).trans h.print_eq

lemma delimited (h : Shows xs s) : (alt xs).Delimited := .alt h.ne_nil fun x hx => (h.plain x hx).delimited

lemma solved (h : Shows xs s) : (alt xs).isSolved = true := by
  simpa [isSolved, areSolved_eq_all] using fun x hx => (h.plain x hx).solved

lemma grouped {n : Nat} (h : Shows xs s) (hn : n ≤ xs.length) : Operands (grouped n xs) (factor n s) := by
  rw [Expr.grouped]
  split
  · next hlt =>
    -- a group of one alternative would lose the parentheses, but there is one for each branch at least
    have hlen : ¬ (alt xs).branchCount ≤ 1 := Nat.not_le.mpr (hlt.trans_le hn)
    have hfactor : factor n s = factor (alt xs).branchCount (alt xs).print := by
      rw [factor, factor, if_pos hlt, if_pos (Nat.not_le.mp hlen), print, h.printBranches_eq]
    rw [hfactor]
    exact .one ⟨h.delimited, fun hle => absurd hle hlen, h.solved⟩
  · next hle =>
    rw [factor_of_le_one (Nat.not_lt.mp hle)]
    exact h.operands

end Shows

lemma splice_plain (hx : ∀ x ∈ xs, x.Operand) (hfront : ∀ x ∈ xs.dropLast, x.Plain) (hne : xs ≠ []) (hy : y.Operand)
    (hrest : ∀ z ∈ ys, z.Plain) : ∀ z ∈ splice xs (y :: ys), z.Plain := by
  induction xs with
  | nil => exact absurd rfl hne
  | cons x xs ih =>
    rw [List.forall_mem_cons] at hx
    cases xs with
    | nil => exact List.forall_mem_cons.mpr ⟨hx.1.seq hy, hrest⟩
    | cons x' xs =>
      rw [List.dropLast_cons_cons, List.forall_mem_cons] at hfront
      rw [splice_cons (by simp)]
      exact List.forall_mem_cons.mpr ⟨hfront.1, ih hx.2 hfront.2 (by simp)⟩

lemma Operands.splice (hx : Operands xs s) (hy : Operands ys t) : Shows (splice xs ys) (s ++ t) := by
  refine ⟨splice_ne_nil hx.ne_nil, ?_, by rw [printFactors_splice hx.ne_nil hy.ne_nil, hx.print_eq, hy.print_eq]⟩
  obtain ⟨y, ys, rfl⟩ := List.exists_cons_of_ne_nil hy.ne_nil
  exact splice_plain hx.operand hx.plain_front hx.ne_nil (hy.operand y (by simp)) hy.plain_rest

lemma shows_alternativesOf (h : ∀ e ∈ es, Shows e.alternatives e.print) (hne : es ≠ []) :
    Shows (alternativesOf es) (printBranches es) := by
  induction es with
  | nil => exact absurd rfl hne
  | cons e es ih =>
    rw [List.forall_mem_cons] at h
    cases es with
    | nil =>
      rw [alternativesOf, alternativesOf, List.append_nil, printBranches]
      exact h.1
    | cons f es =>
      rw [alternativesOf, printBranches_cons]
      exact h.1.append (ih h.2 (by simp))

lemma length_le_alternativesOf (h : ∀ e ∈ es, e.alternatives ≠ []) : es.length ≤ (alternativesOf es).length := by
  induction es with
  | nil => exact le_rfl
  | cons e es ih =>
    rw [List.forall_mem_cons] at h
    have hpos := List.length_pos_iff.mpr h.1
    have htail := ih h.2
    simp only [alternativesOf, List.length_append, List.length_cons]
    omega

lemma Branched.shows (h : e.Branched) (hs : e.isSolved = true) :
    Shows e.alternatives e.print ∧ e.branchCount ≤ e.alternatives.length := by
  induction h with
  | lit text => exact ⟨.one ⟨⟨.lit text, fun _ => .lit text, rfl⟩, rfl⟩, le_rfl⟩
  | pending text origin => cases hs
  | @alt parts hne _ ih =>
    simp only [isSolved, areSolved_eq_all, List.all_eq_true] at hs
    exact ⟨shows_alternativesOf (fun e he => (ih e he (hs e he)).1) hne,
      length_le_alternativesOf fun e he => (ih e he (hs e he)).1.ne_nil⟩
  | @seq left right _ _ ihl ihr =>
    simp only [isSolved, Bool.and_eq_true] at hs
    obtain ⟨hl, hllen⟩ := ihl hs.1
    obtain ⟨hr, hrlen⟩ := ihr hs.2
    have hshows := (hl.grouped hllen).splice (hr.grouped hrlen)
    exact ⟨hshows, List.length_pos_iff.mpr hshows.ne_nil⟩

lemma language_alt_one : (alt [x]).language = x.language := by
  simp [Expr.language, meaning, meaningOf]

lemma alternativesOf_eq_flatMap (es : List Expr) : alternativesOf es = es.flatMap alternatives := by
  induction es with
  | nil => rfl
  | cons e es ih => rw [alternativesOf, ih, List.flatMap_cons]

lemma language_shown_alt (h : ∀ e ∈ es, e.shown.language = e.language) : (alt es).shown.language = (alt es).language := by
  ext w
  have hmem : ∀ {xs : List Expr}, w ∈ (alt xs).language ↔ ∃ x ∈ xs, w ∈ x.language := mem_meaning_alt
  rw [shown, alternatives, alternativesOf_eq_flatMap, hmem, hmem]
  constructor
  · rintro ⟨x, hx, hw⟩
    obtain ⟨e, he, hxe⟩ := List.mem_flatMap.mp hx
    exact ⟨e, he, h e he ▸ hmem.mpr ⟨x, hxe, hw⟩⟩
  · rintro ⟨e, he, hw⟩
    obtain ⟨x, hxe, hw⟩ := hmem.mp (h e he ▸ hw)
    exact ⟨x, List.mem_flatMap.mpr ⟨e, he, hxe⟩, hw⟩

lemma grouped_eq_one (h : e.shown.language = e.language)
    (hone : e.branchCount ≤ 1 → ∃ x, e.alternatives = [x] ∧ x.language = e.language) :
    ∃ x, grouped e.branchCount e.alternatives = [x] ∧ x.language = e.language := by
  rw [grouped]
  split
  · exact ⟨e.shown, rfl, h⟩
  · next hle => exact hone (Nat.not_lt.mp hle)

lemma Delimited.shown (h : e.Delimited) :
    (e.Single → ∃ x, e.alternatives = [x] ∧ x.language = e.language) ∧ e.shown.language = e.language := by
  induction h with
  | lit text => exact ⟨fun _ => ⟨.lit text, rfl, rfl⟩, language_alt_one⟩
  | pending text origin => exact ⟨fun _ => ⟨.pending text origin, rfl, rfl⟩, language_alt_one⟩
  | @alt parts _ _ ih =>
    refine ⟨fun hsingle => ?_, language_shown_alt fun e he => (ih e he).2⟩
    cases hsingle with
    | @alt e hsingle =>
      obtain ⟨x, hx, hlang⟩ := (ih e (by simp)).1 hsingle
      exact ⟨x, by rw [alternatives, alternativesOf, hx]; rfl, hlang.trans language_alt_one.symm⟩
  | @seq left right _ hls _ hrs ihl ihr =>
    obtain ⟨x, hx, hxlang⟩ := grouped_eq_one ihl.2 fun h => ihl.1 (hls h)
    obtain ⟨y, hy, hylang⟩ := grouped_eq_one ihr.2 fun h => ihr.1 (hrs h)
    have halt : (Expr.seq left right).alternatives = [.seq x y] := by rw [alternatives, hx, hy, splice]
    have hlang : (Expr.seq x y).language = (Expr.seq left right).language :=
      congrArg₂ (fun L M : Language Char => L * M) hxlang hylang
    exact ⟨fun _ => ⟨_, halt, hlang⟩, by rw [Expr.shown, halt, language_alt_one, hlang]⟩

/--
The text matches the words of `e.shown`, so it is faithful if and only if these are the words of `e`; they are if
no factor shows a bar without parentheses.
-/
theorem print_matches_shown (hb : e.Branched) (hs : e.isSolved = true) :
    ∃ r, parse? e.print = some r ∧ r.matches' = e.shown.language ∧ (e.Delimited → r.matches' = e.language) := by
  have hshows := (hb.shows hs).1
  have hprint : e.shown.print = e.print := hshows.printBranches_eq
  obtain ⟨r, hr, hmatches⟩ := hshows.delimited.parse?_print hshows.solved
  exact ⟨r, hprint ▸ hr, hmatches, fun h => hmatches.trans h.shown.2⟩

theorem print_matches_nested_branches :
    ∃ e r, e = seq (alt [alt [lit ['a']], alt [lit ['b'], lit []]]) (lit ['.']) ∧ e.print = "(a|b|)\\.".toList ∧
      parse? e.print = some r ∧ r.matches' = e.language := by
  have hdelimited : (seq (alt [alt [lit ['a']], alt [lit ['b'], lit []]]) (lit ['.'])).Delimited := by
    refine .seq (.alt (by simp) ?_) (by simp [branchCount]) (.lit _) fun _ => .lit _
    simp only [List.forall_mem_cons, List.not_mem_nil, IsEmpty.forall_iff, implies_true, and_true]
    exact ⟨.alt (by simp) (by simpa using .lit _), .alt (by simp) (by simpa using ⟨.lit _, .lit _⟩)⟩
  obtain ⟨r, hr, _, hmatches⟩ := print_matches_shown hdelimited.branched rfl
  exact ⟨_, r, rfl, rfl, hr, hmatches hdelimited⟩

theorem bar_without_parentheses :
    ∃ e r, e = seq (alt [alt [lit ['a'], lit ['b']]]) (lit ['c']) ∧ e.Branched ∧ e.isSolved = true ∧
      parse? e.print = some r ∧ ['a', 'c'] ∈ e.language ∧ ['a', 'c'] ∉ r.matches' := by
  refine ⟨_, 0 + 1 * .char 'a' + 1 * .char 'b' * .char 'c', rfl, ?_, rfl, rfl, ?_, ?_⟩
  · exact .seq (.alt (by simp) (by simpa using .alt (by simp) (by simpa using ⟨.lit _, .lit _⟩))) (.lit _)
  · exact ⟨['a'], mem_meaning_alt.mpr ⟨_, List.mem_singleton_self _, mem_meaning_alt.mpr ⟨lit ['a'], by simp, rfl⟩⟩,
      ['c'], rfl, rfl⟩
  · simp [singleton_mul_singleton, Language.mem_add, mem_singleton]

end PatternInference.Expr
