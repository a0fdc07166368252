import PatternInference.Expr.Printer
import PatternInference.Proofs.Expr.Forked
import PatternInference.Proofs.Pattern.Reader

/-! A printed expression is read as the words that it denotes. -/

namespace PatternInference.Expr

open Pattern

variable {e : Expr} {es : List Expr} {text rest : List Char} {c : Char} {g : Scope} {outer : List Scope}

inductive Single : Expr → Prop
  | lit (text : List Char) : Single (lit text)
  | pending (text : List Char) (origin : Nat) : Single (pending text origin)
  | alt {e : Expr} : Single e → Single (alt [e])
  | seq (left right : Expr) : Single (seq left right)

/-- Each alternation has a branch, and no factor shows a bar without parentheses. -/
inductive Delimited : Expr → Prop
  | lit (text : List Char) : Delimited (lit text)
  | pending (text : List Char) (origin : Nat) : Delimited (pending text origin)
  | alt {parts : List Expr} : parts ≠ [] → (∀ e ∈ parts, Delimited e) → Delimited (alt parts)
  | seq {left right : Expr} : Delimited left → (left.branchCount ≤ 1 → Single left) → Delimited right →
      (right.branchCount ≤ 1 → Single right) → Delimited (seq left right)

lemma Forked.single (he : e.Forked) (h : e.branchCount ≤ 1) : e.Single := by
  cases he with
  | lit text => exact .lit text
  | pending text origin => exact .pending text origin
  | alt hlen _ => exact absurd h (Nat.not_le.mpr hlen)
  | seq => exact .seq _ _

lemma Forked.delimited (he : e.Forked) : e.Delimited := by
  induction he with
  | lit text => exact .lit text
  | pending text origin => exact .pending text origin
  | alt hlen _ ih =>
    apply Delimited.alt _ ih
    rintro rfl
    simp at hlen
  | seq hl hr ihl ihr => exact .seq ihl hl.single ihr hr.single

lemma mem_special_iff : c ∈ special ↔ c ∈ metacharacters := by
  have heq : special = metacharacters := by decide
  rw [heq]

def Opening (c : Char) : Prop := c ∉ metacharacters ∨ c = '\\' ∨ c = '(' ∨ c = '|'

lemma opening_append {s t : List Char} (hs : ∀ c ∈ s.head?, Opening c) (ht : ∀ c ∈ t.head?, Opening c) :
    ∀ c ∈ (s ++ t).head?, Opening c := by
  cases s with
  | nil => exact ht
  | cons a s => exact hs

lemma opening_escape : ∀ c ∈ (escape text).head?, Opening c := by
  induction text with
  | nil => simp [escape]
  | cons a text ih =>
    rw [escape, List.flatMap_cons]
    apply opening_append _ ih
    intro c hc
    split at hc
    · exact .inr (.inl (Option.some.inj hc).symm)
    · next ha =>
      cases hc
      exact .inl (mem_special_iff.not.mp ha)

lemma opening_factor {n : Nat} (h : ∀ c ∈ text.head?, Opening c) : ∀ c ∈ (factor n text).head?, Opening c := by
  rw [factor]
  split
  · intro c hc
    exact .inr (.inr (.inl (Option.some.inj hc).symm))
  · exact h

lemma printBranches_cons {f : Expr} : printBranches (e :: f :: es) = e.print ++ '|' :: printBranches (f :: es) := by
  rw [printBranches]
  simp

lemma opening_print (e : Expr) : ∀ c ∈ e.print.head?, Opening c := by
  induction e using Expr.structural with
  | lit text => exact opening_escape
  | pending text origin => exact opening_escape
  | alt parts ih =>
    cases parts with
    | nil => simp [print, printBranches]
    | cons e rest =>
      cases rest with
      | nil =>
        rw [print, printBranches]
        exact ih e (by simp)
      | cons f rest =>
        rw [print, printBranches_cons]
        apply opening_append (ih e (by simp))
        intro c hc
        exact .inr (.inr (.inr (Option.some.inj hc).symm))
  | seq left right ihl ihr =>
    rw [print]
    exact opening_append (opening_factor ihl) (opening_factor ihr)

lemma head?_ne (h : ∀ c ∈ text.head?, Opening c) (hc : ¬ Opening c) : text.head? ≠ some c :=
  fun heq => hc (h c heq)

lemma question_not_opening : ¬ Opening '?' := by
  simp [Opening, metacharacters]

lemma caret_not_opening : ¬ Opening '^' := by
  simp [Opening, metacharacters]

def Extends (text : List Char) (L : Language Char) : Prop :=
  ∀ g : Scope, ∃ g' : Scope, g'.before = g.before ∧ g'.current.matches' = g.current.matches' * L ∧
    ∀ rest outer, read? (text ++ rest) g outer = read? rest g' outer

/-- Reading the text at the start of an alternative adds the words of `L` to the group. -/
def Fills (text : List Char) (L : Language Char) : Prop :=
  ∀ g : Scope, g.current.matches' = 1 → ∃ g' : Scope, g'.whole.matches' = g.before.matches' + L ∧
    ∀ rest outer, read? (text ++ rest) g outer = read? rest g' outer

variable {L M : Language Char} {s t : List Char}

lemma Extends.fills (h : Extends text L) : Fills text L := by
  intro g hg
  obtain ⟨g', hbefore, hcurrent, hread⟩ := h g
  refine ⟨g', ?_, hread⟩
  rw [Scope.whole, RegularExpression.matches'_add, hbefore, hcurrent, hg, one_mul]

lemma Extends.append (hs : Extends s L) (ht : Extends t M) : Extends (s ++ t) (L * M) := by
  intro g
  obtain ⟨g₁, hbefore₁, hcurrent₁, hread₁⟩ := hs g
  obtain ⟨g₂, hbefore₂, hcurrent₂, hread₂⟩ := ht g₁
  refine ⟨g₂, hbefore₂.trans hbefore₁, ?_, fun rest outer => ?_⟩
  · rw [hcurrent₂, hcurrent₁, mul_assoc]
  · rw [List.append_assoc, hread₁, hread₂]

lemma Extends.nil : Extends [] 1 := fun g => ⟨g, rfl, (mul_one _).symm, fun _ _ => rfl⟩

lemma Extends.char (c : Char) : Extends (if c ∈ special then ['\\', c] else [c]) {[c]} := by
  intro g
  refine ⟨g.push (.char c), rfl, ?_, fun rest outer => ?_⟩
  · rw [Scope.push, RegularExpression.matches'_mul, RegularExpression.matches'_char]
  · split
    · next hc => exact read?_escaped (mem_special_iff.mp hc)
    · next hc => exact read?_plain (mem_special_iff.not.mp hc)

lemma Extends.escape (text : List Char) : Extends (escape text) {text} := by
  induction text with
  | nil => exact .nil
  | cons c text ih =>
    rw [Expr.escape, List.flatMap_cons, show c :: text = [c] ++ text from rfl, ← singleton_mul_singleton]
    exact .append (.char c) ih

lemma Fills.parenthesized (h : Fills text L) (hhead : ∀ c ∈ text.head?, Opening c) :
    Extends ('(' :: text ++ [')']) L := by
  intro g
  obtain ⟨g', hwhole, hread⟩ := h .opened rfl
  refine ⟨g.push g'.whole, rfl, ?_, fun rest outer => ?_⟩
  · rw [Scope.push, RegularExpression.matches'_mul, hwhole]
    simp [Scope.opened]
  · have hquestion : (text ++ ')' :: rest).head? ≠ some '?' := by
      cases text with
      | nil => simp
      | cons a text => exact head?_ne hhead question_not_opening
    simp only [List.cons_append, List.append_assoc, List.nil_append]
    rw [read?_open hquestion, hread, read?_close]

lemma Extends.factor (hfills : Fills e.print L) (hextends : e.branchCount ≤ 1 → Extends e.print L) :
    Extends (factor e.branchCount e.print) L := by
  rw [Expr.factor]
  split
  · exact hfills.parenthesized (opening_print e)
  · next h => exact hextends (Nat.not_lt.mp h)

lemma fills_printBranches (hne : es ≠ []) (h : ∀ e ∈ es, Fills e.print e.language) :
    Fills (printBranches es) (meaningOf 0 es) := by
  induction es with
  | nil => exact absurd rfl hne
  | cons e es ih =>
    cases es with
    | nil =>
      have he := h e (by simp)
      simpa [printBranches, meaningOf, Expr.language] using he
    | cons f es =>
      intro g hg
      obtain ⟨g₁, hwhole₁, hread₁⟩ := h e (by simp) g hg
      obtain ⟨g₂, hwhole₂, hread₂⟩ := ih (by simp) (fun f hf => h f (by simp [hf])) g₁.split rfl
      refine ⟨g₂, ?_, fun rest outer => ?_⟩
      · rw [hwhole₂, Scope.split, hwhole₁, meaningOf, add_assoc]
        rfl
      · rw [printBranches_cons, List.append_assoc, hread₁, List.cons_append, read?_bar, hread₂]

lemma Delimited.reads (he : e.Delimited) (hsolved : e.isSolved = true) :
    (e.Single → Extends e.print e.language) ∧ Fills e.print e.language := by
  induction he with
  | lit text => exact ⟨fun _ => .escape text, (Extends.escape text).fills⟩
  | pending text origin => cases hsolved
  | @alt parts hne _ ih =>
    simp only [isSolved, areSolved_eq_all, List.all_eq_true] at hsolved
    refine ⟨fun hsingle => ?_, fills_printBranches hne fun e he => (ih e he (hsolved e he)).2⟩
    cases hsingle with
    | alt hsingle =>
      have he := (ih _ (by simp) (hsolved _ (by simp))).1 hsingle
      simpa [print, printBranches, Expr.language, meaning, meaningOf] using he
  | @seq left right _ hls _ hrs ihl ihr =>
    simp only [isSolved, Bool.and_eq_true] at hsolved
    obtain ⟨hlextends, hlfills⟩ := ihl hsolved.1
    obtain ⟨hrextends, hrfills⟩ := ihr hsolved.2
    have hextends : Extends (Expr.seq left right).print (Expr.seq left right).language := by
      rw [print]
      exact .append (.factor hlfills fun h => hlextends (hls h)) (.factor hrfills fun h => hrextends (hrs h))
    exact ⟨fun _ => hextends, hextends.fills⟩

lemma Delimited.parse?_print (he : e.Delimited) (hsolved : e.isSolved = true) :
    ∃ r, parse? e.print = some r ∧ r.matches' = e.language := by
  obtain ⟨g, hwhole, hread⟩ := (he.reads hsolved).2 .opened rfl
  refine ⟨g.whole, ?_, ?_⟩
  · have hcaret := head?_ne (opening_print e) caret_not_opening
    rw [parse?]
    · rw [← List.append_nil e.print, hread, read?_end]
    · rintro rest hprint
      rw [hprint] at hcaret
      exact hcaret rfl
  · rw [hwhole]
    simp [Scope.opened]

end PatternInference.Expr
