import Mathlib.Tactic.Lemma
import Mathlib.Tactic.SplitIfs
import PatternInference.Text.Numeral

namespace PatternInference.Numeral

def Spells (text : List Char) (n : Nat) : Prop :=
  ∃ digits, (text = digits ∨ text = '+' :: digits) ∧ digits ≠ [] ∧ (∀ c ∈ digits, c.isDigit = true) ∧
    Nat.ofDigitChars 10 digits 0 = n ∧ n ≤ maxCount

variable {text : List Char} {c : Char} {d n start : Nat}

lemma digit?_eq_some_iff : digit? c = some d ↔ c.isDigit = true ∧ c.toNat - '0'.toNat = d := by
  have hdigit : c.isDigit = true ↔ 48 ≤ c.toNat ∧ c.toNat ≤ 57 := by
    simp only [Char.isDigit, Bool.and_eq_true, decide_eq_true_eq, ge_iff_le, UInt32.le_iff_toNat_le]
    rfl
  rw [digit?, hdigit]
  split_ifs with h
  · rw [Option.some.injEq, and_iff_right h]
    rfl
  · simp [h]

lemma foldlM_shift?_eq_some_iff :
    text.foldlM shift? start = some n ↔ (∀ c ∈ text, c.isDigit = true) ∧ Nat.ofDigitChars 10 text start = n := by
  induction text generalizing start with
  | nil => simp
  | cons c text ih =>
    simp only [List.foldlM_cons, Option.bind_eq_bind, Option.bind_eq_some_iff, shift?, Option.map_eq_some_iff,
      digit?_eq_some_iff, ih, List.forall_mem_cons, Nat.ofDigitChars_cons]
    constructor
    · rintro ⟨_, ⟨_, ⟨hc, rfl⟩, rfl⟩, htext, hn⟩
      exact ⟨⟨hc, htext⟩, hn⟩
    · rintro ⟨⟨hc, htext⟩, hn⟩
      exact ⟨_, ⟨_, ⟨hc, rfl⟩, rfl⟩, htext, hn⟩

lemma value?_eq_some_iff :
    value? text = some n ↔ text ≠ [] ∧ (∀ c ∈ text, c.isDigit = true) ∧ Nat.ofDigitChars 10 text 0 = n := by
  cases text with
  | nil => simp [value?]
  | cons c text => rw [value?, foldlM_shift?_eq_some_iff, and_iff_right (List.cons_ne_nil c text)]

lemma unsigned?_eq_some_iff :
    unsigned? text = some n ↔ ∃ digits, (text = digits ∨ text = '+' :: digits) ∧ value? digits = some n := by
  constructor
  · intro h
    unfold unsigned? at h
    split at h
    · next rest => exact ⟨rest, .inr rfl, h⟩
    · exact ⟨text, .inl rfl, h⟩
  · rintro ⟨digits, rfl | rfl, h⟩
    · unfold unsigned?
      split
      · -- a plus sign is no digit
        have hplus := (value?_eq_some_iff.mp h).2.1 '+' (by simp)
        cases hplus
      · exact h
    · exact h

lemma count?_eq_some_iff : count? text = some n ↔ Spells text n := by
  simp only [count?, Option.bind_eq_some_iff, unsigned?_eq_some_iff, value?_eq_some_iff, Spells]
  constructor
  · rintro ⟨m, ⟨digits, htext, hne, hdigits, hvalue⟩, hm⟩
    split_ifs at hm with hle
    cases hm
    exact ⟨digits, htext, hne, hdigits, hvalue, hle⟩
  · rintro ⟨digits, htext, hne, hdigits, hvalue, hle⟩
    exact ⟨n, ⟨digits, htext, hne, hdigits, hvalue⟩, if_pos hle⟩

lemma Spells.le (h : Spells text n) : n ≤ maxCount := by
  obtain ⟨_, _, _, _, _, hle⟩ := h
  exact hle

lemma Spells.unique {m : Nat} (hm : Spells text m) (hn : Spells text n) : m = n := by
  rw [← count?_eq_some_iff] at hm hn
  exact Option.some.inj (hm.symm.trans hn)

lemma Spells.notMem (h : Spells text n) (hdigit : c.isDigit = false) (hplus : c ≠ '+') : c ∉ text := by
  obtain ⟨digits, htext, _, hdigits, _⟩ := h
  have hc : c ∉ digits := fun hmem => by simp [hdigits c hmem] at hdigit
  rcases htext with rfl | rfl
  · exact hc
  · exact List.not_mem_cons_of_ne_of_not_mem hplus hc

end PatternInference.Numeral
