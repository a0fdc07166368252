namespace PatternInference.Text

def le : List Char → List Char → Bool
  | [], _ => true
  | _ :: _, [] => false
  | a :: as, b :: bs => if a = b then le as bs else decide (a.toNat < b.toNat)

theorem eq_of_toNat_eq {a b : Char} (h : a.toNat = b.toNat) : a = b :=
  Char.ext (UInt32.toNat_inj.mp h)

theorem le_total (s t : List Char) : (le s t || le t s) = true := by
  induction s generalizing t with
  | nil => simp [le]
  | cons a as ih =>
    cases t with
    | nil => simp [le]
    | cons b bs =>
      by_cases h : a = b
      · simpa [le, h] using ih bs
      · have hn : a.toNat ≠ b.toNat := fun e => h (eq_of_toNat_eq e)
        simp only [le, h, Ne.symm h, if_false, Bool.or_eq_true, decide_eq_true_eq]
        omega

theorem le_trans {s t u : List Char} (hst : le s t = true) (htu : le t u = true) : le s u = true := by
  induction s generalizing t u with
  | nil => simp [le]
  | cons a as ih =>
    match t, u with
    | [], _ => simp [le] at hst
    | _ :: _, [] => simp [le] at htu
    | b :: bs, c :: cs =>
      simp only [le] at hst htu ⊢
      by_cases hab : a = b
      · subst hab
        by_cases hac : a = c
        · simp only [hac, if_true] at hst htu ⊢
          exact ih hst htu
        · simp only [hac, if_false] at htu ⊢
          exact htu
      · simp only [hab, if_false, decide_eq_true_eq] at hst
        by_cases hbc : b = c
        · subst hbc
          simpa [hab] using hst
        · simp only [hbc, if_false, decide_eq_true_eq] at htu
          have hac : a ≠ c := fun e => by subst e; omega
          simp only [hac, if_false, decide_eq_true_eq]
          omega

theorem le_antisymm {s t : List Char} (hst : le s t = true) (hts : le t s = true) : s = t := by
  induction s generalizing t with
  | nil => cases t <;> simp_all [le]
  | cons a as ih =>
    cases t with
    | nil => simp [le] at hst
    | cons b bs =>
      by_cases h : a = b
      · subst h
        simp only [le, if_true] at hst hts
        rw [ih hst hts]
      · simp only [le, h, Ne.symm h, if_false, decide_eq_true_eq] at hst hts
        omega

end PatternInference.Text
