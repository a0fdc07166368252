namespace PatternInference.Numeral

def maxCount : Nat := 18446744073709551615

def digits (n : Nat) : List Char := Nat.toDigits 10 n

def digit? (c : Char) : Option Nat :=
  if 48 ≤ c.toNat ∧ c.toNat ≤ 57 then some (c.toNat - 48) else none

def shift? (n : Nat) (c : Char) : Option Nat := (digit? c).map (10 * n + ·)

def value? : List Char → Option Nat
  | [] => none
  | c :: rest => (c :: rest).foldlM shift? 0

def unsigned? : List Char → Option Nat
  | '+' :: rest => value? rest
  | text => value? text

def signed? : List Char → Option Int
  | '+' :: rest => (value? rest).map Int.ofNat
  | '-' :: rest => (value? rest).map fun n => -Int.ofNat n
  | text => (value? text).map Int.ofNat

def count? (text : List Char) : Option Nat :=
  (unsigned? text).bind fun n => if n ≤ maxCount then some n else none

def word? (text : List Char) : Option Int64 :=
  (signed? text).bind fun i =>
    if -9223372036854775808 ≤ i ∧ i ≤ 9223372036854775807 then some (Int64.ofInt i) else none

def ofWord (w : Int64) : List Char :=
  if w.toInt < 0 then '-' :: digits w.toInt.natAbs else digits w.toInt.natAbs

theorem digit?_digitChar {n : Nat} (h : n < 10) : digit? n.digitChar = some n := by
  have hc := Nat.toNat_digitChar_of_lt_ten h
  simp only [digit?, hc]
  split
  · simp
  · omega

theorem foldlM_digits (n : Nat) : (digits n).foldlM shift? 0 = some n := by
  induction n using Nat.strongRecOn with
  | _ n ih =>
    by_cases h : n < 10
    · simp [digits, Nat.toDigits_of_lt_base h, shift?, digit?_digitChar h]
    · have hlt : n / 10 < n := by omega
      have hd := ih (n / 10) hlt
      have hm : n % 10 < 10 := by omega
      simp only [digits] at hd ⊢
      rw [Nat.toDigits_of_base_le (by omega) (by omega), List.foldlM_append, hd]
      simp [shift?, digit?_digitChar hm]
      omega

theorem isDigit_of_mem_digits {n : Nat} {c : Char} (h : c ∈ digits n) : c.isDigit = true :=
  Nat.isDigit_of_mem_toDigits (by omega) (by omega) h

theorem value?_digits (n : Nat) : value? (digits n) = some n := by
  have h := foldlM_digits n
  cases hd : digits n with
  | nil =>
    have := Nat.toDigits_ne_nil (b := 10) (n := n)
    exact absurd hd this
  | cons c rest => rwa [hd] at h

theorem ne_sign_of_mem_digits {n : Nat} {c : Char} (h : c ∈ digits n) : c ≠ '+' ∧ c ≠ '-' := by
  have hd := isDigit_of_mem_digits h
  constructor <;> rintro rfl <;> simp [Char.isDigit] at hd

theorem unsigned?_digits (n : Nat) : unsigned? (digits n) = some n := by
  unfold unsigned?
  split
  · rename_i rest h
    exact absurd rfl (ne_sign_of_mem_digits (n := n) (c := '+') (by simp [h])).1
  · exact value?_digits n

theorem signed?_digits (n : Nat) : signed? (digits n) = some (Int.ofNat n) := by
  unfold signed?
  split
  · rename_i rest h
    exact absurd rfl (ne_sign_of_mem_digits (n := n) (c := '+') (by simp [h])).1
  · rename_i rest h
    exact absurd rfl (ne_sign_of_mem_digits (n := n) (c := '-') (by simp [h])).2
  · simp [value?_digits n]

theorem count?_digits {n : Nat} (h : n ≤ maxCount) : count? (digits n) = some n := by
  simp [count?, unsigned?_digits, h]

theorem signed?_ofWord (w : Int64) : signed? (ofWord w) = some w.toInt := by
  unfold ofWord
  split
  · simp only [signed?, value?_digits, Option.map_some, Option.some.injEq, Int.ofNat_eq_natCast]
    omega
  · simp only [signed?_digits, Option.some.injEq, Int.ofNat_eq_natCast]
    omega

theorem word?_ofWord (w : Int64) : word? (ofWord w) = some w := by
  have h : -9223372036854775808 ≤ w.toInt ∧ w.toInt ≤ 9223372036854775807 :=
    ⟨w.le_toInt, Int.lt_add_one_iff.mp w.toInt_lt⟩
  simp only [word?, signed?_ofWord, Option.bind_some, if_pos h, Int64.ofInt_toInt]

end PatternInference.Numeral
