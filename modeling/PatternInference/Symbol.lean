import PatternInference.Text.Numeral
import PatternInference.Text.Order

namespace PatternInference

class OrderedSymbol (α : Type) where
  le : α → α → Bool
  le_total : ∀ a b, (le a b || le b a) = true
  le_trans : ∀ {a b c}, le a b = true → le b c = true → le a c = true
  le_antisymm : ∀ {a b}, le a b = true → le b a = true → a = b

class PrintedSymbol (α : Type) where
  print : α → List Char
  parse? : List Char → Option α
  parse?_print : ∀ a, parse? (print a) = some a

instance : OrderedSymbol Char where
  le a b := decide (a.toNat ≤ b.toNat)
  le_total a b := by simp only [Bool.or_eq_true, decide_eq_true_eq]; omega
  le_trans hab hbc := by simp only [decide_eq_true_eq] at *; omega
  le_antisymm hab hba := by
    simp only [decide_eq_true_eq] at *
    exact Text.eq_of_toNat_eq (by omega)

instance : PrintedSymbol Char where
  print c := [c]
  parse?
    | [c] => some c
    | _ => none
  parse?_print _ := rfl

instance : OrderedSymbol Int64 where
  le a b := decide (a.toInt ≤ b.toInt)
  le_total a b := by simp only [Bool.or_eq_true, decide_eq_true_eq]; omega
  le_trans hab hbc := by simp only [decide_eq_true_eq] at *; omega
  le_antisymm hab hba := by
    simp only [decide_eq_true_eq] at *
    exact Int64.toInt_inj.mp (by omega)

instance : PrintedSymbol Int64 where
  print := Numeral.ofWord
  parse? := Numeral.word?
  parse?_print := Numeral.word?_ofWord

instance : OrderedSymbol (List Char) where
  le := Text.le
  le_total := Text.le_total
  le_trans := Text.le_trans
  le_antisymm := Text.le_antisymm

instance : PrintedSymbol (List Char) where
  print := id
  parse? := some
  parse?_print _ := rfl

end PatternInference
