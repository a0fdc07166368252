import Mathlib.Data.List.Basic
import Mathlib.Logic.Function.Basic
import Mathlib.Tactic.Lemma
import PatternInference.Table

namespace PatternInference

namespace Table

def val (t : Array Nat) (i : Nat) : Nat := t.getD i 0

lemma getElem?_eq_val {t : Array Nat} {i : Nat} (h : i < t.size) : t[i]? = some (val t i) := by
  simp [val, Array.getD, h]

lemma val_eq_of_getElem? {t : Array Nat} {i v : Nat} (h : t[i]? = some v) : i < t.size ∧ val t i = v := by
  obtain ⟨hi, rfl⟩ := Array.getElem?_eq_some_iff.mp h
  exact ⟨hi, by simp [val, Array.getD, hi]⟩

lemma val_replicate (n i : Nat) : val (Array.replicate n 0) i = 0 := by
  by_cases hi : i < n <;> simp [val, Array.getD, hi]

lemma val_set {t : Array Nat} {i : Nat} (v : Nat) (h : i < t.size) :
    val (t.set i v) = Function.update (val t) i v := by
  funext j
  by_cases hj : j = i
  · subst hj
    simp [val, Array.getD, h]
  · simp only [val, Array.getD, Array.size_set, Function.update_of_ne hj]
    by_cases hs : j < t.size <;> simp [hs, Array.getElem_set_ne, Ne.symm hj]

lemma put?_spec {t : Array Nat} {i : Nat} (v : Nat) (h : i < t.size) :
    ∃ u, put? t i v = some u ∧ u.size = t.size ∧ val u = Function.update (val t) i v :=
  ⟨t.set i v, by simp [put?, h], by simp, val_set v h⟩

lemma scatter?_spec {t : Array Nat} (entries : List (Nat × Nat)) (h : ∀ e ∈ entries, e.1 < t.size)
    (hf : ∀ e ∈ entries, ∀ e' ∈ entries, e.1 = e'.1 → e.2 = e'.2) :
    ∃ u, scatter? t entries = some u ∧ u.size = t.size ∧ (∀ e ∈ entries, val u e.1 = e.2) ∧
      ∀ j, j ∉ entries.map Prod.fst → val u j = val t j := by
  -- writes to one place agree, so their order does not matter
  induction entries generalizing t with
  | nil => exact ⟨t, rfl, rfl, by simp, by simp⟩
  | cons e entries ih =>
    obtain ⟨u, hu, hsize, hval⟩ := put?_spec e.2 (h e (by simp))
    obtain ⟨w, hw, hwsize, hin, hout⟩ := ih (t := u) (fun x hx => hsize ▸ h x (by simp [hx]))
      (fun x hx y hy => hf x (by simp [hx]) y (by simp [hy]))
    refine ⟨w, ?_, hwsize.trans hsize, ?_, ?_⟩
    · simpa only [scatter?, List.foldlM_cons, hu, Option.bind_eq_bind, Option.bind_some] using hw
    · intro x hx
      rcases List.mem_cons.mp hx with rfl | hx
      · by_cases hk : x.1 ∈ entries.map Prod.fst
        · obtain ⟨y, hy, hxy⟩ := List.mem_map.mp hk
          rw [← hxy, hin y hy]
          exact hf y (by simp [hy]) x (by simp) hxy
        · rw [hout _ hk, hval, Function.update_self]
      · exact hin x hx
    · intro j hj
      simp only [List.map_cons, List.mem_cons, not_or] at hj
      rw [hout j hj.2, hval, Function.update_of_ne hj.1]

lemma scatter?_constant {t : Array Nat} (keys : List Nat) (v : Nat) (h : ∀ k ∈ keys, k < t.size) :
    ∃ u, scatter? t (keys.map (·, v)) = some u ∧ u.size = t.size ∧
      ∀ j, val u j = if j ∈ keys then v else val t j := by
  obtain ⟨u, hu, hsize, hin, hout⟩ := scatter?_spec (t := t) (keys.map (·, v))
    (by simpa using h) (by simp)
  refine ⟨u, hu, hsize, fun j => ?_⟩
  split
  · next hj => exact hin (j, v) (by simpa using hj)
  · next hj => exact hout j (by simpa using hj)

lemma slice?_eq {t : Array Nat} {start stop : Nat} (h : start ≤ stop) (hs : stop ≤ t.size) :
    slice? t start stop = some ((List.range' start (stop - start)).map (val t)) := by
  simp only [slice?, h, hs, and_self, if_true, Option.some.injEq]
  apply List.ext_getElem
  · simp only [Array.length_toList, Array.size_extract, List.length_map, List.length_range']
    omega
  intro i hi _
  simp only [Array.length_toList, Array.size_extract] at hi
  have hlt : start + i < t.size := by omega
  simp [val, Array.getD, hlt]

end Table

namespace Columns
variable {α : Type} {c d : Columns α} {i j t kept n : Nat} {e : Transition α} {E : List (Transition α)}

lemma getElem?_rows_eq_some_iff : c.rows[i]? = some e ↔
    c.sources[i]? = some e.source ∧ c.targets[i]? = some e.target ∧ c.symbols[i]? = some e.symbol := by
  simp only [rows, List.getElem?_zipWith_eq_some, List.getElem?_zip_eq_some, Array.getElem?_toList, Prod.exists]
  constructor
  · rintro ⟨source, symbol, target, hsource, ⟨hsymbol, htarget⟩, rfl⟩
    exact ⟨hsource, htarget, hsymbol⟩
  · rintro ⟨hsource, htarget, hsymbol⟩
    exact ⟨_, _, _, hsource, ⟨hsymbol, htarget⟩, rfl⟩

@[simp] lemma length_rows (c : Columns α) : c.rows.length = c.size := by
  simp [rows, c.targets_size, c.symbols_size, size]

lemma map_rows {β : Type} {f : Transition α → β} {column : Array β} (hsize : column.size = c.size)
    (h : ∀ (i : Nat) (e : Transition α), c.rows[i]? = some e → column[i]? = some (f e)) : c.rows.map f = column.toList := by
  apply List.ext_getElem (by simp [hsize])
  intro i hi _
  rw [List.length_map] at hi
  have hget := h i _ (List.getElem?_eq_getElem hi)
  rw [List.getElem_map, Array.getElem_toList]
  exact (Array.getElem?_eq_some_iff.mp hget).2.symm

lemma map_source_rows (c : Columns α) : c.rows.map Transition.source = c.sources.toList :=
  map_rows rfl fun _ _ h => (getElem?_rows_eq_some_iff.mp h).1

lemma map_target_rows (c : Columns α) : c.rows.map Transition.target = c.targets.toList :=
  map_rows c.targets_size fun _ _ h => (getElem?_rows_eq_some_iff.mp h).2.1

lemma map_symbol_rows (c : Columns α) : c.rows.map Transition.symbol = c.symbols.toList :=
  map_rows c.symbols_size fun _ _ h => (getElem?_rows_eq_some_iff.mp h).2.2

structure Holds (c : Columns α) (E : List (Transition α)) : Prop where
  sources_eq : c.sources.toList = E.map Transition.source
  targets_eq : c.targets.toList = E.map Transition.target
  symbols_eq : c.symbols.toList = E.map Transition.symbol

lemma holds_rows (c : Columns α) : c.Holds c.rows :=
  ⟨c.map_source_rows.symm, c.map_target_rows.symm, c.map_symbol_rows.symm⟩

lemma Holds.rows_eq (h : c.Holds E) : c.rows = E := by
  rw [rows, h.sources_eq, h.targets_eq, h.symbols_eq, List.zip_map', List.zipWith_map, List.zipWith_self]
  exact List.map_id' E

lemma ext_rows (h : c.rows = d.rows) : c = d := by
  have hsources : c.sources = d.sources := Array.toList_inj.mp (by rw [← map_source_rows, h, map_source_rows])
  have htargets : c.targets = d.targets := Array.toList_inj.mp (by rw [← map_target_rows, h, map_target_rows])
  have hsymbols : c.symbols = d.symbols := Array.toList_inj.mp (by rw [← map_symbol_rows, h, map_symbol_rows])
  cases c
  cases d
  simp_all

lemma rows_push (c : Columns α) (e : Transition α) : (c.push e).rows = c.rows ++ [e] := by
  have hlength : c.sources.toList.length = (c.symbols.toList.zip c.targets.toList).length := by
    simp [c.targets_size, c.symbols_size]
  simp only [rows, push, Array.toList_push]
  rw [List.zip_append (by simp [c.targets_size, c.symbols_size]), List.zipWith_append hlength]
  rfl

@[simp] lemma rows_append (c : Columns α) (E : List (Transition α)) : (c.append E).rows = c.rows ++ E := by
  induction E generalizing c with
  | nil => exact (List.append_nil _).symm
  | cons e E ih =>
    rw [append, List.foldl_cons, ← append, ih, rows_push, List.append_assoc, List.singleton_append]

lemma rows_truncate (c : Columns α) (n : Nat) : (c.truncate n).rows = c.rows.take n := by
  simp [rows, truncate, List.take_zipWith, List.zip, Array.take]

lemma getElem?_rows_congr (hsources : c.sources[i]? = d.sources[j]?) (htargets : c.targets[i]? = d.targets[j]?)
    (hsymbols : c.symbols[i]? = d.symbols[j]?) : c.rows[i]? = d.rows[j]? := by
  apply Option.ext
  intro e
  rw [getElem?_rows_eq_some_iff, getElem?_rows_eq_some_iff, hsources, htargets, hsymbols]

lemma move?_spec (hi : i < c.size) (ht : t < c.size) : ∃ d, c.move? i t = some d ∧ d.size = c.size ∧
    d.rows[i]? = c.rows[t]? ∧ ∀ j, j ≠ i → j ≠ t → d.rows[j]? = c.rows[j]? := by
  have hi' : i < c.targets.size ∧ i < c.symbols.size := by rw [c.targets_size, c.symbols_size]; exact ⟨hi, hi⟩
  have ht' : t < c.targets.size ∧ t < c.symbols.size := by rw [c.targets_size, c.symbols_size]; exact ⟨ht, ht⟩
  have hsources : i < c.sources.size ∧ t < c.sources.size := ⟨hi, ht⟩
  refine ⟨_, by rw [move?, dif_pos hsources], by simp [size], ?_, fun j hji hjt => ?_⟩
  · apply getElem?_rows_congr
    · simp [hsources]
    · simp [hi', ht']
    · simp [hi', ht']
  · apply getElem?_rows_congr
    · simp [Ne.symm hji]
    · simp [Ne.symm hji]
    · simp [Array.getElem?_swap, Ne.symm hji, Ne.symm hjt]

structure Compacting (c : Columns α) (p : Transition α → Bool) (n : Nat) (x : Columns α × Nat) : Prop where
  size_eq : x.1.size = c.size
  kept_le : x.2 ≤ n
  kept_eq : x.1.rows.take x.2 = (c.rows.take n).filter p
  ahead_eq : ∀ j : Nat, n ≤ j → x.1.rows[j]? = c.rows[j]?

namespace Compacting

variable {p : Transition α → Bool} {x : Columns α × Nat}

lemma start (c : Columns α) (p : Transition α → Bool) : Compacting c p 0 (c, 0) :=
  ⟨rfl, (Nat.le_refl _), rfl, fun _ _ => rfl⟩

lemma skip (h : Compacting c p n x) (he : c.rows[n]? = some e) (hp : p e = false) : Compacting c p (n + 1) x where
  size_eq := h.size_eq
  kept_le := by
    have := h.kept_le
    omega
  kept_eq := by
    rw [h.kept_eq, List.take_add_one, he, List.filter_append, Option.toList_some]
    simp [hp]
  ahead_eq := fun j hj => h.ahead_eq j (by omega)

lemma keep (h : Compacting c p n x) (he : c.rows[n]? = some e) (hp : p e = true) :
    ∃ d, x.1.move? x.2 n = some d ∧ Compacting c p (n + 1) (d, x.2 + 1) := by
  obtain ⟨hn, -⟩ := List.getElem?_eq_some_iff.mp he
  rw [length_rows, ← h.size_eq] at hn
  have hle := h.kept_le
  obtain ⟨d, hd, hsize, hmoved, hrest⟩ := move?_spec (by omega : x.2 < x.1.size) hn
  refine ⟨d, hd, hsize.trans h.size_eq, Nat.succ_le_succ hle, ?_, fun j hj => ?_⟩
  · have hfront : d.rows.take x.2 = x.1.rows.take x.2 := by
      apply List.ext_getElem?
      intro j
      rw [List.getElem?_take, List.getElem?_take]
      split
      · exact hrest j (by omega) (by omega)
      · rfl
    rw [List.take_add_one, hfront, h.kept_eq, hmoved, h.ahead_eq n (Nat.le_refl _), List.take_add_one, he, List.filter_append,
      Option.toList_some]
    simp [hp]
  · rw [hrest j (by omega) (by omega), h.ahead_eq j (by omega)]

end Compacting

lemma compact?_spec {keep? : Columns α → Nat → Option Bool} {p : Transition α → Bool}
    (hkeep : ∀ (d : Columns α) (t : Nat) (e : Transition α), d.rows[t]? = some e → e ∈ c.rows → keep? d t = some (p e)) :
    ∃ d, c.compact? keep? = some d ∧ d.rows = c.rows.filter p := by
  have hscan : ∀ n ≤ c.size, ∃ x, (List.range n).foldlM (scan? keep?) (c, 0) = some x ∧ Compacting c p n x := by
    intro n hn
    induction n with
    | zero => exact ⟨_, rfl, .start c p⟩
    | succ n ih =>
      obtain ⟨x, hx, h⟩ := ih (by omega)
      obtain ⟨e, he⟩ : ∃ e, c.rows[n]? = some e := by simp [Nat.lt_of_succ_le hn]
      have hread := hkeep x.1 n e ((h.ahead_eq n (Nat.le_refl n)).trans he) (List.mem_of_getElem? he)
      rw [List.range_succ, List.foldlM_append, hx]
      cases hp : p e with
      | false => exact ⟨x, by simp [scan?, hread, hp], h.skip he hp⟩
      | true =>
        obtain ⟨d, hd, h'⟩ := h.keep he hp
        exact ⟨_, by simp [scan?, hread, hp, hd], h'⟩
  obtain ⟨x, hx, h⟩ := hscan c.size (Nat.le_refl _)
  refine ⟨x.1.truncate x.2, by rw [compact?, hx]; rfl, ?_⟩
  rw [rows_truncate, h.kept_eq, ← length_rows, List.take_length]

end Columns

end PatternInference

