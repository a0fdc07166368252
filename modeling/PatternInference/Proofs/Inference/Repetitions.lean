import Mathlib.Data.Finset.Card
import PatternInference.Proofs.Inference.Samples
import PatternInference.Proofs.Trie.Additions

namespace PatternInference

namespace Trie

variable {α : Type} [DecidableEq α] {t : Trie α} {s u : Nat} {w : List α}

lemma extend_of_follow? (h : t.follow? s w = some u) : t.extend s w = (t, u) := by
  induction w generalizing s with
  | nil => rw [extend, Option.some_inj.mp h]
  | cons a w ih =>
    obtain ⟨c, hc, hu⟩ := Option.bind_eq_some_iff.mp h
    rw [extend, hc]
    exact ih hu

lemma insert_of_contains (h : t.contains w = true) : t.insert w = t := by
  cases hend : t.follow? 0 w with
  | none => simp [contains, hend] at h
  | some u =>
    have haccepting : t.isAccepting u = true := by simpa [contains, hend] using h
    rw [insert, extend_of_follow? hend]
    exact accept_of_isAccepting haccepting

lemma contains_ofList_iff (ws : List (List α)) : (ofList ws).contains w = true ↔ w ∈ ws := by
  obtain ⟨word, h⟩ := holds_ofList ws
  rw [h.contains_iff, h.spellings_eq, List.mem_eraseDups]

lemma ofList_concat (ws : List (List α)) (w : List α) : ofList (ws ++ [w]) = (ofList ws).insert w := by
  rw [ofList, insertMany, List.foldl_append]
  rfl

lemma ofList_eraseDups (ws : List (List α)) : ofList ws.eraseDups = ofList ws := by
  induction ws using List.reverseRecOn with
  | nil => rfl
  | append_singleton ws w ih =>
    rw [ofList_concat]
    by_cases hw : w ∈ ws
    · rw [eraseDups_concat_of_mem hw, ih, insert_of_contains ((contains_ofList_iff ws).mpr hw)]
    · rw [eraseDups_concat_of_notMem hw, ofList_concat, ih]

lemma Holds.wordCount_eq {word : Nat → List α} {ws : List (List α)} (h : Holds t word ws) :
    t.wordCount = ws.toFinset.card := by
  have hset : ws.eraseDups.toFinset = ws.toFinset := by
    ext w
    simp
  rw [← hset, List.toFinset_card_of_nodup nodup_eraseDups, ← h.spellings_eq, spellings, List.length_map]
  rfl

end Trie

namespace Inference

lemma load_eraseDups (o : Options) (batches : List (List (List Char))) :
    batches.foldl load (create o) = (create o).load batches.flatten.eraseDups := by
  rw [foldl_load]
  have hsamples := Trie.ofList_eraseDups batches.flatten
  exact congrArg (Inference.mk o) hsamples.symm

lemma sampleCount_load (o : Options) (batches : List (List (List Char))) :
    (batches.foldl load (create o)).sampleCount = batches.flatten.toFinset.card := by
  obtain ⟨word, h⟩ := Trie.holds_ofList batches.flatten
  rw [foldl_load]
  exact h.wordCount_eq

theorem load_repetitions (o : Options) (batches : List (List (List Char))) :
    let i := batches.foldl load (create o)
    let once := (create o).load batches.flatten.eraseDups
    i.samples = once.samples ∧ i.sampleCount = batches.flatten.toFinset.card ∧
      ∀ cancelled, i.pattern cancelled = once.pattern cancelled ∧ i.expression cancelled = once.expression cancelled ∧
        (i.automaton cancelled).bind Minimization.dump = (once.automaton cancelled).bind Minimization.dump := by
  intro i once
  have honce : i = once := load_eraseDups o batches
  exact ⟨congrArg samples honce, sampleCount_load o batches, fun cancelled => by simp only [honce, and_self]⟩

end Inference

end PatternInference
