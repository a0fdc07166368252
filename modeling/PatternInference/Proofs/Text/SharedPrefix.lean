import PatternInference.Proofs.Text.CommonPrefix

/-! The longest prefix that two of the texts share stands between neighbours of the sorted list. -/

namespace PatternInference.Text

variable {p s t u : List Char} {texts others : List (List Char)}

def Shared (texts : List (List Char)) (p : List Char) : Prop :=
  ∃ i j : Nat, ∃ s t, i ≠ j ∧ texts[i]? = some s ∧ texts[j]? = some t ∧ p <+: s ∧ p <+: t

lemma shared_iff : Shared texts p ↔ ¬ texts.Pairwise fun s t => ¬ (p <+: s ∧ p <+: t) := by
  rw [List.pairwise_iff_getElem]
  constructor
  · rintro ⟨i, j, s, t, hij, hi, hj, hs, ht⟩ hnone
    obtain ⟨hilt, rfl⟩ := List.getElem?_eq_some_iff.mp hi
    obtain ⟨hjlt, rfl⟩ := List.getElem?_eq_some_iff.mp hj
    rcases Nat.lt_or_gt_of_ne hij with hlt | hlt
    · exact hnone i j hilt hjlt hlt ⟨hs, ht⟩
    · exact hnone j i hjlt hilt hlt ⟨ht, hs⟩
  · intro hsome
    by_contra hnone
    apply hsome
    intro i j hi hj hlt ⟨hs, ht⟩
    exact hnone ⟨i, j, _, _, hlt.ne, List.getElem?_eq_getElem hi, List.getElem?_eq_getElem hj, hs, ht⟩

lemma shared_congr (h : texts.Perm others) : Shared texts p ↔ Shared others p := by
  rw [shared_iff, shared_iff, h.pairwise_iff fun hst hts => hst hts.symm]

lemma not_shared_nil : ¬ Shared [] p := by
  simp [shared_iff]

lemma shared_cons : Shared (s :: texts) p ↔ (p <+: s ∧ ∃ t ∈ texts, p <+: t) ∨ Shared texts p := by
  rw [shared_iff, shared_iff, List.pairwise_cons]
  grind

lemma prefix_of_between (hst : le s t = true) (htu : le t u = true) (hs : p <+: s) (hu : p <+: u) : p <+: t := by
  induction p generalizing s t u with
  | nil => exact List.nil_prefix
  | cons a p ih =>
    obtain ⟨x, rfl⟩ := hs
    obtain ⟨y, rfl⟩ := hu
    cases t with
    | nil => simp [le] at hst
    | cons b t =>
      by_cases hab : a = b
      · subst hab
        simp only [List.cons_append, le, if_true] at hst htu
        exact List.cons_prefix_cons.mpr ⟨rfl, ih hst htu (List.prefix_append p x) (List.prefix_append p y)⟩
      · simp only [List.cons_append, le, hab, Ne.symm hab, if_false, decide_eq_true_eq] at hst htu
        omega

lemma le_of_prefix (hst : le s t = true) (hs : p <+: s) (ht : u <+: t) (hlen : p.length ≤ u.length) :
    le p u = true := by
  induction p generalizing s t u with
  | nil => rfl
  | cons a p ih =>
    obtain ⟨x, rfl⟩ := hs
    obtain ⟨y, rfl⟩ := ht
    cases u with
    | nil => simp at hlen
    | cons b u =>
      simp only [List.cons_append, le] at hst ⊢
      split
      · next hab =>
        rw [if_pos hab] at hst
        exact ih hst (List.prefix_append p x) (List.prefix_append u y) (by simpa using hlen)
      · next hab => rwa [if_neg hab] at hst

lemma shared_iff_neighbours (h : texts.Pairwise fun s t => le s t = true) :
    Shared texts p ↔ ∃ c ∈ neighbourPrefixes texts, p <+: c := by
  fun_induction neighbourPrefixes texts with
  | case1 s t rest ih =>
    obtain ⟨hs, hrest⟩ := List.pairwise_cons.mp h
    have hfirst : (p <+: s ∧ ∃ u ∈ t :: rest, p <+: u) ↔ p <+: commonPrefix s t := by
      rw [prefix_commonPrefix_iff, and_congr_right_iff]
      intro hps
      refine ⟨?_, fun hpt => ⟨t, List.mem_cons_self, hpt⟩⟩
      rintro ⟨u, hu, hpu⟩
      -- a later text that begins with `p` has the neighbour between itself and `s`
      rcases List.mem_cons.mp hu with rfl | hu'
      · exact hpu
      · exact prefix_of_between (hs t List.mem_cons_self) ((List.pairwise_cons.mp hrest).1 u hu') hps hpu
    rw [shared_cons, hfirst, ih hrest, List.exists_mem_cons_iff]
  | case2 texts hsmall =>
    cases texts with
    | nil => simp [not_shared_nil]
    | cons s texts =>
      cases texts with
      | nil => simp [shared_cons, not_shared_nil]
      | cons t rest => exact absurd rfl (hsmall s t rest)

lemma pairwise_neighbourPrefixes (h : texts.Pairwise fun s t => le s t = true) :
    (neighbourPrefixes texts).Pairwise fun c d => c.length ≤ d.length → le c d = true := by
  fun_induction neighbourPrefixes texts with
  | case1 s t rest ih =>
    obtain ⟨hs, hrest⟩ := List.pairwise_cons.mp h
    refine List.pairwise_cons.mpr ⟨?_, ih hrest⟩
    intro d hd hlen
    obtain ⟨u, hu, v, _, rfl⟩ := exists_of_mem_neighbourPrefixes hd
    exact le_of_prefix (hs u hu) (prefix_commonPrefix_iff.mp List.prefix_rfl).1
      (prefix_commonPrefix_iff.mp List.prefix_rfl).1 hlen
  | case2 => exact .nil

/-- The second text is longer, or as long and no earlier in the order. -/
def Outranked (s t : List Char) : Prop := s.length ≤ t.length ∧ (s.length = t.length → le s t = true)

lemma Outranked.refl (s : List Char) : Outranked s s := ⟨le_rfl, fun _ => by simpa using le_total s s⟩

lemma Outranked.trans (hst : Outranked s t) (htu : Outranked t u) : Outranked s u := by
  obtain ⟨hst, hle⟩ := hst
  obtain ⟨htu, hle'⟩ := htu
  exact ⟨hst.trans htu, fun heq => le_trans (hle (by omega)) (hle' (by omega))⟩

lemma longest_spec (hne : texts ≠ []) (h : texts.Pairwise fun s t => s.length ≤ t.length → le s t = true) :
    longest texts ∈ texts ∧ ∀ t ∈ texts, Outranked t (longest texts) := by
  have hall : ([] :: texts).Pairwise fun s t => s.length ≤ t.length → le s t = true :=
    List.pairwise_cons.mpr ⟨fun _ _ _ => rfl, h⟩
  have hbest : longest texts ∈ [] :: texts ∧ ∀ t ∈ [] :: texts, Outranked t (longest texts) := by
    apply foldl_pick_spec Outranked.refl fun _ _ _ => Outranked.trans
    apply hall.imp
    intro s t hst
    split
    · next hle => exact ⟨hle, fun _ => hst hle⟩
    · exact ⟨by omega, by omega⟩
  obtain ⟨hmem, houtranked⟩ := hbest
  obtain ⟨_, htexts⟩ := List.forall_mem_cons.mp houtranked
  refine ⟨?_, htexts⟩
  rcases List.mem_cons.mp hmem with hnil | hmem
  · obtain ⟨t, ht⟩ := List.exists_mem_of_ne_nil texts hne
    have hlen := (htexts t ht).1
    rw [hnil, List.length_nil, Nat.le_zero, List.length_eq_zero_iff] at hlen
    rwa [hnil, ← hlen]
  · exact hmem

lemma longestSharedPrefix_eq (h : 2 ≤ texts.length) :
    longestSharedPrefix texts = longest (neighbourPrefixes (texts.mergeSort le)) := by
  match texts, h with
  | s :: t :: rest, _ => rfl

lemma pairwise_mergeSort_le : (texts.mergeSort le).Pairwise fun s t => le s t = true :=
  @List.pairwise_mergeSort (List Char) le (fun _ _ _ => le_trans) le_total texts

lemma mergeSort_congr (h : texts.Perm others) : texts.mergeSort le = others.mergeSort le := by
  apply List.Perm.eq_of_pairwise (fun _ _ _ _ => le_antisymm) pairwise_mergeSort_le pairwise_mergeSort_le
  exact (List.mergeSort_perm texts le).trans (h.trans (List.mergeSort_perm others le).symm)

theorem longestSharedPrefix_greatest (texts : List (List Char)) (h : 2 ≤ texts.length) :
    Shared texts (longestSharedPrefix texts) ∧
      (∀ p, Shared texts p → p.length ≤ (longestSharedPrefix texts).length) ∧
      (∀ p, Shared texts p → p.length = (longestSharedPrefix texts).length → le p (longestSharedPrefix texts) = true) ∧
      ∀ others, others.Perm texts → longestSharedPrefix others = longestSharedPrefix texts := by
  have hshared : ∀ p, Shared texts p ↔ ∃ c ∈ neighbourPrefixes (texts.mergeSort le), p <+: c := by
    intro p
    rw [← shared_iff_neighbours pairwise_mergeSort_le, shared_congr (List.mergeSort_perm texts le)]
  obtain ⟨hmem, hall⟩ := longest_spec (neighbourPrefixes_ne (by rwa [List.length_mergeSort]))
    (pairwise_neighbourPrefixes pairwise_mergeSort_le)
  rw [← longestSharedPrefix_eq h] at hmem hall
  refine ⟨(hshared _).mpr ⟨_, hmem, List.prefix_rfl⟩, fun p hp => ?_, fun p hp hlen => ?_, fun others hperm => ?_⟩
  · obtain ⟨c, hc, hpc⟩ := (hshared p).mp hp
    exact hpc.length_le.trans (hall c hc).1
  · obtain ⟨c, hc, hpc⟩ := (hshared p).mp hp
    obtain ⟨hle, hlast⟩ := hall c hc
    obtain rfl := hpc.eq_of_length_le (hle.trans hlen.ge)
    exact hlast hlen
  · rw [longestSharedPrefix_eq h, longestSharedPrefix_eq (by rwa [hperm.length_eq]), mergeSort_congr hperm]

theorem longestSharedPrefix_greatest_tie :
    let texts := ["äx1".toList, "b".toList, "äx2".toList, "öy1".toList, "öy".toList]
    2 ≤ texts.length ∧ Shared texts (longestSharedPrefix texts) ∧
      (∀ p, Shared texts p → p.length ≤ (longestSharedPrefix texts).length) ∧
      (∀ p, Shared texts p → p.length = (longestSharedPrefix texts).length → le p (longestSharedPrefix texts) = true) ∧
      ∀ others, others.Perm texts → longestSharedPrefix others = longestSharedPrefix texts := by
  intro texts
  have h : 2 ≤ texts.length := by simp [texts]
  exact ⟨h, longestSharedPrefix_greatest texts h⟩

end PatternInference.Text
