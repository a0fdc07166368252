import Mathlib.Data.Set.Card
import Mathlib.Order.Interval.Finset.Nat
import PatternInference.Proofs.Automaton.Words

/-! Automata with the same language, no useless states and no two alike differ in the numbers of their states only. -/

namespace PatternInference

variable {α : Type} {f : Nat → Nat} {e : Transition α} {s t : Nat}

def Transition.rename (f : Nat → Nat) (e : Transition α) : Transition α := ⟨f e.source, e.symbol, f e.target⟩

namespace Dump

variable {d d' : Dump α}

def residual (d : Dump α) (s : Nat) : Language α := PatternInference.residual d.transitions d.accepting s

lemma nil_mem_residual : [] ∈ d.residual s ↔ s ∈ d.accepting := nil_mem_residual_iff

structure InRange (d : Dump α) : Prop where
  initial_lt : d.initial < d.stateCount
  ends_lt : ∀ e ∈ d.transitions, e.source < d.stateCount ∧ e.target < d.stateCount
  accepting_lt : ∀ s ∈ d.accepting, s < d.stateCount

/-- Renamed by `f`, the states of `d` are those of `d'`, and so are the initial state, the transitions and the accepting states. -/
structure Renames (f : Nat → Nat) (d d' : Dump α) : Prop where
  states : Set.BijOn f (Set.Iio d.stateCount) (Set.Iio d'.stateCount)
  initial : f d.initial = d'.initial
  transitions : (d.transitions.map (Transition.rename f)).Perm d'.transitions
  accepting : (d.accepting.map f).Perm d'.accepting

def Isomorphic (d d' : Dump α) : Prop := ∃ f, Renames f d d'

/-- Every state is of use, and no two states have the same residual. -/
structure Minimal (d : Dump α) : Prop extends InRange d where
  deterministic : Deterministic d.transitions
  useful : ∀ s, s < d.stateCount → Reachable d.transitions d.initial s ∧ Productive d.transitions d.accepting s
  distinct : ∀ s t, s < d.stateCount → t < d.stateCount → d.residual s = d.residual t → s = t
  accepting_nodup : d.accepting.Nodup

lemma Renames.counts (h : Renames f d d') : d.shape.states = d'.shape.states ∧
    d.shape.transitions = d'.shape.transitions ∧ d.shape.accepting = d'.shape.accepting := by
  refine ⟨?_, ?_, ?_⟩
  · simpa [Set.ncard_eq_toFinset_card', shape] using h.states.ncard_eq
  · simpa [shape] using h.transitions.length_eq
  · simpa [shape] using h.accepting.length_eq

namespace Minimal

lemma residual_target_congr (h : d.Minimal) (h' : d'.Minimal) {e' : Transition α} (he : e ∈ d.transitions)
    (he' : e' ∈ d'.transitions) (hsource : d.residual e.source = d'.residual e'.source) (hsymbol : e.symbol = e'.symbol) :
    d.residual e.target = d'.residual e'.target := by
  ext w
  calc w ∈ d.residual e.target
    _ ↔ e.symbol :: w ∈ d.residual e.source := h.deterministic.residual_target he
    _ ↔ e'.symbol :: w ∈ d'.residual e'.source := by rw [hsource, hsymbol]
    _ ↔ w ∈ d'.residual e'.target := (h'.deterministic.residual_target he').symm

lemma exists_residual_eq (h : d.Minimal) (h' : d'.Minimal) (hlanguage : d.language = d'.language)
    (hs : s < d.stateCount) : ∃ t, t < d'.stateCount ∧ d'.residual t = d.residual s := by
  obtain ⟨⟨w, hw⟩, x, hx⟩ := h.useful s hs
  have hword : w ++ x ∈ d'.language := by
    rw [← hlanguage]
    exact (h.deterministic.mem_residual_iff hw).mp hx
  obtain ⟨u, _, hread⟩ := hword
  obtain ⟨t, ht, _⟩ := reads_append_iff.mp hread
  refine ⟨t, ht.target_lt h'.initial_lt fun e he => (h'.ends_lt e he).2, ?_⟩
  ext v
  calc v ∈ d'.residual t
    _ ↔ w ++ v ∈ d'.language := h'.deterministic.mem_residual_iff ht
    _ ↔ w ++ v ∈ d.language := by rw [hlanguage]
    _ ↔ v ∈ d.residual s := (h.deterministic.mem_residual_iff hw).symm

lemma exists_transition (h : d.Minimal) (h' : d'.Minimal) (he : e ∈ d.transitions)
    (hst : d'.residual t = d.residual e.source) :
    ∃ e' ∈ d'.transitions, e'.source = t ∧ e'.symbol = e.symbol ∧ d'.residual e'.target = d.residual e.target := by
  obtain ⟨_, w, hw⟩ := h.useful e.target (h.ends_lt e he).2
  have hcons : e.symbol :: w ∈ d'.residual t := by
    rw [hst]
    exact (h.deterministic.residual_target he).mp hw
  obtain ⟨e', he', rfl, hsymbol, _⟩ := residual_cons.mp hcons
  exact ⟨e', he', rfl, hsymbol, h'.residual_target_congr h he' he hst hsymbol⟩

variable (hf : ∀ s, s < d.stateCount → f s < d'.stateCount ∧ d'.residual (f s) = d.residual s)
include hf

lemma injOn (h : d.Minimal) : Set.InjOn f (Set.Iio d.stateCount) := by
  intro s hs t ht hst
  apply h.distinct s t hs ht
  rw [← (hf s hs).2, ← (hf t ht).2, hst]

lemma bijOn (h : d.Minimal) (h' : d'.Minimal) (hlanguage : d.language = d'.language) :
    Set.BijOn f (Set.Iio d.stateCount) (Set.Iio d'.stateCount) := by
  refine ⟨fun s hs => (hf s hs).1, h.injOn hf, fun t ht => ?_⟩
  obtain ⟨s, hs, hst⟩ := h'.exists_residual_eq h hlanguage.symm ht
  exact ⟨s, hs, h'.distinct _ _ (hf s hs).1 ht ((hf s hs).2.trans hst)⟩

lemma rename_mem (h : d.Minimal) (h' : d'.Minimal) (he : e ∈ d.transitions) : e.rename f ∈ d'.transitions := by
  obtain ⟨hs, ht⟩ := h.ends_lt e he
  obtain ⟨e', he', hsource, hsymbol, htarget⟩ := h.exists_transition h' he (hf e.source hs).2
  have htarget' : e'.target = f e.target :=
    h'.distinct _ _ (h'.ends_lt e' he').2 (hf e.target ht).1 (htarget.trans (hf e.target ht).2.symm)
  have heq : e.rename f = e' := by rw [Transition.rename, ← hsource, ← hsymbol, ← htarget']
  rwa [heq]

lemma transitions_perm (h : d.Minimal) (h' : d'.Minimal) (hlanguage : d.language = d'.language) :
    (d.transitions.map (Transition.rename f)).Perm d'.transitions := by
  have hnodup : (d.transitions.map (Transition.rename f)).Nodup := by
    refine List.Nodup.map_on (fun e he g hg heq => ?_) h.deterministic.nodup
    obtain ⟨hsource, hsymbol, _⟩ := Transition.mk.inj heq
    exact h.deterministic.eq he hg (h.injOn hf (h.ends_lt e he).1 (h.ends_lt g hg).1 hsource) hsymbol
  rw [List.perm_ext_iff_of_nodup hnodup h'.deterministic.nodup]
  intro e'
  rw [List.mem_map]
  constructor
  · rintro ⟨e, he, rfl⟩
    exact h.rename_mem hf h' he
  · intro he'
    obtain ⟨s, hs, hsource⟩ := (h.bijOn hf h' hlanguage).surjOn (h'.ends_lt e' he').1
    obtain ⟨e, he, rfl, hsymbol, _⟩ := h'.exists_transition h he' (hsource ▸ (hf s hs).2.symm)
    exact ⟨e, he, h'.deterministic.eq (h.rename_mem hf h' he) he' hsource hsymbol⟩

lemma accepting_perm (h : d.Minimal) (h' : d'.Minimal) (hlanguage : d.language = d'.language) :
    (d.accepting.map f).Perm d'.accepting := by
  have haccepting : ∀ s, s < d.stateCount → (f s ∈ d'.accepting ↔ s ∈ d.accepting) := by
    intro s hs
    rw [← nil_mem_residual, (hf s hs).2, nil_mem_residual]
  have hnodup : (d.accepting.map f).Nodup :=
    List.Nodup.map_on (fun s hs t ht => h.injOn hf (h.accepting_lt s hs) (h.accepting_lt t ht)) h.accepting_nodup
  rw [List.perm_ext_iff_of_nodup hnodup h'.accepting_nodup]
  intro t
  rw [List.mem_map]
  constructor
  · rintro ⟨s, hs, rfl⟩
    exact (haccepting s (h.accepting_lt s hs)).mpr hs
  · intro ht
    obtain ⟨s, hs, rfl⟩ := (h.bijOn hf h' hlanguage).surjOn (h'.accepting_lt t ht)
    exact ⟨s, (haccepting s hs).mp ht, rfl⟩

omit hf in
lemma isomorphic (h : d.Minimal) (h' : d'.Minimal) (hlanguage : d.language = d'.language) : d.Isomorphic d' := by
  choose! f hf using fun s hs => h.exists_residual_eq h' hlanguage (s := s) hs
  refine ⟨f, h.bijOn hf h' hlanguage, ?_, h.transitions_perm hf h' hlanguage, h.accepting_perm hf h' hlanguage⟩
  obtain ⟨hlt, hresidual⟩ := hf d.initial h.initial_lt
  exact h'.distinct _ _ hlt h'.initial_lt (hresidual.trans hlanguage)

end Minimal

end Dump
end PatternInference
