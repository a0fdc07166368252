import Mathlib.Data.List.Permutation
import PatternInference.Proofs.Minimization.Retries

namespace PatternInference.Minimization

variable {α : Type} {m m' m₀ : Minimization α} {n i s t k : Nat} {E : List (Transition α)} {F : List Nat}
  {e : Transition α} {cancelled : Bool}

def HasEdge (m : Minimization α) (s k : Nat) : Prop :=
  ∃ (t : Nat) (e : Transition α), m.edges[t]? = some e ∧ e.source = s ∧ m.cords.owner[t]? = some k

namespace Refined

lemma cord_get (h : Refined m n i E F) (ht : m.edges[t]? = some e) : m.cords.owner[t]? = some (m.cords.setOf t) := by
  apply h.cords_clean.valid.owner_get
  rw [h.cords_size]
  exact (List.getElem?_eq_some_iff.mp ht).1

lemma hasEdge_of_same_block (h : Refined m n i E F) (hdet : Deterministic E) (ht : m.Live t)
    (hst : m.blocks.setOf t = m.blocks.setOf s) (hs : m.HasEdge s k) : m.HasEdge t k := by
  obtain ⟨a, e, ha, rfl, hk⟩ := hs
  obtain ⟨f, hf, rfl, hsymbol, htarget⟩ := h.exists_parallel_edge hdet (List.mem_of_getElem? ha) ht hst
  obtain ⟨b, hb⟩ := List.getElem?_of_mem hf
  refine ⟨b, f, hb, rfl, ?_⟩
  rw [h.cord_get hb, (h.same_cord_iff b a f e hb ha).mpr ⟨hsymbol, htarget⟩, ← h.cord_get ha, hk]

end Refined

lemma stage_of_refine_done (h : m.refine cancelled = .done m') : m.stage = .partitioned := by
  rw [refine] at h
  cases hr : m.refusal? .partitioned .refined (.ofBool cancelled) with
  | some e =>
    rw [hr] at h
    cases h
  | none => exact (refusal?_eq_none_iff.mp hr).1

lemma refine_state_of_partitioned (h : (m.refine cancelled).state.stage = .partitioned) :
    (m.refine cancelled).state = m :=
  (m.refine_state cancelled).resolve_right (by simp [h])

structure Tracks (m₀ : Minimization α) (n i : Nat) (E : List (Transition α)) (F : List Nat) (m : Minimization α) :
    Prop where
  resumes : Resumes m₀ n i E F m
  partitioned : m.stage = .partitioned → Partitioned m n i E F

namespace Tracks

lemma load (h : Tracks m₀ n i E F m) (edges : List (Transition α)) (it : Interrupt)
    (hstage : (m.load edges it).state.stage = .partitioned) :
    Partitioned (m.load edges it).state n i (E ++ (Call.load edges it).stored m) F := by
  cases hr : m.refusal? .created .loaded it with
  | some e =>
    rw [Minimization.load, hr] at hstage ⊢
    rw [Call.stored, hr, if_neg (by simp), List.append_nil]
    exact h.partitioned hstage
  | none =>
    obtain ⟨hcreated, _⟩ := h.resumes.of_created (refusal?_eq_none_iff.mp hr).1
    rcases hcreated.load_cases edges it with ⟨m', e, _, hd, _, h'⟩ | ⟨m', hd, hloaded, _⟩
    · simp [hd, Outcome.failed, h'.stage_eq] at hstage
    · simp [hd, Outcome.done, hloaded] at hstage

lemma setFinals (h : Tracks m₀ n i E F m) (finals : List Nat) (it : Interrupt)
    (hstage : (m.setFinals finals it).state.stage = .partitioned) :
    Partitioned (m.setFinals finals it).state n i E (F ++ (Call.setFinals finals it : Call α).recorded m) := by
  cases hr : m.refusal? .loaded .finalsSet it with
  | some e =>
    rw [Minimization.setFinals, hr] at hstage ⊢
    rw [Call.recorded, hr, if_neg (by simp), List.append_nil]
    exact h.partitioned hstage
  | none =>
    have hloaded := (refusal?_eq_none_iff.mp hr).1
    obtain ⟨h', _⟩ := h.resumes.of_loaded hloaded
    rcases h'.setFinals_cases hr finals with ⟨m', e, hd, _, hstage', _⟩ | ⟨m', hd, _, hset, _⟩
    · simp [hd, Outcome.failed, hstage', hloaded] at hstage
    · simp [hd, Outcome.done, hset] at hstage

variable [DecidableEq α] [OrderedSymbol α]

lemma partition (h : Tracks m₀ n i E F m) (hstage : (m.partition cancelled).state.stage = .partitioned) :
    Partitioned (m.partition cancelled).state n i E F := by
  cases hr : m.refusal? .finalsSet .partitioned (.ofBool cancelled) with
  | some e =>
    rw [Minimization.partition, hr] at hstage ⊢
    exact h.partitioned hstage
  | none =>
    have hset := (refusal?_eq_none_iff.mp hr).1
    obtain ⟨hloaded, hf⟩ := h.resumes.of_finalsSet hset
    rcases hloaded.partition_cases hf cancelled with ⟨e, hd, _⟩ | ⟨m', hd, _, hp⟩
    · simp [hd, Outcome.failed, hset] at hstage
    · rw [hd]
      exact hp

lemma finish (h : Tracks m₀ n i E F m) (hstage : (m.finish cancelled).state.stage = .partitioned) :
    Partitioned (m.finish cancelled).state n i E F := by
  rw [Minimization.finish, Outcome.andThen] at hstage ⊢
  cases he : (m.partition cancelled).error? with
  | none =>
    simp only [he] at hstage ⊢
    have hsame := refine_state_of_partitioned hstage
    rw [hsame] at hstage ⊢
    exact h.partition hstage
  | some e =>
    simp only [he] at hstage ⊢
    exact h.partition hstage

lemma run (h₀ : Created m₀ n i []) (h : Tracks m₀ n i E F m) (c : Call α) :
    Tracks m₀ n i (E ++ c.stored m) (F ++ c.recorded m) (c.run m).state := by
  refine ⟨h.resumes.run h₀ c, fun hstage => ?_⟩
  cases c with
  | load edges it => simpa only [Call.run, Call.recorded, List.append_nil] using h.load edges it hstage
  | setFinals finals it => simpa only [Call.run, Call.stored, List.append_nil] using h.setFinals finals it hstage
  | partition cancelled => simpa only [Call.run, Call.stored, Call.recorded, List.append_nil] using h.partition hstage
  | finish cancelled => simpa only [Call.run, Call.stored, Call.recorded, List.append_nil] using h.finish hstage
  | refine cancelled =>
    have hsame : ((Call.refine cancelled : Call α).run m).state = m := refine_state_of_partitioned hstage
    rw [hsame] at hstage ⊢
    simpa only [Call.stored, Call.recorded, List.append_nil] using h.partitioned hstage
  | transitions | acceptingBlocks | shape | dump =>
    simp only [Call.run, reads_state] at hstage ⊢
    simpa only [Call.stored, Call.recorded, List.append_nil] using h.partitioned hstage
  | blockOf s =>
    simpa only [Call.run, Outcome.done, Call.stored, Call.recorded, List.append_nil] using h.partitioned hstage

lemma after (h₀ : Created m₀ n i []) (h : Tracks m₀ n i E F m) (calls : List (Call α)) :
    Tracks m₀ n i (E ++ stored m calls) (F ++ recorded m calls) (after m calls) := by
  induction calls generalizing m E F with
  | nil => simpa only [stored, recorded, after_nil, List.append_nil] using h
  | cons c calls ih => simpa only [stored, recorded, after_cons, List.append_assoc] using ih (h.run h₀ c)

end Tracks

variable [DecidableEq α] [OrderedSymbol α]

theorem cords_are_target_classes (hi : i < n) : ∃ m₀ : Minimization α, create n i = .ok m₀ ∧
    ∀ (calls : List (Call α)) (cancelled : Bool) (m : Minimization α), Deterministic (m₀.stored calls) →
      (m₀.after calls).refine cancelled = .done m →
        m.edges = (m₀.stored calls).filter (fun e =>
          (m.blockOf? e.source).isSome && (m.blockOf? e.target).isSome) ∧
        (∀ (t u : Nat) (e f : Transition α), m.edges[t]? = some e → m.edges[u]? = some f → ∃ j k b c : Nat,
          m.cords.owner[t]? = some j ∧ m.cords.owner[u]? = some k ∧ m.blockOf? e.target = some b ∧
          m.blockOf? f.target = some c ∧ (j = k ↔ e.symbol = f.symbol ∧ b = c)) ∧
        ∀ b k, (∀ s, m.blockOf? s = some b → m.HasEdge s k) ∨ ∀ s, m.blockOf? s = some b → ¬ m.HasEdge s k := by
  obtain ⟨m₀, hcreate, h₀⟩ := create_spec (α := α) hi
  refine ⟨m₀, hcreate, fun calls cancelled m hdet hdone => ?_⟩
  have hstart : Tracks m₀ n i [] [] m₀ :=
    ⟨.created h₀ rfl fun _ => rfl, fun hstage => by simp [h₀.stage_eq] at hstage⟩
  have hp := (hstart.after h₀ calls).partitioned (stage_of_refine_done hdone)
  rw [List.nil_append] at hp
  obtain ⟨hstage, h⟩ := hp.refine_done hdet hdone
  have hblock : ∀ s, m.Live s → m.blockOf? s = some (m.blocks.setOf s) := fun s hs => by
    rw [h.blockOf?_eq hstage, if_pos hs]
  refine ⟨?_, fun t u e f ht hu => ?_, fun b k => ?_⟩
  · rw [h.edges_eq]
    congr 1
    funext e
    simp only [h.blockOf?_eq hstage]
    by_cases hs : m.Live e.source <;> by_cases ht : m.Live e.target <;> simp [hs, ht]
  · obtain ⟨_, _, het⟩ := h.mem_edges_iff.mp (List.mem_of_getElem? ht)
    obtain ⟨_, _, hft⟩ := h.mem_edges_iff.mp (List.mem_of_getElem? hu)
    exact ⟨_, _, _, _, h.cord_get ht, h.cord_get hu, hblock _ het, hblock _ hft, h.same_cord_iff t u e f ht hu⟩
  · by_cases hsome : ∃ s, m.blockOf? s = some b ∧ m.HasEdge s k
    · obtain ⟨s, hb, hs⟩ := hsome
      refine .inl fun t hbt => ?_
      obtain ⟨_, rfl⟩ := h.live_of_blockOf? hstage hb
      obtain ⟨ht, hts⟩ := h.live_of_blockOf? hstage hbt
      exact h.hasEdge_of_same_block hdet ht hts hs
    · exact .inr fun t hbt hk => hsome ⟨t, hbt, hk⟩

theorem cords_are_target_classes_after_failure :
    ∃ (m₀ m : Minimization Char) (calls : List (Call Char)), create 4 0 = .ok m₀ ∧
      calls = [.load [⟨0, 'a', 1⟩, ⟨0, 'b', 2⟩, ⟨3, 'a', 4⟩] .never,
        .load [⟨1, 'a', 0⟩, ⟨2, 'a', 0⟩, ⟨1, 'b', 3⟩] .never, .setFinals [0] .never, .partition false] ∧
      (m₀.after calls).refine false = .done m ∧
      m.edges = [⟨0, 'a', 1⟩, ⟨0, 'b', 2⟩, ⟨1, 'a', 0⟩, ⟨2, 'a', 0⟩] ∧
      m.cords.owner[2]? = m.cords.owner[3]? ∧ m.cords.owner[0]? ≠ m.cords.owner[1]? ∧
      ∀ k, m.HasEdge 1 k ↔ m.HasEdge 2 k := by
  obtain ⟨m₀, hcreate, h⟩ := cords_are_target_classes (α := Char) (by decide : 0 < 4)
  obtain rfl := Except.ok.inj hcreate
  obtain ⟨hedges, hcords, hblocks⟩ := h [.load [⟨0, 'a', 1⟩, ⟨0, 'b', 2⟩, ⟨3, 'a', 4⟩] .never,
    .load [⟨1, 'a', 0⟩, ⟨2, 'a', 0⟩, ⟨1, 'b', 3⟩] .never, .setFinals [0] .never, .partition false] false _
    (by
      rw [show stored _ _ = [⟨0, 'a', 1⟩, ⟨0, 'b', 2⟩, ⟨1, 'a', 0⟩, ⟨2, 'a', 0⟩, ⟨1, 'b', 3⟩] by cbv]
      simp [Deterministic])
    (Outcome.eq_done (by cbv))
  refine ⟨_, _, _, hcreate, rfl, Outcome.eq_done (by cbv), by cbv, ?_, ?_, fun k => ?_⟩
  · obtain ⟨j, k, b, c, hj, hk, hb, hc, hiff⟩ := hcords 2 3 ⟨1, 'a', 0⟩ ⟨2, 'a', 0⟩ (by cbv) (by cbv)
    rw [hj, hk, hiff.mpr ⟨rfl, Option.some.inj (hb.symm.trans hc)⟩]
  · obtain ⟨j, k, _, _, hj, hk, _, _, hiff⟩ := hcords 0 1 ⟨0, 'a', 1⟩ ⟨0, 'b', 2⟩ (by cbv) (by cbv)
    rw [hj, hk]
    exact fun hjk => absurd (hiff.mp (Option.some.inj hjk)).1 (by decide)
  · rcases hblocks 0 k with hall | hnone
    · exact iff_of_true (hall 1 (by cbv)) (hall 2 (by cbv))
    · exact iff_of_false (hnone 1 (by cbv)) (hnone 2 (by cbv))

end PatternInference.Minimization
