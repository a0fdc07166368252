import PatternInference.Minimization.Result
import PatternInference.Proofs.Minimization.Refining

namespace PatternInference

lemma Outcome.andThen_eq_done_iff {σ : Type} {o : Outcome σ} {next : σ → Outcome σ} {t : σ} :
    o.andThen next = .done t ↔ ∃ s, o = .done s ∧ next s = .done t := by
  rcases o with ⟨s, _ | e⟩
  · constructor
    · exact fun h => ⟨s, rfl, h⟩
    · rintro ⟨s', hs, h⟩
      cases hs
      exact h
  · constructor
    · intro h
      cases h
    · rintro ⟨s', hs, _⟩
      cases hs

lemma Outcome.toExcept_eq_ok_iff {σ : Type} {o : Outcome σ} {s : σ} : o.toExcept = .ok s ↔ o = .done s := by
  rcases o with ⟨t, _ | e⟩ <;> simp [Outcome.toExcept, Outcome.done]

lemma Outcome.eq_done {σ : Type} {o : Outcome σ} (h : o.error? = none) : o = .done o.state := by
  rw [done, ← h]

namespace Minimization

variable {α : Type} {m m₀ m₁ m₂ : Minimization α} {n i : Nat} {E : List (Transition α)} {F : List Nat} {s t : Nat}

lemma Trimmed.blockOf?_eq (h : Trimmed m n i E F) (hstage : m.stage = .refined) (s : Nat) :
    m.blockOf? s = if m.Live s then some (m.blocks.setOf s) else none := by
  have hsize : m.blocks.size = m.stateCount := h.size_eq.trans h.stateCount_eq.symm
  by_cases hs : s < m.blocks.size
  · simp [blockOf?, hstage, isLive?_eq h.blocks hs, ← hsize, hs, h.blocks.owner_get hs]
  · have hlive : ¬ m.Live s := fun hl => hs hl.1
    simp [blockOf?, hlive, ← hsize, hs]

lemma Trimmed.live_of_blockOf? (h : Trimmed m n i E F) (hstage : m.stage = .refined) {b : Nat}
    (hb : m.blockOf? s = some b) : m.Live s ∧ m.blocks.setOf s = b := by
  rw [h.blockOf?_eq hstage] at hb
  split at hb
  · next hs => exact ⟨hs, Option.some.inj hb⟩
  · cases hb

lemma create_inv (hm : create n i = .ok m) : Created m n i [] := by
  rw [create] at hm
  split at hm
  · next hi =>
    obtain ⟨m', hm', h⟩ : ∃ m : Minimization α, create n i = .ok m ∧ Created m n i [] := create_spec hi
    rw [create, if_pos hi] at hm'
    rw [← Except.ok.inj hm, Except.ok.inj hm']
    exact h
  · cases hm

variable [DecidableEq α] [OrderedSymbol α]

lemma finish_eq_done_iff {cancelled : Bool} : m.finish cancelled = .done m₁ ↔
    ∃ m', m.partition cancelled = .done m' ∧ m'.refine cancelled = .done m₁ :=
  Outcome.andThen_eq_done_iff

lemma run_eq_ok_iff : run n i E F false = .ok m ↔ ∃ m₀ m₁ m₂, create n i = .ok m₀ ∧ m₀.load E .never = .done m₁ ∧
    m₁.setFinals F .never = .done m₂ ∧ m₂.finish false = .done m := by
  have hsteps : ∀ m₀ : Minimization α, ((m₀.load E .never).andThen fun m => (m.setFinals F .never).andThen
      (·.finish false)).toExcept = .ok m ↔ ∃ m₁ m₂, m₀.load E .never = .done m₁ ∧
        m₁.setFinals F .never = .done m₂ ∧ m₂.finish false = .done m := by
    intro m₀
    simp only [Outcome.toExcept_eq_ok_iff, Outcome.andThen_eq_done_iff, exists_and_left]
  cases hm : (create n i : Except Error (Minimization α)) with
  | error e =>
    simp only [run, hm]
    exact iff_of_false nofun (by rintro ⟨_, _, _, h, _⟩; cases h)
  | ok m₀ =>
    simp only [run, hm, Except.ok.injEq]
    refine (hsteps m₀).trans ⟨fun ⟨m₁, m₂, h⟩ => ⟨m₀, m₁, m₂, rfl, h⟩, ?_⟩
    rintro ⟨_, m₁, m₂, rfl, h⟩
    exact ⟨m₁, m₂, h⟩

lemma refined_of_done (hdet : Deterministic E) (hcreate : create n i = .ok m₀) (hload : m₀.load E .never = .done m₁)
    (hfinals : m₁.setFinals F .never = .done m₂) (hfinish : m₂.finish false = .done m) :
    m.stage = .refined ∧ Refined m n i E F := by
  obtain ⟨_, hloaded, _⟩ := (create_inv hcreate).load_done hload
  obtain ⟨_, hf, hset, _⟩ := hloaded.setFinals_done hfinals
  obtain ⟨m₃, hpartition, hrefine⟩ := finish_eq_done_iff.mp hfinish
  obtain ⟨_, hp⟩ := hset.partition_done hf hpartition
  exact hp.refine_done hdet hrefine

lemma exists_done (hi : i < n) (hE : ∀ e ∈ E, e.source < n ∧ e.target < n)
    (hF : ∀ s ∈ F, s < n) (hreach : ∃ s ∈ F, Reachable E i s) :
    ∃ m₀ m₁ m₂ m, create n i = .ok m₀ ∧ m₀.load E .never = .done m₁ ∧ m₁.setFinals F .never = .done m₂ ∧
      m₂.finish false = .done m := by
  obtain ⟨m₀, m₁, m₂, m₃, h₀, h₁, h₂, h₃, hstage, -, hp⟩ := exists_partitioned hi hE hF hreach
  obtain ⟨m₄, h₄⟩ := hp.refine_ok hstage
  exact ⟨m₀, m₁, m₂, m₄, h₀, h₁, h₂, finish_eq_done_iff.mpr ⟨m₃, h₃, h₄⟩⟩

theorem blocks_are_residual_classes (hdet : Deterministic E) (hcreate : create n i = .ok m₀)
    (hload : m₀.load E .never = .done m₁) (hfinals : m₁.setFinals F .never = .done m₂)
    (hfinish : m₂.finish false = .done m ∨ ∃ m₃, m₂.partition false = .done m₃ ∧ m₃.refine false = .done m) :
    (∀ p q b c, m.blockOf? p = some b → m.blockOf? q = some c → (b = c ↔ residual E F p = residual E F q)) ∧
      ∀ s, s < n → (m.blockOf? s = none ↔ ¬ Reachable E i s ∨ ∀ w, w ∉ residual E F s) := by
  rw [← finish_eq_done_iff, or_self] at hfinish
  obtain ⟨hstage, h⟩ := refined_of_done hdet hcreate hload hfinals hfinish
  refine ⟨fun p q b c hp hq => ?_, fun s _ => ?_⟩
  · obtain ⟨hpl, rfl⟩ := h.live_of_blockOf? hstage hp
    obtain ⟨hql, rfl⟩ := h.live_of_blockOf? hstage hq
    exact h.same_block_iff p q hpl hql
  · rw [h.blockOf?_eq hstage, ite_eq_right_iff]
    simp only [reduceCtorEq, imp_false, h.live_iff, not_and_or, Productive, not_exists]

theorem residual_classes_of_cycle :
    let edges : List (Transition Char) := [⟨0, 'a', 1⟩, ⟨1, 'a', 2⟩, ⟨2, 'a', 1⟩, ⟨0, 'b', 3⟩]
    Deterministic edges ∧ ∃ m₀ m₁ m₂ m : Minimization Char, create 4 0 = .ok m₀ ∧ m₀.load edges .never = .done m₁ ∧
      m₁.setFinals [0, 2] .never = .done m₂ ∧ m₂.finish false = .done m ∧
      (∀ p q b c, m.blockOf? p = some b → m.blockOf? q = some c →
        (b = c ↔ residual edges [0, 2] p = residual edges [0, 2] q)) ∧
      ∀ s, s < 4 → (m.blockOf? s = none ↔ ¬ Reachable edges 0 s ∨ ∀ w, w ∉ residual edges [0, 2] s) := by
  intro edges
  have hdet : Deterministic edges := by simp [Deterministic, edges]
  obtain ⟨m₀, m₁, m₂, m, hcreate, hload, hfinals, hfinish⟩ := exists_done (i := 0) (E := edges) (F := [0, 2])
    (by decide : 0 < 4) (by decide) (by decide) ⟨0, by decide, .refl 0⟩
  exact ⟨hdet, m₀, m₁, m₂, m, hcreate, hload, hfinals, hfinish,
    blocks_are_residual_classes hdet hcreate hload hfinals (.inl hfinish)⟩

end Minimization
end PatternInference
