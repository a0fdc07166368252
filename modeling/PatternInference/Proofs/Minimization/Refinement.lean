import PatternInference.Minimization.Refinement
import PatternInference.Proofs.Automaton.Words
import PatternInference.Proofs.Buckets
import PatternInference.Proofs.Partition.Splitting

/-! Refinement ends in blocks of equal residuals and in cords of equal symbols and target blocks. -/

namespace PatternInference.Refinement

open PatternInference.Partition

variable {α : Type} {edges : List (Transition α)} {finals : List Nat} {live n k b : Nat} {r q : Refinement}
  {s t u : Nat} {e f : Transition α}

def Out (edges : List (Transition α)) (cords : Partition) (s k : Nat) : Prop :=
  ∃ (t : Nat) (e : Transition α), edges[t]? = some e ∧ e.source = s ∧ cords.setOf t = k

def Into (edges : List (Transition α)) (blocks : Partition) (b t : Nat) : Prop :=
  ∃ e, edges[t]? = some e ∧ blocks.setOf e.target = b

def SameOut (edges : List (Transition α)) (cords : Partition) (k s t : Nat) : Prop :=
  ∀ c, k ≤ c → (Out edges cords s c ↔ Out edges cords t c)

def SameSymbol (edges : List (Transition α)) (cords : Partition) : Prop :=
  ∀ t u e f, edges[t]? = some e → edges[u]? = some f → cords.setOf t = cords.setOf u → e.symbol = f.symbol

lemma SameOut.symm {cords : Partition} (h : SameOut edges cords k s t) : SameOut edges cords k t s :=
  fun c hc => (h c hc).symm

structure Fits (edges : List (Transition α)) (live n : Nat) (r : Refinement) : Prop where
  blocks : r.blocks.Clean live
  cords : r.cords.Clean edges.length
  blocks_size : r.blocks.size = n
  cords_size : r.cords.size = edges.length
  ends : ∀ e ∈ edges, r.blocks.Live live e.source ∧ r.blocks.Live live e.target

lemma Fits.live_cord_iff (h : Fits edges live n r) : r.cords.Live edges.length t ↔ t < edges.length := by
  constructor
  · intro ht
    exact h.cords_size ▸ ht.1
  · intro ht
    have hplace := h.cords.valid.placeOf_lt t (h.cords_size.symm ▸ ht)
    exact ⟨h.cords_size.symm ▸ ht, h.cords_size ▸ hplace⟩

lemma Fits.live_cord (h : Fits edges live n r) (ht : edges[t]? = some e) : r.cords.Live edges.length t :=
  h.live_cord_iff.mpr (List.getElem?_eq_some_iff.mp ht).1

lemma Fits.splitBlocks?_spec (h : Fits edges live n r) (hk : k < r.cords.setCount) :
    ∃ blocks, r.splitBlocks? (edges.map Transition.source).toArray k = some { r with blocks } ∧
      Refines r.blocks blocks live fun p q => (Out edges r.cords p k ↔ Out edges r.cords q k) := by
  obtain ⟨l, hl, hmem⟩ := h.cords.valid.members?_spec hk
  have hget : ∀ t ∈ l, ∃ e, edges[t]? = some e ∧ r.cords.setOf t = k := by
    intro t ht
    obtain ⟨hlive, hset⟩ := (hmem t).mp ht
    have hlt := h.live_cord_iff.mp hlive
    exact ⟨edges[t], List.getElem?_eq_getElem hlt, hset⟩
  have hstep : ∀ t ∈ l, ∀ p : Partition, p.Valid live → p.Touched → (∀ s, p.Live live s ↔ r.blocks.Live live s) →
      ∃ p', (do p.mark? (← (edges.map Transition.source).toArray[t]?)) = some p' ∧
        Marking p p' live fun s => ∃ e, edges[t]? = some e ∧ s = e.source := by
    intro t ht p hp htouched hlive
    obtain ⟨e, he, _⟩ := hget t ht
    obtain ⟨p', hp', y⟩ := hp.mark?_spec htouched ((hlive _).mpr (h.ends e (List.mem_of_getElem? he)).1)
    refine ⟨p', by simpa [he] using hp', y.congr fun s => ?_⟩
    simp [he]
  obtain ⟨marked, hm, x⟩ := Marking.foldlM h.blocks.valid h.blocks.touched hstep
  obtain ⟨blocks, hb, _, z⟩ := x.split?_spec h.blocks
  refine ⟨blocks, ?_, z.congr fun p q => ?_⟩
  · simp only [Option.bind_eq_bind] at hm
    simp only [splitBlocks?, hl, hm, hb, Option.bind_eq_bind, Option.bind_some]
    rfl
  · have hout : ∀ s, (∃ t ∈ l, ∃ e, edges[t]? = some e ∧ s = e.source) ↔ Out edges r.cords s k := by
      intro s
      constructor
      · rintro ⟨t, ht, e, he, rfl⟩
        exact ⟨t, e, he, rfl, ((hmem t).mp ht).2⟩
      · rintro ⟨t, e, he, rfl, hset⟩
        exact ⟨t, (hmem t).mpr ⟨h.live_cord he, hset⟩, e, he, rfl⟩
    rw [hout, hout]

lemma Fits.splitCords?_spec (h : Fits edges live n r) {incoming : Buckets}
    (hin : ∀ s, s < n → incoming.bucket? s = some (Buckets.positions (edges.map Transition.target) s))
    (hb : b < r.blocks.setCount) :
    ∃ cords, r.splitCords? incoming b = some { r with cords } ∧
      Refines r.cords cords edges.length fun t u => (Into edges r.blocks b t ↔ Into edges r.blocks b u) := by
  obtain ⟨l, hl, hmem⟩ := h.blocks.valid.members?_spec hb
  have hpos : ∀ s t, t ∈ Buckets.positions (edges.map Transition.target) s ↔ ∃ e, edges[t]? = some e ∧ e.target = s := by
    intro s t
    rw [Buckets.mem_positions, List.getElem?_map, Option.map_eq_some_iff]
  have hstep : ∀ s ∈ l, ∀ p : Partition, p.Valid edges.length → p.Touched →
      (∀ t, p.Live edges.length t ↔ r.cords.Live edges.length t) →
      ∃ p', (do (← incoming.bucket? s).foldlM Partition.mark? p) = some p' ∧
        Marking p p' edges.length fun t => ∃ e, edges[t]? = some e ∧ e.target = s := by
    intro s hs p hp htouched hlive
    have hmark : ∀ t ∈ Buckets.positions (edges.map Transition.target) s, ∀ p' : Partition, p'.Valid edges.length →
        p'.Touched → (∀ t, p'.Live edges.length t ↔ p.Live edges.length t) →
        ∃ p'', p'.mark? t = some p'' ∧ Marking p' p'' edges.length (· = t) := by
      intro t ht p' hp' htouched' hlive'
      obtain ⟨e, he, _⟩ := (hpos s t).mp ht
      exact hp'.mark?_spec htouched' ((hlive' t).mpr ((hlive t).mpr (h.live_cord he)))
    obtain ⟨p', hp', x⟩ := Marking.foldlM hp htouched hmark
    refine ⟨p', ?_, x.congr fun t => ?_⟩
    · rw [hin s (h.blocks_size ▸ ((hmem s).mp hs).1.1)]
      exact hp'
    · simp [← hpos]
  obtain ⟨marked, hm, x⟩ := Marking.foldlM h.cords.valid h.cords.touched hstep
  obtain ⟨cords, hc, _, z⟩ := x.split?_spec h.cords
  refine ⟨cords, ?_, z.congr fun t u => ?_⟩
  · simp only [Option.bind_eq_bind] at hm
    simp only [splitCords?, hl, hm, hc, Option.bind_eq_bind, Option.bind_some]
    rfl
  · have hinto : ∀ t, (∃ s ∈ l, ∃ e, edges[t]? = some e ∧ e.target = s) ↔ Into edges r.blocks b t := by
      intro t
      constructor
      · rintro ⟨s, hs, e, he, rfl⟩
        exact ⟨e, he, ((hmem _).mp hs).2⟩
      · rintro ⟨e, he, hset⟩
        exact ⟨e.target, (hmem _).mpr ⟨(h.ends e (List.mem_of_getElem? he)).2, hset⟩, e, he, rfl⟩
    rw [hinto, hinto]

lemma Fits.with_blocks (h : Fits edges live n r) {R : Nat → Nat → Prop} {blocks : Partition}
    (x : Refines r.blocks blocks live R) : Fits edges live n { r with blocks } :=
  ⟨x.clean, h.cords, x.size_eq.trans h.blocks_size, h.cords_size, fun e he =>
    ⟨(x.live_iff _).mpr (h.ends e he).1, (x.live_iff _).mpr (h.ends e he).2⟩⟩

lemma Fits.with_cords (h : Fits edges live n r) {R : Nat → Nat → Prop} {cords : Partition}
    (x : Refines r.cords cords edges.length R) : Fits edges live n { r with cords } :=
  ⟨h.blocks, x.clean, h.blocks_size, x.size_eq.trans h.cords_size, h.ends⟩

lemma Fits.foldlM_splitCords? (h : Fits edges live n r) {incoming : Buckets}
    (hin : ∀ s, s < n → incoming.bucket? s = some (Buckets.positions (edges.map Transition.target) s))
    {bs : List Nat} (hbs : ∀ b ∈ bs, b < r.blocks.setCount) :
    ∃ cords, bs.foldlM (splitCords? incoming) r = some { r with cords } ∧
      Refines r.cords cords edges.length fun t u => ∀ b ∈ bs, (Into edges r.blocks b t ↔ Into edges r.blocks b u) := by
  induction bs generalizing r with
  | nil => exact ⟨r.cords, rfl, .refl h.cords (by simp)⟩
  | cons b bs ih =>
    obtain ⟨c, hc, x⟩ := h.splitCords?_spec hin (hbs b (by simp))
    obtain ⟨d, hd, y⟩ := ih (h.with_cords x) fun b' hb' => hbs b' (by simp [hb'])
    refine ⟨d, ?_, (x.trans y).congr fun t u => by simp⟩
    rw [List.foldlM_cons, hc]
    exact hd

structure Round (edges : List (Transition α)) (live k : Nat) (r q : Refinement) : Prop where
  blocks : Refines r.blocks q.blocks live fun s t => (Out edges r.cords s k ↔ Out edges r.cords t k)
  cords : Refines r.cords q.cords edges.length fun t u =>
    ∀ b, r.next ≤ b → b < q.blocks.setCount → (Into edges q.blocks b t ↔ Into edges q.blocks b u)
  next_eq : q.next = q.blocks.setCount

lemma Fits.round?_spec (h : Fits edges live n r) {incoming : Buckets}
    (hin : ∀ s, s < n → incoming.bucket? s = some (Buckets.positions (edges.map Transition.target) s))
    (hk : k < r.cords.setCount) (hnext : r.next ≤ r.blocks.setCount) :
    ∃ q, r.round? (edges.map Transition.source).toArray incoming k = some q ∧ Round edges live k r q ∧
      Fits edges live n q := by
  obtain ⟨blocks, hb, x⟩ := h.splitBlocks?_spec hk
  have h₁ := h.with_blocks x
  have hle := hnext.trans x.setCount_le
  have hmem : ∀ b, b ∈ List.range' r.next (blocks.setCount - r.next) ↔ r.next ≤ b ∧ b < blocks.setCount := by
    intro b
    rw [List.mem_range'_1]
    omega
  obtain ⟨cords, hc, y⟩ := h₁.foldlM_splitCords? hin fun b hb => ((hmem b).mp hb).2
  have h₂ := h₁.with_cords y
  refine ⟨⟨blocks, cords, max r.next blocks.setCount⟩, ?_, ⟨x, y.congr fun t u => ?_, max_eq_right hle⟩, { h₂ with }⟩
  · simp only [round?, hb, Option.bind_eq_bind, Option.bind_some]
    rw [hc]
    rfl
  · simp only [hmem, and_imp]

namespace Round

lemma same_block (x : Round edges live k r q) (hs : r.blocks.Live live s) (ht : r.blocks.Live live t)
    (hst : q.blocks.setOf s = q.blocks.setOf t) :
    r.blocks.setOf s = r.blocks.setOf t ∧ (Out edges r.cords s k ↔ Out edges r.cords t k) :=
  (x.blocks.same_iff s t hs ht).mp hst

lemma setOf_of_lt (x : Round edges live k r q) (h : Fits edges live n r) (ht : edges[t]? = some e)
    (hlt : q.cords.setOf t < r.cords.setCount) : r.cords.setOf t = q.cords.setOf t := by
  rcases x.cords.keeps t (h.live_cord ht) with heq | hge
  · exact heq.symm
  · omega

lemma same_cord (x : Round edges live k r q) (h : Fits edges live n r) (ht : edges[t]? = some e)
    (hu : edges[u]? = some f) (htu : q.cords.setOf t = q.cords.setOf u) : r.cords.setOf t = r.cords.setOf u :=
  ((x.cords.same_iff t u (h.live_cord ht) (h.live_cord hu)).mp htu).1

lemma out_old (x : Round edges live k r q) (h : Fits edges live n r) (hk : k < r.cords.setCount)
    (hout : SameOut edges q.cords (k + 1) s t) {c : Nat} (hc : k + 1 ≤ c) (hs : Out edges r.cords s c) :
    Out edges r.cords t c := by
  obtain ⟨a, e, ha, rfl, rfl⟩ := hs
  have hge : k + 1 ≤ q.cords.setOf a := by
    rcases x.cords.keeps a (h.live_cord ha) with heq | hge
    · omega
    · omega
  obtain ⟨b, f, hb, rfl, hba⟩ := (hout _ hge).mp ⟨a, e, ha, rfl, rfl⟩
  exact ⟨b, f, hb, rfl, x.same_cord h hb ha hba⟩

lemma out_used (x : Round edges live k r q) (h : Fits edges live n r) (hdet : Deterministic edges)
    (hsymbol : SameSymbol edges r.cords) (hk : k < r.cords.setCount) (hold : SameOut edges r.cords 0 s t)
    (hout : SameOut edges q.cords (k + 1) s t) {c : Nat} (hs : Out edges q.cords s c) : Out edges q.cords t c := by
  obtain ⟨a, e, ha, rfl, rfl⟩ := hs
  by_cases hge : k + 1 ≤ q.cords.setOf a
  · exact (hout _ hge).mp ⟨a, e, ha, rfl, rfl⟩
  · have hcord := x.setOf_of_lt h ha (by omega)
    obtain ⟨b, f, hb, rfl, hba⟩ := (hold _ (Nat.zero_le _)).mp ⟨a, e, ha, rfl, hcord⟩
    refine ⟨b, f, hb, rfl, ?_⟩
    rcases x.cords.keeps b (h.live_cord hb) with heq | hnew
    · exact heq.trans hba
    · -- the cord was split apart, and by determinism the edge in the new part is the one it came from
      obtain ⟨a', e', ha', hsource, hab⟩ := (hout (q.cords.setOf b) (by omega)).mpr ⟨b, f, hb, rfl, rfl⟩
      have hcord' : r.cords.setOf a' = r.cords.setOf a := by
        rw [x.same_cord h ha' hb hab, hba, hcord]
      have heq := hdet.getElem?_index_eq ha' ha hsource (hsymbol a' a e' e ha' ha hcord')
      rw [← hab, heq]

lemma sameOut (x : Round edges live k r q) (h : Fits edges live n r) (hdet : Deterministic edges)
    (hsymbol : SameSymbol edges r.cords) (hk : k < r.cords.setCount)
    (hst : Out edges r.cords s k ↔ Out edges r.cords t k)
    (hused : SameOut edges r.cords k s t → SameOut edges r.cords 0 s t)
    (hout : SameOut edges q.cords (k + 1) s t) : SameOut edges q.cords 0 s t := by
  -- what a used cord tells apart, an unused one tells apart too
  have hk' : SameOut edges r.cords k s t := by
    intro c hc
    by_cases hck : c = k
    · rwa [hck]
    · exact ⟨x.out_old h hk hout (by omega), x.out_old h hk hout.symm (by omega)⟩
  have hold := hused hk'
  exact fun c _ => ⟨x.out_used h hdet hsymbol hk hold hout, x.out_used h hdet hsymbol hk hold.symm hout.symm⟩

end Round

lemma run?_of_round {P : Nat → Refinement → Prop} {incoming : Buckets}
    (hin : ∀ s, s < n → incoming.bucket? s = some (Buckets.positions (edges.map Transition.target) s))
    (hfits : ∀ k r, P k r → Fits edges live n r ∧ r.next ≤ r.blocks.setCount)
    (hround : ∀ k r q, P k r → k < r.cords.setCount → Round edges live k r q → Fits edges live n q → P (k + 1) q)
    {fuel : Nat} (h : P k r) (hfuel : k + fuel = edges.length) :
    ∃ q c, run? (edges.map Transition.source).toArray incoming fuel k r = some q ∧ P c q ∧ q.cords.setCount ≤ c := by
  induction fuel generalizing k r with
  | zero =>
    have hle := (hfits k r h).1.cords.valid.setCount_le
    exact ⟨r, k, by rw [run?, if_neg (by omega)], h, by omega⟩
  | succ fuel ih =>
    by_cases hk : k < r.cords.setCount
    · obtain ⟨hr, hnext⟩ := hfits k r h
      obtain ⟨r', hr', x, hr'fits⟩ := hr.round?_spec hin hk hnext
      obtain ⟨q, c, hq, hP, hc⟩ := ih (hround k r r' h hk x hr'fits) (by omega)
      exact ⟨q, c, by rw [run?, if_pos hk, hr']; exact hq, hP, hc⟩
    · exact ⟨r, k, by rw [run?, if_neg hk], h, by omega⟩

structure Keeps (edges : List (Transition α)) (finals : List Nat) (p : Partition) (live : Nat) (r : Refinement) : Prop
    extends Fits edges live p.size r where
  live_iff : ∀ s, r.blocks.Live live s ↔ p.Live live s
  accepts_at : ∀ i, i < live → (r.blocks.elementAt i ∈ finals ↔ p.elementAt i ∈ finals)
  next_le : r.next ≤ r.blocks.setCount
  acceptance : ∀ s t, r.blocks.Live live s → r.blocks.Live live t → r.blocks.setOf s = r.blocks.setOf t →
    (s ∈ finals ↔ t ∈ finals)

namespace Keeps

variable {p : Partition}

lemma round (h : Keeps edges finals p live r) (x : Round edges live k r q) (hq : Fits edges live p.size q) :
    Keeps edges finals p live q := by
  have hlive := x.blocks.live_iff
  refine { hq with
    live_iff := fun s => (hlive s).trans (h.live_iff s), accepts_at := fun i hi => ?_, next_le := x.next_eq.le,
    acceptance := fun s t hs ht hst => ?_ }
  · rw [← h.accepts_at i hi]
    exact h.acceptance _ _ ((hlive _).mp (hq.blocks.valid.live_elementAt hi)) (h.blocks.valid.live_elementAt hi)
      (x.blocks.stays i hi)
  · rw [hlive] at hs ht
    exact h.acceptance s t hs ht (x.same_block hs ht hst).1

lemma run?_spec (h : Keeps edges finals p live r) {incoming : Buckets}
    (hin : ∀ s, s < p.size → incoming.bucket? s = some (Buckets.positions (edges.map Transition.target) s)) :
    ∃ q, run? (edges.map Transition.source).toArray incoming edges.length 0 r = some q ∧ Keeps edges finals p live q := by
  obtain ⟨q, _, hq, hkeeps, _⟩ := run?_of_round (P := fun _ => Keeps edges finals p live) hin
    (fun _ _ h => ⟨h.toFits, h.next_le⟩) (fun _ _ _ h _ x hfits => h.round x hfits) h (Nat.zero_add _)
  exact ⟨q, hq, hkeeps⟩

end Keeps

/--
The cords below `cord` and the blocks below `next` are used. Neither blocks nor cords tell more apart than residuals do.
-/
structure Invariant (edges : List (Transition α)) (finals : List Nat) (p : Partition) (live cord : Nat)
    (r : Refinement) : Prop extends Keeps edges finals p live r where
  next_eq : cord = 0 ∨ r.next = r.blocks.setCount
  symbol : SameSymbol edges r.cords
  coarse_blocks : ∀ s t, r.blocks.Live live s → r.blocks.Live live t →
    residual edges finals s = residual edges finals t → r.blocks.setOf s = r.blocks.setOf t
  coarse_cords : ∀ t u e f, edges[t]? = some e → edges[u]? = some f → e.symbol = f.symbol →
    residual edges finals e.target = residual edges finals f.target → r.cords.setOf t = r.cords.setOf u
  blocks_used : ∀ t u e f, edges[t]? = some e → edges[u]? = some f → r.cords.setOf t = r.cords.setOf u →
    r.blocks.setOf e.target < r.next → r.blocks.setOf f.target < r.next →
      r.blocks.setOf e.target = r.blocks.setOf f.target
  cords_used : ∀ s t, r.blocks.Live live s → r.blocks.Live live t → r.blocks.setOf s = r.blocks.setOf t →
    SameOut edges r.cords cord s t → SameOut edges r.cords 0 s t

namespace Invariant

variable {p : Partition} {cord : Nat}

lemma residual_target_eq (hdet : Deterministic edges) (he : e ∈ edges) (hf : f ∈ edges)
    (hs : residual edges finals e.source = residual edges finals f.source) (ha : e.symbol = f.symbol) :
    residual edges finals e.target = residual edges finals f.target := by
  ext w
  rw [hdet.residual_target he, hdet.residual_target hf, hs, ha]

lemma out_of_residual (h : Invariant edges finals p live cord r) (hdet : Deterministic edges)
    (hprod : ∀ s, p.Live live s → Productive edges finals s)
    (hst : residual edges finals s = residual edges finals t) (hs : Out edges r.cords s k) : Out edges r.cords t k := by
  -- every edge leads on to an accepted word
  obtain ⟨a, e, ha, rfl, hk⟩ := hs
  have he := List.mem_of_getElem? ha
  obtain ⟨w, hw⟩ := hprod e.target ((h.live_iff _).mp (h.ends e he).2)
  have hcons : e.symbol :: w ∈ residual edges finals t := by
    rw [← hst]
    exact (hdet.residual_target he).mp hw
  obtain ⟨f, hf, rfl, hsymbol, _⟩ := residual_cons.mp hcons
  obtain ⟨b, hb⟩ := List.getElem?_of_mem hf
  refine ⟨b, f, hb, rfl, ?_⟩
  rw [← hk]
  exact h.coarse_cords b a f e hb ha hsymbol (residual_target_eq hdet hf he hst.symm hsymbol)

lemma round (h : Invariant edges finals p live cord r) (x : Round edges live cord r q)
    (hq : Fits edges live p.size q) (hdet : Deterministic edges) (hprod : ∀ s, p.Live live s → Productive edges finals s)
    (hk : cord < r.cords.setCount) : Invariant edges finals p live (cord + 1) q := by
  have hfits := h.toFits
  have hlive := x.blocks.live_iff
  have hmem : ∀ {t e}, edges[t]? = some e → e ∈ edges := List.mem_of_getElem?
  have hcoarse : ∀ s t, q.blocks.Live live s → q.blocks.Live live t →
      residual edges finals s = residual edges finals t → q.blocks.setOf s = q.blocks.setOf t := by
    intro s t hs ht hst
    rw [hlive] at hs ht
    exact (x.blocks.same_iff s t hs ht).mpr ⟨h.coarse_blocks s t hs ht hst,
      h.out_of_residual hdet hprod hst, h.out_of_residual hdet hprod hst.symm⟩
  have hold : ∀ {e}, e ∈ edges → q.blocks.setOf e.target < r.next →
      r.blocks.setOf e.target = q.blocks.setOf e.target := by
    intro e he hlt
    have hnext := h.next_le
    rcases x.blocks.keeps e.target (h.ends e he).2 with heq | hge
    · exact heq.symm
    · omega
  refine { h.toKeeps.round x hq with
    next_eq := .inr x.next_eq, symbol := fun t u e f ht hu htu => ?_, coarse_blocks := hcoarse,
    coarse_cords := fun t u e f ht hu ha hres => ?_, blocks_used := fun t u e f ht hu htu he hf => ?_,
    cords_used := fun s t hs ht hst hout => ?_ }
  · exact h.symbol t u e f ht hu (x.same_cord hfits ht hu htu)
  · refine (x.cords.same_iff t u (h.live_cord ht) (h.live_cord hu)).mpr ⟨h.coarse_cords t u e f ht hu ha hres,
      fun b _ _ => ?_⟩
    have hblock := hcoarse _ _ (hq.ends e (hmem ht)).2 (hq.ends f (hmem hu)).2 hres
    simp only [Into, ht, hu, Option.some.injEq, exists_eq_left', hblock]
  · obtain ⟨hcord, hinto⟩ := (x.cords.same_iff t u (h.live_cord ht) (h.live_cord hu)).mp htu
    simp only [Into, ht, hu, Option.some.injEq, exists_eq_left'] at hinto
    rw [x.next_eq] at he hf
    by_cases hen : r.next ≤ q.blocks.setOf e.target
    · exact ((hinto _ hen he).mp rfl).symm
    · by_cases hfn : r.next ≤ q.blocks.setOf f.target
      · exact (hinto _ hfn hf).mpr rfl
      · have heo := hold (hmem ht) (by omega)
        have hfo := hold (hmem hu) (by omega)
        rw [← heo, ← hfo]
        exact h.blocks_used t u e f ht hu hcord (by omega) (by omega)
  · rw [hlive] at hs ht
    obtain ⟨hblock, hk'⟩ := x.same_block hs ht hst
    exact x.sameOut hfits hdet h.symbol hk hk' (h.cords_used s t hs ht hblock) hout

lemma run?_spec (h : Invariant edges finals p live cord r) (hdet : Deterministic edges)
    (hprod : ∀ s, p.Live live s → Productive edges finals s) {incoming : Buckets}
    (hin : ∀ s, s < p.size → incoming.bucket? s = some (Buckets.positions (edges.map Transition.target) s))
    {fuel : Nat} (hfuel : cord + fuel = edges.length) :
    ∃ q c, run? (edges.map Transition.source).toArray incoming fuel cord r = some q ∧
      Invariant edges finals p live c q ∧ q.cords.setCount ≤ c := by
  exact run?_of_round (P := Invariant edges finals p live) hin (fun _ _ h => ⟨h.toFits, h.next_le⟩)
    (fun _ _ _ h hk x hfits => h.round x hfits hdet hprod hk) h hfuel

lemma same_target (h : Invariant edges finals p live cord r) (hend : r.cords.setCount ≤ cord)
    (ht : edges[t]? = some e) (hu : edges[u]? = some f) (htu : r.cords.setOf t = r.cords.setOf u) :
    r.blocks.setOf e.target = r.blocks.setOf f.target := by
  have hcord := (h.cords.valid.mem_range (h.live_cord ht)).1
  have hnext : r.next = r.blocks.setCount := h.next_eq.resolve_left (by omega)
  refine h.blocks_used t u e f ht hu htu ?_ ?_
  · rw [hnext]
    exact (h.blocks.valid.mem_range (h.ends e (List.mem_of_getElem? ht)).2).1
  · rw [hnext]
    exact (h.blocks.valid.mem_range (h.ends f (List.mem_of_getElem? hu)).2).1

lemma mem_residual_of_same_block (h : Invariant edges finals p live cord r) (hend : r.cords.setCount ≤ cord)
    {w : List α} (hs : r.blocks.Live live s) (ht : r.blocks.Live live t) (hst : r.blocks.setOf s = r.blocks.setOf t)
    (hw : w ∈ residual edges finals s) : w ∈ residual edges finals t := by
  induction w generalizing s t with
  | nil =>
    obtain ⟨u, hu, hr⟩ := hw
    obtain rfl := reads_nil_iff.mp hr
    exact ⟨t, (h.acceptance s t hs ht hst).mp hu, .nil t⟩
  | cons a w ih =>
    obtain ⟨e, he, rfl, rfl, htail⟩ := residual_cons.mp hw
    obtain ⟨i, hi⟩ := List.getElem?_of_mem he
    have hout : SameOut edges r.cords 0 e.source t := by
      refine h.cords_used _ _ hs ht hst fun c hc => ?_
      have hnone : ∀ s, ¬ Out edges r.cords s c := by
        rintro s ⟨j, f, hj, _, rfl⟩
        have := (h.cords.valid.mem_range (h.live_cord hj)).1
        omega
      exact iff_of_false (hnone _) (hnone _)
    obtain ⟨j, f, hj, rfl, hcord⟩ := (hout _ (Nat.zero_le _)).mp ⟨i, e, hi, rfl, rfl⟩
    have hf := List.mem_of_getElem? hj
    refine residual_cons.mpr ⟨f, hf, rfl, h.symbol j i f e hj hi hcord, ?_⟩
    exact ih (h.ends e he).2 (h.ends f hf).2 (h.same_target hend hi hj hcord.symm) htail

lemma same_block_iff (h : Invariant edges finals p live cord r) (hend : r.cords.setCount ≤ cord)
    (hs : r.blocks.Live live s) (ht : r.blocks.Live live t) :
    r.blocks.setOf s = r.blocks.setOf t ↔ residual edges finals s = residual edges finals t := by
  constructor
  · intro hst
    ext w
    exact ⟨h.mem_residual_of_same_block hend hs ht hst, h.mem_residual_of_same_block hend ht hs hst.symm⟩
  · exact h.coarse_blocks s t hs ht

lemma same_cord_iff (h : Invariant edges finals p live cord r) (hend : r.cords.setCount ≤ cord)
    (ht : edges[t]? = some e) (hu : edges[u]? = some f) :
    r.cords.setOf t = r.cords.setOf u ↔ e.symbol = f.symbol ∧ r.blocks.setOf e.target = r.blocks.setOf f.target := by
  constructor
  · exact fun htu => ⟨h.symbol t u e f ht hu htu, h.same_target hend ht hu htu⟩
  · rintro ⟨hsymbol, hblock⟩
    refine h.coarse_cords t u e f ht hu hsymbol ((h.same_block_iff hend ?_ ?_).mp hblock)
    · exact (h.ends e (List.mem_of_getElem? ht)).2
    · exact (h.ends f (List.mem_of_getElem? hu)).2

end Invariant

end PatternInference.Refinement
