import FlashVis.Coord.Grants
import FlashVis.Lib.Emitter
import FlashVis.Churn.History

/-!
# The canonical stream

The coin of the generator and the churn model are one machine that emits an entry a step, whatever
else the coordinator does; every append of generated entries is a run of it.

* `draw G ratio`       one entry from the coin and the model;
* `Grown G c c' l`     `c'` has generated `l` after what `c` had;
* `frame_grown`        what a frame generates, and under which conditions;
* `ChurnModel.driver`  the churn model as the coordinator is given it.
-/

namespace FlashVis

/-- One entry of the stream, from the coin's state and the model. -/
def draw {γ : Type} (G : Churn γ) (ratio : ℚ) (s : UInt32 × γ) : SeqEntry × (UInt32 × γ) :=
  let (r, u) := mulberry32 s.1
  if unitOf u < ratio then (.gc, (r, s.2))
  else
    let (ev, g) := G.next s.2
    let g := match ev.type with
      | .write | .delete => G.apply ev g
      | _ => g
    (.event ev, (r, g))

/-- One seed of the command stream. -/
def drawSeed (s : UInt32) : UInt32 × UInt32 := ((mulberry32 s).2, (mulberry32 s).1)

/-- The generated entries of a sequence. -/
def generatedOf (l : List SeqEntry) : List SeqEntry := l.filter (·.generated)

/-- The seeds of the commands of a sequence. -/
def seedsOf (l : List SeqEntry) : List UInt32 := l.filterMap fun
  | .command _ seed => some seed
  | _ => none

theorem generatedOf_append (l l' : List SeqEntry) :
    generatedOf (l ++ l') = generatedOf l ++ generatedOf l' := List.filter_append _ _

theorem seedsOf_append (l l' : List SeqEntry) : seedsOf (l ++ l') = seedsOf l ++ seedsOf l' :=
  List.filterMap_append

theorem generatedOf_self {l : List SeqEntry} (h : ∀ e ∈ l, e.generated = true) :
    generatedOf l = l := List.filter_eq_self.mpr h

theorem seedsOf_generated {l : List SeqEntry} (h : ∀ e ∈ l, e.generated = true) :
    seedsOf l = [] := by
  refine List.filterMap_eq_nil_iff.mpr fun e he => ?_
  cases e with
  | gc | event _ => rfl
  | command _ _ => exact absurd (h _ he) (by simp [SeqEntry.generated])

theorem draw_generated {γ : Type} (G : Churn γ) (ratio : ℚ) (s : UInt32 × γ) :
    (draw G ratio s).1.generated = true := by
  unfold draw
  generalize mulberry32 s.1 = d
  obtain ⟨r, u⟩ := d
  dsimp only
  split <;> rfl

theorem emits_generated {γ : Type} (G : Churn γ) (ratio : ℚ) (k : Nat) (s : UInt32 × γ) :
    ∀ e ∈ (Machine.emits (draw G ratio) k s).1, e.generated = true := by
  induction k generalizing s with
  | zero => exact fun e he => absurd he (by simp)
  | succ k ih =>
    intro e he
    rcases List.mem_cons.mp he with rfl | he
    · exact draw_generated G ratio s
    · exact ih _ e he

namespace Lockstep
variable {γ : Type} {n : Nat} {G : Churn γ} {c c' c'' : Lockstep γ n} {l l' : List SeqEntry}

/-- `c'` has generated `l` after what `c` had; no command was added. -/
structure Grown (G : Churn γ) (c c' : Lockstep γ n) (l : List SeqEntry) : Prop where
  sequence : c'.sequence = c.sequence ++ l
  emitted : (l, (c'.rnd, c'.churn)) = Machine.emits (draw G c.ratio) l.length (c.rnd, c.churn)
  ratio : c'.ratio = c.ratio
  cmdRng : c'.cmdRng = c.cmdRng

namespace Grown

theorem of_same (hs : c'.sequence = c.sequence) (hr : c'.rnd = c.rnd) (hg : c'.churn = c.churn)
    (hq : c'.ratio = c.ratio) (hc : c'.cmdRng = c.cmdRng) : Grown G c c' [] :=
  ⟨by rw [hs, List.append_nil], by rw [hr, hg]; rfl, hq, hc⟩

theorem congr_right (h : Grown G c c' l) (hs : c''.sequence = c'.sequence) (hr : c''.rnd = c'.rnd)
    (hg : c''.churn = c'.churn) (hq : c''.ratio = c'.ratio) (hc : c''.cmdRng = c'.cmdRng) :
    Grown G c c'' l :=
  ⟨hs.trans h.sequence, by rw [hr, hg]; exact h.emitted, hq.trans h.ratio, hc.trans h.cmdRng⟩

theorem congr_left (h : Grown G c c' l) (hs : c.sequence = c''.sequence) (hr : c.rnd = c''.rnd)
    (hg : c.churn = c''.churn) (hq : c.ratio = c''.ratio) (hc : c.cmdRng = c''.cmdRng) :
    Grown G c'' c' l :=
  ⟨by rw [← hs]; exact h.sequence, by rw [← hr, ← hg, ← hq]; exact h.emitted, h.ratio.trans hq,
    h.cmdRng.trans hc⟩

theorem trans (h : Grown G c c' l) (h' : Grown G c' c'' l') : Grown G c c'' (l ++ l') := by
  have he := h.emitted
  have he' := h'.emitted
  refine ⟨by rw [h'.sequence, h.sequence, List.append_assoc], ?_, h'.ratio.trans h.ratio,
    h'.cmdRng.trans h.cmdRng⟩
  rw [h.ratio] at he'
  rw [List.length_append, Machine.emits_add, ← he]
  dsimp only
  rw [← he']

theorem generated (h : Grown G c c' l) : ∀ e ∈ l, e.generated = true := by
  have hl : l = (Machine.emits (draw G c.ratio) l.length (c.rnd, c.churn)).1 :=
    congrArg Prod.fst h.emitted
  rw [hl]
  exact emits_generated _ _ _ _

end Grown

theorem genStep_draw (c : Lockstep γ n) : c.genStep G = ((draw G c.ratio (c.rnd, c.churn)).1,
    { c with rnd := (draw G c.ratio (c.rnd, c.churn)).2.1
             churn := (draw G c.ratio (c.rnd, c.churn)).2.2 }) := by
  unfold genStep draw
  generalize mulberry32 c.rnd = d
  obtain ⟨r, u⟩ := d
  dsimp only
  split <;> rfl

theorem extend_grown (c : Lockstep γ n) :
    Grown G c (c.extend G) [(draw G c.ratio (c.rnd, c.churn)).1] := by
  have key : ∀ d, c.genStep G = (d.1, { c with rnd := d.2.1, churn := d.2.2 }) →
      draw G c.ratio (c.rnd, c.churn) = d → Grown G c (c.extend G) [d.1] := by
    intro d h hd
    unfold extend
    rw [h]
    exact ⟨rfl, by rw [List.length_singleton, Machine.emits_one, hd], rfl, rfl⟩
  exact key _ (genStep_draw c) rfl

theorem generate_grown (k : Nat) (c : Lockstep γ n) :
    ∃ l, Grown G c (c.generate G k) l ∧ l.length = k := by
  induction k generalizing c with
  | zero =>
    rw [generate, Function.iterate_zero, id]
    exact ⟨[], .of_same rfl rfl rfl rfl rfl, rfl⟩
  | succ k ih =>
    have hone := extend_grown (G := G) c
    have hsucc : c.generate G (k + 1) = (c.extend G).generate G k := by
      rw [generate, generate, Function.iterate_succ_apply]
    rw [hsucc]
    generalize c.extend G = c₁ at hone
    obtain ⟨l, hl, hk⟩ := ih c₁
    refine ⟨_, hone.trans hl, ?_⟩
    rw [List.length_append, hk, List.length_singleton, Nat.add_comm]

theorem ensure_grown (len : Nat) (c : Lockstep γ n) :
    ∃ l, Grown G c (c.ensure G len) l ∧ l.length = len - c.sequence.length := generate_grown _ c

/-- What an append of generated entries is bounded by: the index `top` is the last one it fills. -/
def FillsTo (top : Nat) (c : Lockstep γ n) (l : List SeqEntry) : Prop :=
  l ≠ [] → c.sequence.length + l.length = top + 1

theorem ensure_fills (top : Nat) (c : Lockstep γ n) :
    ∃ l, Grown G c (c.ensure G (top + 1)) l ∧ FillsTo top c l := by
  obtain ⟨l, hl, hk⟩ := ensure_grown (G := G) (top + 1) c
  refine ⟨l, hl, fun hne => ?_⟩
  have := List.length_pos_iff.mpr hne
  omega

/-- What deriving grants generates: nothing unless the generator runs or was nudged, and one entry
at the furthest cursor or at the shared index at most. -/
structure Prepared (G : Churn γ) (c c' : Lockstep γ n) (l : List SeqEntry) (k : Nat) : Prop where
  grown : Grown G c c' l
  shared : c'.sharedIndex = c.sharedIndex + k
  passed : ∀ j < k, ∀ s, ((c.sharedIndex + j : Nat) : Int) ≤ (c.acked s).entriesDrained
  gate : l ≠ [] → c.running = true ∨ c.forceProduce = true
  fills : FillsTo c.maxCursor c l ∨ FillsTo (c.sharedIndex + k) c l
  force : c'.forceProduce = true → c.forceProduce = true ∧ c.mode = .race

theorem prepareGrants_prepared (c : Lockstep γ n) :
    ∃ l k, Prepared G c (c.prepareGrants G) l k := by
  unfold prepareGrants
  cases hm : c.mode with
  | race =>
    dsimp only
    unfold raceFrontier
    by_cases hr : c.running = true
    · obtain ⟨l, hl, hf⟩ := ensure_fills (G := G) c.maxCursor c
      obtain ⟨x, r, g, -, -, he⟩ := ensure_eq (G := G) (c.maxCursor + 1) c
      have hshared : (c.ensure G (c.maxCursor + 1)).sharedIndex = c.sharedIndex ∧
          (c.ensure G (c.maxCursor + 1)).forceProduce = c.forceProduce := by
        rw [he]
        exact ⟨rfl, rfl⟩
      rw [if_pos hr]
      exact ⟨l, 0, hl.congr_right rfl rfl rfl rfl rfl, hshared.1, fun j hj => absurd hj (by simp),
        fun _ => .inl hr, .inl hf, fun h => ⟨hshared.2.symm.trans h, hm⟩⟩
    · rw [if_neg hr]
      exact ⟨[], 0, .of_same rfl rfl rfl rfl rfl, rfl, fun j hj => absurd hj (by simp),
        fun h => absurd rfl h, .inl fun h => absurd rfl h, fun h => ⟨h, hm⟩⟩
  | pace =>
    dsimp only
    obtain ⟨k, -, heq, -, hle, -⟩ := advanceLoop_eq c.advanceFuel c
    unfold paceAdvance
    rw [heq]
    dsimp only
    by_cases hgate : (((c.passed k).running || (c.passed k).forceProduce)
        && decide ((c.passed k).sequence.length ≤ (c.passed k).sharedIndex)) = true
    · obtain ⟨l, hl, hf⟩ := ensure_fills (G := G) (c.passed k).sharedIndex (c.passed k)
      obtain ⟨x, r, g, -, -, he⟩ := ensure_eq (G := G) ((c.passed k).sharedIndex + 1) (c.passed k)
      have hl' : Grown G c ((c.passed k).ensure G ((c.passed k).sharedIndex + 1)) l :=
        hl.congr_left rfl rfl rfl rfl rfl
      rw [if_pos hgate]
      refine ⟨l, k, hl'.congr_right rfl rfl rfl rfl rfl, ?_, hle, fun _ => ?_, .inr hf,
        fun h => absurd h (by simp)⟩
      · rw [he]
        rfl
      · simp only [Bool.and_eq_true, Bool.or_eq_true] at hgate
        exact hgate.1
    · rw [if_neg hgate]
      exact ⟨[], k, .of_same rfl rfl rfl rfl rfl, rfl, hle, fun h => absurd rfl h,
        .inr fun h => absurd rfl h, fun h => absurd h (by simp)⟩

theorem frame_grown (c : Lockstep γ n) : ∃ l k, Grown G c (c.frame G) l ∧
    (c.frame G).sharedIndex = c.sharedIndex + k ∧
    (∀ j < k, ∀ s, ((c.sharedIndex + j : Nat) : Int) ≤ (c.acked s).entriesDrained) ∧
    (l ≠ [] → c.running = true ∨ c.forceProduce = true) ∧
    (FillsTo c.maxCursor c l ∨ FillsTo (c.sharedIndex + k) c l) ∧
    ((c.frame G).forceProduce = true → c.forceProduce = true ∧
      (n = 0 ∨ c.round ≤ c.lastComputedRound ∨ c.mode = .race)) := by
  by_cases hn : n = 0
  · rw [frame, if_pos hn]
    exact ⟨[], 0, .of_same rfl rfl rfl rfl rfl, rfl, fun j hj => absurd hj (by simp),
      fun h => absurd rfl h, .inl fun h => absurd rfl h, fun h => ⟨h, .inl hn⟩⟩
  obtain ⟨P, sh, ⟨hle, -, hf⟩ | ⟨r, -, hf⟩⟩ := frame_cases (G := G) hn c
  · rw [hf]
    exact ⟨[], 0, .of_same rfl rfl rfl rfl rfl, rfl, fun j hj => absurd hj (by simp),
      fun h => absurd rfl h, .inl fun h => absurd rfl h, fun h => ⟨h, .inr (.inl hle)⟩⟩
  · obtain ⟨l, k, hp⟩ := prepareGrants_prepared (G := G) (c.entering r)
    have hmax : (c.entering r).maxCursor = c.maxCursor := by
      unfold maxCursor
      simp only [entering_acked]
    have hg : Grown G c ((c.entering r).prepareGrants G) l :=
      hp.grown.congr_left rfl rfl rfl rfl rfl
    rw [hf]
    refine ⟨l, k, hg.congr_right rfl rfl rfl rfl rfl, hp.shared, fun j hj s => ?_, hp.gate, ?_,
      fun h => ?_⟩
    · rw [← entering_acked r c s]
      exact hp.passed j hj s
    · rw [← hmax]
      exact hp.fills
    · obtain ⟨h1, h2⟩ := hp.force h
      exact ⟨h1, .inr (.inr h2)⟩

end Lockstep

/-- The churn model as the coordinator is given it. -/
def ChurnModel.driver : Churn ChurnModel where
  next := ChurnModel.next
  apply := ChurnModel.apply
  reset := ChurnModel.reset

end FlashVis
