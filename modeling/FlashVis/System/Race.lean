import FlashVis.Coord.Grants
import FlashVis.System.Steady

/-!
# Race: the bounded lead

Watermarks are derived from stale acks, and older, larger ones may still be on their way.  What
holds through all of it is that every watermark (cached, on a channel, or held by a worker) is at
most `2 · Dmax` past the real position of every session.

* `Sys.played S s`   the position of session `s` in the current epoch;
* `Near b c P l`     the watermark `l` is within `2 b` of every position;
* `Lead b c P`       the invariant;
* `race_bounded_lead`
-/

namespace FlashVis

/-- Events of a Race run over a fixed set of sessions: no manual `step()`, no switch to Pace, no
prep. -/
def Input.racing {n : Nat} (i : Input n) : Bool :=
  i.metered && i.keepsEpoch && match i with
    | .step | .setMode .pace => false
    | _ => true

theorem Input.racing_metered {n : Nat} {i : Input n} (h : i.racing = true) : i.metered = true := by
  unfold racing at h
  simp_all

theorem Input.racing_keepsEpoch {n : Nat} {i : Input n} (h : i.racing = true) :
    i.keepsEpoch = true := by
  unfold racing at h
  simp_all

namespace Lockstep
variable {γ : Type} {n : Nat}

/-- The coordinator of a Race run that began with `reset()`. -/
structure Racing (c : Lockstep γ n) : Prop where
  mode : c.mode = .race
  stepLimit : c.raceStepLimit = none
  baseline : ∀ s, c.baseline s = 0
  scale : 0 ≤ c.scale

theorem Racing.chunk {c : Lockstep γ n} (h : c.Racing) : 0 ≤ c.chunkNs :=
  mul_nonneg h.scale (le_of_lt MS_PER_FRAME_pos)

theorem Racing.frame {G : Churn γ} {c : Lockstep γ n} (h : c.Racing) : (c.frame G).Racing ∧
    ∀ s, (c.frame G).cached s = c.cached s ∨
      ∃ g, (c.frame G).cached s = some g ∧ g.playLimitNs = (c.playLimit s : ℚ) := by
  by_cases hn : n = 0
  · rw [Lockstep.frame, if_pos hn]
    exact ⟨h, fun _ => .inl rfl⟩
  obtain ⟨P, sh, ⟨-, -, hf⟩ | ⟨r, -, hf⟩⟩ := frame_cases (G := G) hn c
  · rw [hf]
    exact ⟨⟨h.mode, h.stepLimit, h.baseline, h.scale⟩, fun _ => .inl rfl⟩
  · obtain ⟨l, rnd, g, -, -, heq⟩ := computeGrants_race (G := G) (c := c.entering r) h.mode
      h.stepLimit r
    rw [hf, heq]
    refine ⟨⟨h.mode, h.stepLimit, h.baseline, h.scale⟩, fun s => .inr ⟨_, rfl, ?_⟩⟩
    rw [entering_playLimit]

end Lockstep

section
variable {σ γ : Type} {n : Nat}

/-- A call in a Race run keeps the grants, or derives them from the acks. -/
theorem call_race (V : World σ γ) {i : Input n} {f : Lockstep γ n → Lockstep γ n}
    (hf : i.call V = some f) (hi : i.racing = true) {c : Lockstep γ n} (h : c.Racing) :
    (f c).Racing ∧ ∀ s, (f c).cached s = c.cached s ∨
      ∃ g, (f c).cached s = some g ∧ g.playLimitNs = (c.playLimit s : ℚ) := by
  have hkeep := Input.racing_keepsEpoch hi
  cases i <;> simp only [Input.call, Option.some.injEq, reduceCtorEq] at hf <;> subst hf
  case frame => exact h.frame
  case setMode m =>
    cases m with
    | race =>
      have hm : c.setMode .race = c := if_pos h.mode.symm
      dsimp only
      rw [hm]
      exact ⟨h, fun _ => .inl rfl⟩
    | pace => exact absurd hi (by simp [Input.racing])
  case setSpeed v =>
    dsimp only
    unfold Lockstep.setSpeed
    split
    · exact ⟨h, fun _ => .inl rfl⟩
    · rename_i hv
      exact ⟨⟨h.mode, h.stepLimit, h.baseline, le_min (not_lt.mp hv) (by norm_num [MAX_SCALE])⟩,
        fun _ => .inl rfl⟩
  case step => exact absurd hi (by simp [Input.racing])
  case reset => exact absurd hkeep (by simp [Input.keepsEpoch])
  case rejoin s => exact absurd hkeep (by simp [Input.keepsEpoch])
  all_goals exact ⟨⟨h.mode, h.stepLimit, h.baseline, h.scale⟩, fun _ => .inl rfl⟩

/-! ## the invariant -/

/-- The watermark `l` is at most `2 b` past the position of every session. -/
def Near (b : ℚ) (c : Lockstep γ n) (P : Fin n → Player) (l : Limit) : Prop :=
  ∀ t, l ≤ ((playbackField.now c.epoch (P t) + 2 * b : ℚ) : Limit)

/-- Every watermark of the run is near, and so is every position. -/
structure Lead (b : ℚ) (c : Lockstep γ n) (P : Fin n → Player) : Prop where
  racing : c.Racing
  steady : ∀ s, Steady c s (P s)
  behind : ∀ s, Behind playbackField c s (P s)
  cached : ∀ s g, c.cached s = some g → Near b c P g.playLimitNs
  sent : ∀ s g, .grant c.epoch g ∈ (c.proxies s).port → Near b c P g.playLimitNs
  live : ∀ s, (P s).epoch = c.epoch → Near b c P (P s).playLimitNs
  lead : ∀ s, Near b c P ((playbackField.now c.epoch (P s) : ℚ) : Limit)

end

namespace Lead
variable {σ γ : Type} {n : Nat} {b : ℚ} {c : Lockstep γ n} {P : Fin n → Player}

theorem acked (h : Lead b c P) (s : Fin n) : 0 ≤ (c.acked s).playbackNs := (h.behind s).low

theorem nonneg (h : Lead b c P) (s : Fin n) : 0 ≤ playbackField.now c.epoch (P s) := by
  unfold AckField.now
  split
  · exact ((h.steady s).now ‹_›).2.2.2
  · exact le_refl _

theorem derived (h : Lead b c P) (hb : c.chunkNs ≤ b) (s : Fin n) :
    Near b c P ((c.playLimit s : ℚ) : Limit) := by
  intro t
  obtain ⟨-, hle, -⟩ := Lockstep.playLimit_race h.racing.mode h.racing.baseline h.racing.chunk
    h.acked s
  have hs : (c.acked s).playbackNs ≤ playbackField.now c.epoch (P s) := (h.behind s).acked
  have ht : (c.acked t).playbackNs ≤ playbackField.now c.epoch (P t) := (h.behind t).acked
  have hst := WithTop.coe_le_coe.mp (h.lead s t)
  refine WithTop.coe_le_coe.mpr (le_trans (hle t) (max_le ?_ ?_)) <;> linarith

theorem call (V : World σ γ) {i : Input n} {f : Lockstep γ n → Lockstep γ n}
    (hf : i.call V = some f) (hi : i.racing = true) (hb : c.chunkNs ≤ b) (h : Lead b c P) :
    Lead b (f c) P := by
  have hk := Input.racing_keepsEpoch hi
  obtain ⟨hrace, hcach⟩ := call_race V hf hi h.racing
  obtain ⟨he, hs⟩ := call_sends V hf hk c
  have hnear : ∀ l, Near b c P l → Near b (f c) P l := by
    intro l hl t
    rw [he]
    exact hl t
  have hcached : ∀ s g, (f c).cached s = some g → Near b (f c) P g.playLimitNs := by
    intro s g hg
    rcases hcach s with hc | ⟨g', hc, hl⟩
    · exact hnear _ (h.cached s g (hc ▸ hg))
    · rw [hc, Option.some.injEq] at hg
      rw [← hg, hl]
      exact hnear _ (h.derived hb s)
  refine ⟨hrace, fun s => (h.steady s).call V hf hk (Input.racing_metered hi),
    fun s => (h.behind s).call V hf hk, hcached, ?_, ?_, ?_⟩
  · intro s g hg
    obtain ⟨ms, hms⟩ := hs s
    rw [hms.proxy, he] at hg
    rcases List.mem_append.mp hg with hg | hg
    · exact hnear _ (h.sent s g hg)
    · exact hcached s g (hms.grants _ g hg)
  · rw [he]
    exact fun s hep => hnear _ (h.live s hep)
  · rw [he]
    exact fun s => hnear _ (h.lead s)

/-- Positions may grow, one at a time. -/
theorem near_mono {s : Fin n} {q : Player} {l : Limit}
    (hup : playbackField.now c.epoch (P s) ≤ playbackField.now c.epoch q) (h : Near b c P l) :
    Near b c (Function.update P s q) l := by
  intro t
  refine le_trans (h t) (WithTop.coe_le_coe.mpr ?_)
  by_cases ht : t = s
  · subst ht
    rw [Function.update_self]
    linarith
  · rw [Function.update_of_ne ht]

theorem receive (h : Lead b c P) (hb : 0 ≤ b) {s : Fin n} {m : C2W} {ms : List C2W}
    (hp : (c.proxies s).port = m :: ms) (ps : Option Nat) :
    Lead b (Sys.onProxy s (·.setPort ms) c) (Function.update P s ((P s).receive ps m)) := by
  have harr := (h.steady s).joined.arrival hp ps
  have hsteady := (h.steady s).receive hp ps
  have hbehind := (h.behind s).receive (h.steady s).joined hp ps
  generalize (P s).receive ps m = q at harr hsteady hbehind ⊢
  have hnow : playbackField.now c.epoch q = playbackField.now c.epoch (P s) := harr.now
  have hnear : ∀ l, Near b c P l →
      Near b (Sys.onProxy s (·.setPort ms) c) (Function.update P s q) l :=
    fun l hl => near_mono (le_of_eq hnow.symm) hl
  have hport : ∀ t m', m' ∈ ((Sys.onProxy s (·.setPort ms) c).proxies t).port →
      m' ∈ (c.proxies t).port := by
    intro t m' hm'
    by_cases ht : t = s
    · subst ht
      rw [Sys.onProxy_same] at hm'
      exact hp ▸ List.mem_cons_of_mem m hm'
    · rwa [Sys.onProxy_ne ht] at hm'
  refine ⟨⟨h.racing.mode, h.racing.stepLimit, h.racing.baseline, h.racing.scale⟩, ?_, ?_,
    fun t g hg => hnear _ (h.cached t g hg), fun t g hg => hnear _ (h.sent t g (hport t _ hg)), ?_, ?_⟩
  · exact (Function.forall_update_iff P fun t p => Steady _ t p).mpr
      ⟨hsteady, fun t ht => (h.steady t).frame ht _⟩
  · exact (Function.forall_update_iff P fun t p => Behind _ _ t p).mpr
      ⟨hbehind, fun t ht => (h.behind t).frame ht _⟩
  · refine (Function.forall_update_iff P fun _ p => p.epoch = c.epoch → Near b _ _ p.playLimitNs).mpr
      ⟨fun hep => hnear _ ?_, fun t _ hep => hnear _ (h.live t hep)⟩
    cases harr with
    | feed es now hm => exact h.live s now
    | grant g now hm => exact h.sent s g (hp ▸ hm ▸ List.mem_cons_self)
    | pull sel now hm => exact h.live s now
    | fresh keep before hm =>
      intro u
      refine WithTop.coe_le_coe.mpr ?_
      have := h.nonneg u
      linarith
    | early q before after hm => exact absurd hep (ne_of_lt after)
  · refine (Function.forall_update_iff P
      fun _ p => Near b _ _ ((playbackField.now c.epoch p : ℚ) : Limit)).mpr
      ⟨hnear _ ?_, fun t _ => hnear _ (h.lead t)⟩
    rw [hnow]
    exact h.lead s

theorem apply (h : Lead b c P) {s : Fin n} {m : Move} (he : (P s).Enabled m)
    (hm : ∀ v, m ≠ .prep v) : Lead b c (Function.update P s ((P s).apply m)) := by
  have hf := Player.apply_frame (P s) m
  have hbound : ∀ hep : (P s).epoch = c.epoch, _ := fun hep => (h.steady s).bounds hep he
  have hup : playbackField.now c.epoch (P s) ≤ playbackField.now c.epoch ((P s).apply m) := by
    unfold AckField.now
    rw [hf.epoch]
    split
    · exact (hbound ‹_›).1
    · exact le_refl _
  have hnear : ∀ l, Near b c P l → Near b c (Function.update P s ((P s).apply m)) l :=
    fun l hl => near_mono hup hl
  refine ⟨h.racing, ?_, ?_, fun t g hg => hnear _ (h.cached t g hg),
    fun t g hg => hnear _ (h.sent t g hg), ?_, ?_⟩
  · exact (Function.forall_update_iff P fun t p => Steady c t p).mpr
      ⟨(h.steady s).apply he hm, fun t _ => h.steady t⟩
  · exact (Function.forall_update_iff P fun t p => Behind _ c t p).mpr
      ⟨(h.behind s).apply he fun hep => (hbound hep).1, fun t _ => h.behind t⟩
  · refine (Function.forall_update_iff P fun _ p => p.epoch = c.epoch → Near b c _ p.playLimitNs).mpr
      ⟨fun hep => hnear _ ?_, fun t _ hep => hnear _ (h.live t hep)⟩
    rw [hf.playLimitNs]
    exact h.live s (hf.epoch ▸ hep)
  · refine (Function.forall_update_iff P
      fun _ p => Near b c _ ((playbackField.now c.epoch p : ℚ) : Limit)).mpr
      ⟨hnear _ ?_, fun t _ => hnear _ (h.lead t)⟩
    have hlead := h.lead s
    unfold AckField.now at hlead ⊢
    rw [hf.epoch]
    split
    · rename_i hep
      rw [if_pos hep] at hlead
      rcases (hbound hep).2 with h2 | h2
      · show Near b c P (((P s).apply m).playbackNs : ℚ)
        rw [h2]
        exact hlead
      · exact fun u => le_trans h2 (h.live s hep u)
    · rwa [if_neg ‹_›] at hlead

theorem back_of (h : Lead b c P) {s : Fin n} {m : W2C} {ms : List W2C} (hp : (P s).port = m :: ms) :
    Lead b (Sys.onProxy s (·.handle m) c) (Function.update P s ((P s).setPort ms)) := by
  have hnow : ∀ t, playbackField.now c.epoch (Function.update P s ((P s).setPort ms) t)
      = playbackField.now c.epoch (P t) := by
    intro t
    by_cases ht : t = s
    · subst ht
      rw [Function.update_self]
      rfl
    · rw [Function.update_of_ne ht]
  have hnear : ∀ l, Near b c P l →
      Near b (Sys.onProxy s (·.handle m) c) (Function.update P s ((P s).setPort ms)) l := by
    intro l hl t
    show l ≤ ((playbackField.now c.epoch (Function.update P s ((P s).setPort ms) t) + 2 * b : ℚ) : Limit)
    rw [hnow]
    exact hl t
  have hport : ∀ t, ((Sys.onProxy s (·.handle m) c).proxies t).port = (c.proxies t).port := by
    intro t
    by_cases ht : t = s
    · subst ht
      rw [Sys.onProxy_same, Proxy.handle_port]
    · rw [Sys.onProxy_ne ht]
  refine ⟨⟨h.racing.mode, h.racing.stepLimit, h.racing.baseline, h.racing.scale⟩, ?_, ?_,
    fun t g hg => hnear _ (h.cached t g hg), ?_, ?_, ?_⟩
  · exact (Function.forall_update_iff P fun t p => Steady _ t p).mpr
      ⟨(h.steady s).back_of hp, fun t ht => (h.steady t).frame ht _⟩
  · exact (Function.forall_update_iff P fun t p => Behind _ _ t p).mpr
      ⟨(h.behind s).back_of (h.steady s).joined hp, fun t ht => (h.behind t).frame ht _⟩
  · intro t g hg
    rw [hport] at hg
    exact hnear _ (h.sent t g hg)
  · exact (Function.forall_update_iff P fun _ p => p.epoch = c.epoch → Near b _ _ p.playLimitNs).mpr
      ⟨fun hep => hnear _ (h.live s hep), fun t _ hep => hnear _ (h.live t hep)⟩
  · intro t
    rw [show (Sys.onProxy s (·.handle m) c).epoch = c.epoch from rfl, hnow]
    exact hnear _ (h.lead t)

theorem step (V : World σ γ) (S : Sys σ γ n) {i : Input n} (hi : i.racing = true)
    (hb : S.c.chunkNs ≤ b) (h : Lead b S.c S.player) :
    Lead b (S.step V i).c (S.step V i).player := by
  have hb0 : 0 ≤ b := le_trans h.racing.chunk hb
  refine Sys.step_rule V S i ?_ ?_ ?_ ?_ h
  · exact fun f hf h => h.call V hf hi hb
  · exact fun s now m ms ps _ hp h => h.receive hb0 hp ps
  · exact fun s now t c P m ht hok hen h =>
      h.apply hen (Steady.not_prep (Input.racing_metered hi) ht hok)
  · exact fun s m ms _ hp h => h.back_of hp

theorem reset (G : Churn γ) (hm : c.mode = .race) (hs : 0 ≤ c.scale)
    (hl : ∀ s, Link c s (P s)) (hb : 0 ≤ b) : Lead b (c.reset G) P := by
  have hzero : ∀ t, playbackField.now (c.reset G).epoch (P t) = 0 := fun t =>
    AckField.now_ne (ne_of_lt (Int.lt_add_one_of_le (hl t).epoch_le))
  have hnear : ∀ l : ℚ, l ≤ 0 → Near b (c.reset G) P l := by
    intro l hle t
    rw [hzero]
    exact WithTop.coe_le_coe.mpr (by linarith)
  refine ⟨⟨hm, rfl, fun _ => rfl, hs⟩, fun s => (hl s).reset_steady G,
    fun s => (hl s).reset_behind _ G, fun s g hg => ?_, fun s g hg => ?_,
    fun s hep => ?_, fun s => ?_⟩
  · exact absurd hg (by simp [Lockstep.reset])
  · rcases List.mem_append.mp hg with hg | hg
    · exact absurd ((hl s).chan.epoch_le _ hg) (not_le.mpr (Int.lt_succ _))
    · exact absurd hg (by simp)
  · exact absurd hep (ne_of_lt (Int.lt_add_one_of_le (hl s).epoch_le))
  · rw [hzero]
    exact hnear 0 (le_refl _)

end Lead

/-! ## the theorem -/

section
variable {σ γ : Type} {n : Nat}

namespace Sys

/-- The position of session `s` in the current epoch: a worker that has not handled its RESET has
played nothing of it. -/
def played (S : Sys σ γ n) (s : Fin n) : ℚ :=
  if (S.w s).epoch = S.c.epoch then (S.w s).playbackNs else 0

end Sys

/-- **Race bounded lead.** Whatever ran before the `reset()`, no session is ever more than two
chunks (of the largest size in force since) past another, and every grant is bounded. -/
theorem race_bounded_lead (V : World σ γ) (churn : γ) (ratio : ℚ) (info : Fin n → String × Geometry)
    (pre post : List (Input n)) (hmode : (Sys.after V churn ratio info pre).c.mode = .race)
    (hpost : ∀ i ∈ post, i.racing = true) :
    let S₀ := (Sys.after V churn ratio info pre).step V .reset
    let S := Machine.run (Sys.step V) S₀ post
    let Dmax := Machine.peak (Sys.step V) (fun S => S.c.chunkNs) S₀ post
    (∀ s t, S.played s - S.played t ≤ 2 * Dmax) ∧
    (∀ r s g, (S.c.computeGrants V.churn r).cached s = some g → S.c.Bounded s g) ∧
    ∀ i : Input n, i.racing = true → ∀ s, (S.step V i).c.cached s = S.c.cached s ∨
      ∃ g, (S.step V i).c.cached s = some g ∧ S.c.Bounded s g := by
  intro S₀ S Dmax
  have hscale : 0 ≤ S₀.c.scale := (Sys.sound V churn ratio info pre).scale
  have hchunk : 0 ≤ S₀.c.chunkNs := mul_nonneg hscale (le_of_lt MS_PER_FRAME_pos)
  have hD : S₀.c.chunkNs ≤ Dmax :=
    Machine.le_peak (Sys.step V) (fun S : Sys σ γ n => S.c.chunkNs) post S₀
  have hstart : Lead Dmax S₀.c S₀.player := Lead.reset V.churn hmode hscale
    (fun s => Link.run V churn ratio info pre s) (le_trans hchunk hD)
  have hinv : Lead Dmax S.c S.player := by
    refine Machine.run_inv (P := fun S : Sys σ γ n => Lead Dmax S.c S.player)
      (G := fun S i => i.racing = true ∧ (S.c.chunkNs ≤ Dmax ∧ (S.step V i).c.chunkNs ≤ Dmax))
      (fun S i hg h => Lead.step V S hg.1 hg.2.1 h) ?_ hstart
    exact (Machine.Along.of_forall hpost S₀).and
      (Machine.along_le_peak _ (fun S : Sys σ γ n => S.c.chunkNs) post S₀ (le_refl _))
  have hbound : ∀ s (g : Grant), g.playLimitNs = (S.c.playLimit s : ℚ) → S.c.Bounded s g := fun s g hg =>
    Lockstep.bounded_race hinv.racing.mode hinv.racing.baseline hinv.racing.chunk hinv.acked s hg
  refine ⟨fun s t => ?_, fun r s g hg => ?_, fun i hi s => ?_⟩
  · have := WithTop.coe_le_coe.mp (hinv.lead s t)
    exact sub_le_iff_le_add'.mpr this
  · obtain ⟨l, rnd, ch, -, -, heq⟩ := Lockstep.computeGrants_race (G := V.churn) hinv.racing.mode
      hinv.racing.stepLimit r
    rw [heq, Option.some.injEq] at hg
    exact hbound s g (hg ▸ rfl)
  · cases hf : i.call V with
    | none =>
      refine .inl ?_
      rw [Sys.step_cached V S hf]
    | some f =>
      rw [Sys.step_call V S hf]
      rcases (call_race V hf hi hinv.racing).2 s with h | ⟨g, h, hl⟩
      · exact .inl h
      · exact .inr ⟨g, h, hbound s g hl⟩

end

/-- What happens before and after the reset: both sessions build in Race, one more grant is on its
way to the slower one. -/
def raced (s t : Fin 2) : List (Input 2) × List (Input 2) :=
  ([.setMode .race, .start, .toWorker s 0, .toWorker t 0, .built s 1 true 0, .built t 1 true 0],
   [.toWorker s 0, .toWorker t 0, .frame, .toWorker s 0, .toWorker t 0, .toWorker s 0, .toWorker t 0,
    .toProxy s, .toProxy t, .frame, .toWorker s 0, .toWorker s 0])

/-- Two sessions of different cost, the second at twice the position of the first. -/
theorem race_bounded_lead_unequal :
    let S₀ := (Sys.after writingWorld () 0 fastAndSlow (raced 0 1).1).step writingWorld .reset
    let S := Machine.run (Sys.step writingWorld) S₀ (raced 0 1).2
    S.played 0 = 94992 ∧ S.played 1 = 189984 ∧ S.played 1 - S.played 0 ≤
      2 * Machine.peak (Sys.step writingWorld) (fun S => S.c.chunkNs) S₀ (raced 0 1).2 :=
  ⟨by decide +kernel, by decide +kernel,
    (race_bounded_lead writingWorld () 0 fastAndSlow (raced 0 1).1 (raced 0 1).2 (by decide +kernel)
      (by decide)).1 1 0⟩

end FlashVis
