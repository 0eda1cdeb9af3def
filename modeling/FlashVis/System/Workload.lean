import FlashVis.Coord.Stream
import FlashVis.System.Truthful

/-!
# The automatic workload

Generated entries come from one seeded stream, commands draw their seeds from another, and both
depend on nothing else.

* `Canonical o ratio c`   the generated entries and the seeds are the beginnings of their streams;
* `Ahead c`               at most one generated entry lies at or past the furthest acked cursor;
* `call_workload`         what one call does to both, and when it generates;
* `Net`                   the system with a session set that changes;
* `canonical_workload`
-/

namespace FlashVis

open ChurnModel (driver create)

/-! ## the streams -/

/-- One draw advances the churn model by a turn, or not at all. -/
theorem draw_driver (ratio : ℚ) (s : UInt32 × ChurnModel) :
    (draw driver ratio s).2.2 = s.2 ∨ (draw driver ratio s).2.2 = s.2.turn.2 := by
  unfold draw
  generalize mulberry32 s.1 = d
  obtain ⟨r, u⟩ := d
  dsimp only
  split
  · exact .inl rfl
  · refine .inr ?_
    unfold ChurnModel.turn
    dsimp only [driver]
    cases (s.2.next).1.type <;> rfl

theorem emits_opts (o : ChurnOptions) (ratio : ℚ) (k : Nat) :
    (Machine.emits (draw driver ratio) k (GEN_SEED, create o)).2.2.opts = o := by
  refine (Machine.emits_inv (P := fun s : UInt32 × ChurnModel => s.2.Sane ∧ s.2.opts = o) ?_ k
    ⟨ChurnModel.Sane.create o, rfl⟩).2
  rintro s ⟨hs, ho⟩
  rcases draw_driver ratio s with h | h <;> rw [h]
  · exact ⟨hs, ho⟩
  · have ht := ChurnModel.turn_cases hs
    exact ⟨ht.sane hs, ht.opts.trans ho⟩

variable {σ γ : Type} {n : Nat}

/-- The generated entries and the seeds of the commands begin their streams. -/
structure Canonical (o : ChurnOptions) (ratio : ℚ) (c : Lockstep ChurnModel n) : Prop where
  constant : c.ratio = ratio
  stream : ∃ k, (generatedOf c.sequence, (c.rnd, c.churn))
    = Machine.emits (draw driver ratio) k (GEN_SEED, create o)
  seeds : ∃ k, (seedsOf c.sequence, c.cmdRng) = Machine.emits drawSeed k CMD_SEED

namespace Canonical
variable {o : ChurnOptions} {ratio : ℚ} {c c' : Lockstep ChurnModel n}

theorem congr (h : Canonical o ratio c) {m : Nat} {c' : Lockstep ChurnModel m}
    (hq : c'.ratio = c.ratio) (hs : c'.sequence = c.sequence) (hr : c'.rnd = c.rnd)
    (hg : c'.churn = c.churn) (hc : c'.cmdRng = c.cmdRng) : Canonical o ratio c' := by
  refine ⟨hq.trans h.constant, ?_, ?_⟩
  · rw [hs, hr, hg]
    exact h.stream
  · rw [hs, hc]
    exact h.seeds

theorem grown (h : Canonical o ratio c) {l : List SeqEntry}
    (hg : Lockstep.Grown driver c c' l) : Canonical o ratio c' := by
  obtain ⟨k, hk⟩ := h.stream
  refine ⟨hg.ratio.trans h.constant, ⟨k + l.length, ?_⟩, ?_⟩
  · have he := hg.emitted
    rw [h.constant] at he
    rw [hg.sequence, generatedOf_append, generatedOf_self hg.generated, Machine.emits_add, ← hk]
    dsimp only
    rw [← he]
  · rw [hg.sequence, hg.cmdRng, seedsOf_append, seedsOf_generated hg.generated, List.append_nil]
    exact h.seeds

theorem broadcast (h : Canonical o ratio c) (payload : Payload) :
    Canonical o ratio (c.broadcast payload) := by
  obtain ⟨k, hk⟩ := h.seeds
  have hseq : (c.broadcast payload).sequence
      = c.sequence ++ [.command payload (drawSeed c.cmdRng).1] := rfl
  refine ⟨h.constant, ?_, k + 1, ?_⟩
  · rw [hseq, generatedOf_append, show generatedOf [SeqEntry.command payload _] = [] from rfl,
      List.append_nil]
    exact h.stream
  · rw [hseq, seedsOf_append, Machine.emits_succ, ← hk]
    rfl

theorem create (o : ChurnOptions) (ratio : ℚ) (info : Fin n → String × Geometry) :
    Canonical o ratio (Lockstep.create (ChurnModel.create o) ratio info) :=
  ⟨rfl, ⟨0, rfl⟩, ⟨0, rfl⟩⟩

theorem reset (h : Canonical o ratio c) : Canonical o ratio (c.reset driver) := by
  obtain ⟨k, hk⟩ := h.stream
  have ho : c.churn.opts = o := by
    have := emits_opts o ratio k
    rwa [← hk] at this
  refine ⟨h.constant, ⟨0, ?_⟩, ⟨0, rfl⟩⟩
  show (([] : List SeqEntry), (GEN_SEED, ChurnModel.create c.churn.opts)) = _
  rw [ho]
  rfl

end Canonical

/-! ## how far generation goes -/

/-- Generation is at most one entry past the furthest acked cursor. -/
structure Ahead (c : Lockstep γ n) : Prop where
  cursor : c.maxCursor ≤ c.sequence.length
  shared : c.sharedIndex ≤ c.maxCursor
  one : (generatedOf (c.sequence.drop c.maxCursor)).length ≤ 1

namespace Ahead
variable {G : Churn γ} {c c' : Lockstep γ n} {l : List SeqEntry}

/-- An append that fills up to an index not past the furthest cursor is one entry at the end. -/
theorem fills (h : Ahead c) {top : Nat} (ht : top ≤ c.maxCursor)
    (hf : Lockstep.FillsTo top c l) (hl : l ≠ []) :
    l.length = 1 ∧ c.sequence.length = c.maxCursor := by
  have h1 := hf hl
  have h2 := List.length_pos_iff.mpr hl
  have h3 := h.cursor
  omega

theorem grown (h : Ahead c) (hg : Lockstep.Grown G c c' l) {top : Nat} (ht : top ≤ c.maxCursor)
    (hf : Lockstep.FillsTo top c l) (hm : c'.maxCursor = c.maxCursor)
    (hs : c'.sharedIndex ≤ c.maxCursor) :
    Ahead c' ∧ (generatedOf c'.sequence).length ≤ (generatedOf c.sequence).length + 1 := by
  have hseq := hg.sequence
  have hlen : (generatedOf c'.sequence).length = (generatedOf c.sequence).length + l.length := by
    rw [hseq, generatedOf_append, generatedOf_self hg.generated, List.length_append]
  by_cases hl : l = []
  · rw [hl, List.append_nil] at hseq
    refine ⟨⟨by rw [hm, hseq]; exact h.cursor, by rw [hm]; exact hs, by rw [hm, hseq]; exact h.one⟩, ?_⟩
    rw [hseq]
    exact Nat.le_succ _
  · obtain ⟨h1, h2⟩ := h.fills ht hf hl
    refine ⟨⟨?_, by rw [hm]; exact hs, ?_⟩, by omega⟩
    · rw [hm, hseq, List.length_append]
      exact le_trans h.cursor (Nat.le_add_right _ _)
    · rw [hm, hseq, ← h2, List.drop_left, generatedOf_self hg.generated]
      exact le_of_eq h1

theorem later (h : Ahead c) (hs : c'.sequence = c.sequence) (hi : c'.sharedIndex ≤ c'.maxCursor)
    (hm : c.maxCursor ≤ c'.maxCursor) (hc : c'.maxCursor ≤ c.sequence.length) : Ahead c' := by
  refine ⟨hs ▸ hc, hi, le_trans ?_ h.one⟩
  rw [hs, ← Nat.add_sub_cancel' hm, ← List.drop_drop]
  exact ((List.drop_sublist _ _).filter _).length_le

/-- A frame passes shared steps that every session has drained, so the shared index stays behind
the furthest cursor. -/
theorem frame (h : Ahead c) (hd : ∀ s, (c.acked s).entriesDrained < (c.acked s).cursor)
    (hn : n ≠ 0) : Ahead (c.frame G) ∧
      (generatedOf (c.frame G).sequence).length ≤ (generatedOf c.sequence).length + 1 := by
  obtain ⟨l, k, hg, hs, hp, -, hf, -⟩ := Lockstep.frame_grown (G := G) c
  have hm : (c.frame G).maxCursor = c.maxCursor := Lockstep.maxCursor_congr fun s => by
    unfold Lockstep.acked
    rw [Lockstep.frame_proxies hn, Proxy.sendAll_acked]
  have htop : c.sharedIndex + k ≤ c.maxCursor := by
    cases k with
    | zero => exact h.shared
    | succ k =>
      have h1 := hp k (Nat.lt_succ_self k) ⟨0, Nat.pos_of_ne_zero hn⟩
      have h2 := hd ⟨0, Nat.pos_of_ne_zero hn⟩
      have h3 := Lockstep.cursor_le_max c ⟨0, Nat.pos_of_ne_zero hn⟩
      omega
  rcases hf with hf | hf
  · exact h.grown hg (le_refl _) hf hm (hs ▸ htop)
  · exact h.grown hg htop hf hm (hs ▸ htop)

end Ahead

/-! ## calls -/

/-- The nudge of a manual `step()`: Pace remembers it, Race generates one entry past the furthest
cursor if there is none. -/
theorem nudged_grown (G : Churn γ) (c : Lockstep γ n) : ∃ l,
    Lockstep.Grown G c (c.nudged G) l ∧ Lockstep.FillsTo c.maxCursor c l ∧
      (c.nudged G).proxies = c.proxies ∧ (c.nudged G).sharedIndex = c.sharedIndex ∧
      (c.nudged G).running = c.running ∧ (c.nudged G).round = c.round ∧
      (c.nudged G).mode = c.mode ∧ (c.nudged G).lastComputedRound = -1 ∧
      (c.mode = .pace → l = []) ∧ (c.mode = .race → (c.nudged G).forceProduce = c.forceProduce) := by
  unfold Lockstep.nudged
  cases hm : c.mode with
  | pace =>
    exact ⟨[], .of_same rfl rfl rfl rfl rfl, fun h => absurd rfl h, rfl, rfl, rfl, rfl, rfl, rfl,
      fun _ => rfl, fun h => absurd h (by decide)⟩
  | race =>
    obtain ⟨l, hl, hf⟩ := Lockstep.ensure_fills (G := G) c.maxCursor c
    obtain ⟨x, r, g, -, -, he⟩ := Lockstep.ensure_eq (G := G) (c.maxCursor + 1) c
    have hsame : (c.ensure G (c.maxCursor + 1)).proxies = c.proxies ∧
        (c.ensure G (c.maxCursor + 1)).sharedIndex = c.sharedIndex ∧
        (c.ensure G (c.maxCursor + 1)).running = c.running ∧
        (c.ensure G (c.maxCursor + 1)).round = c.round ∧
        (c.ensure G (c.maxCursor + 1)).mode = c.mode ∧
        (c.ensure G (c.maxCursor + 1)).forceProduce = c.forceProduce := by
      rw [he]
      exact ⟨rfl, rfl, rfl, rfl, rfl, rfl⟩
    obtain ⟨h1, h2, h3, h4, h5, h6⟩ := hsame
    exact ⟨l, hl.congr_right rfl rfl rfl rfl rfl, hf, h1, h2, h3, h4, h5.trans hm, rfl,
      fun h => absurd h (by decide), fun _ => h6⟩

/-- Whether an event is a manual `step()`. -/
def Input.steps {n : Nat} : Input n → Nat
  | .step => 1
  | _ => 0

/-- What holds of the coordinator's generation: it is never far ahead, and a Pace nudge is over
once `step()` is called. -/
structure Driven (o : ChurnOptions) (ratio : ℚ) (c : Lockstep ChurnModel n) : Prop where
  canonical : Canonical o ratio c
  ahead : Ahead c
  sound : c.Sound
  force : n ≠ 0 → c.forceProduce = false

theorem Canonical.driven {o : ChurnOptions} {ratio : ℚ} {c : Lockstep ChurnModel n}
    (h : Canonical o ratio c) (hs : 0 ≤ c.scale) : Driven o ratio (c.reset driver) := by
  have hzero : (c.reset driver).maxCursor = 0 :=
    Nat.le_zero.mp (Lockstep.maxCursor_le.mpr fun _ => le_refl _)
  refine ⟨h.reset, ⟨?_, Nat.zero_le _, ?_⟩, ⟨hs, le_refl _, fun _ => rfl⟩, fun _ => rfl⟩
  · rw [hzero]
    exact Nat.zero_le _
  · simp [Lockstep.reset, generatedOf]

/-- **A call of the coordinator**: the streams go on, never far ahead, and with the generator
stopped only a `step()` generates, one entry. -/
theorem call_workload {o : ChurnOptions} {ratio : ℚ} {H : Host σ} {i : Input n}
    {f : Lockstep ChurnModel n → Lockstep ChurnModel n} (hf : i.call ⟨H, driver⟩ = some f)
    (hr : ∀ v, i ≠ .setGcRatio v) {c : Lockstep ChurnModel n} (h : Driven o ratio c)
    (hd : ∀ s, (c.acked s).entriesDrained < (c.acked s).cursor) :
    Driven o ratio (f c) ∧ (c.running = false →
      (generatedOf (f c).sequence).length ≤ (generatedOf c.sequence).length + i.steps) := by
  have hsound := call_sound _ hf h.sound
  -- a call that leaves the sequence, its generators and the acks alone
  have idle : (f c).ratio = c.ratio → (f c).sequence = c.sequence → (f c).rnd = c.rnd →
      (f c).churn = c.churn → (f c).cmdRng = c.cmdRng → (∀ s, (f c).acked s = c.acked s) →
      (f c).sharedIndex ≤ c.maxCursor → (f c).forceProduce = c.forceProduce →
      Driven o ratio (f c) ∧ (c.running = false →
        (generatedOf (f c).sequence).length ≤ (generatedOf c.sequence).length + i.steps) := by
    intro h1 h2 h3 h4 h5 h6 h7 h8
    have hm := Lockstep.maxCursor_congr h6
    refine ⟨⟨h.canonical.congr h1 h2 h3 h4 h5, h.ahead.later h2 (hm.symm ▸ h7) (le_of_eq hm.symm)
      (hm.symm ▸ h.ahead.cursor), hsound, h8 ▸ h.force⟩, fun _ => ?_⟩
    rw [h2]
    exact Nat.le_add_right _ _
  cases i <;> simp only [Input.call, Option.some.injEq, reduceCtorEq] at hf <;> subst hf
  case frame =>
    obtain ⟨l, k, hg, -, -, hgate, -, hforce⟩ := Lockstep.frame_grown (G := driver) c
    by_cases hn : n = 0
    · have hsame : c.frame driver = c := if_pos hn
      dsimp only
      rw [hsame]
      exact ⟨h, fun _ => Nat.le_add_right _ _⟩
    refine ⟨⟨h.canonical.grown hg, (h.ahead.frame hd hn).1, hsound, fun hn => ?_⟩, fun hrun => ?_⟩
    · by_contra hc
      rw [Bool.not_eq_false] at hc
      exact absurd (h.force hn) (by rw [(hforce hc).1]; decide)
    · have hl : l = [] := by
        by_contra hl
        rcases hgate hl with hx | hx
        · exact absurd hrun (by rw [hx]; decide)
        · exact absurd (h.force hn) (by rw [hx]; decide)
      rw [hg.sequence, hl, List.append_nil]
      exact Nat.le_add_right _ _
  case broadcast payload =>
    have hack := call_acked (σ := σ) ⟨H, driver⟩ (i := .broadcast payload) rfl rfl c
    have hm := Lockstep.maxCursor_congr hack
    have hseq : (c.broadcast payload).sequence
        = c.sequence ++ [.command payload (drawSeed c.cmdRng).1] := rfl
    have hgen : ∀ l u, generatedOf (l ++ [SeqEntry.command payload u]) = generatedOf l := by
      intro l u
      rw [generatedOf_append]
      exact List.append_nil _
    refine ⟨⟨h.canonical.broadcast payload, ⟨?_, ?_, ?_⟩, hsound, h.force⟩, fun _ => ?_⟩
    · dsimp only at hm ⊢
      rw [hm, hseq, List.length_append]
      exact le_trans h.ahead.cursor (Nat.le_add_right _ _)
    · dsimp only at hm ⊢
      rw [hm]
      exact h.ahead.shared
    · dsimp only at hm ⊢
      rw [hm, hseq, List.drop_append_of_le_length h.ahead.cursor, hgen]
      exact h.ahead.one
    · dsimp only
      rw [hseq, hgen]
      exact Nat.le_add_right _ _
  case setMode m =>
    have hack := call_acked (σ := σ) ⟨H, driver⟩ (i := .setMode m) rfl rfl c
    have hset : (c.setMode m).ratio = c.ratio ∧ (c.setMode m).sequence = c.sequence ∧
        (c.setMode m).rnd = c.rnd ∧ (c.setMode m).churn = c.churn ∧
        (c.setMode m).cmdRng = c.cmdRng ∧ (c.setMode m).sharedIndex ≤ c.maxCursor ∧
        (c.setMode m).forceProduce = c.forceProduce := by
      have hmin : ∀ (l : List Nat) (b : Nat), (∀ x ∈ l, x ≤ b) → l.min?.getD 0 ≤ b := by
        intro l b hb
        cases hm : l.min? with
        | none => exact Nat.zero_le _
        | some x => exact hb x (List.min?_mem hm)
      unfold Lockstep.setMode
      split
      · exact ⟨rfl, rfl, rfl, rfl, rfl, h.ahead.shared, rfl⟩
      · cases m with
        | race => exact ⟨rfl, rfl, rfl, rfl, rfl, h.ahead.shared, rfl⟩
        | pace =>
          refine ⟨rfl, rfl, rfl, rfl, rfl, hmin _ _ fun x hx => ?_, rfl⟩
          obtain ⟨s, -, rfl⟩ := List.mem_map.mp hx
          exact Lockstep.cursor_le_max c s
    obtain ⟨h1, h2, h3, h4, h5, h6, h7⟩ := hset
    exact idle h1 h2 h3 h4 h5 hack h6 h7
  case setSpeed v =>
    have hack := call_acked (σ := σ) ⟨H, driver⟩ (i := .setSpeed v) rfl rfl c
    have hset : ∃ sc lr, c.setSpeed v = { c with scale := sc, lastComputedRound := lr } := by
      unfold Lockstep.setSpeed
      split
      · exact ⟨_, _, rfl⟩
      · exact ⟨_, _, rfl⟩
    obtain ⟨sc, lr, hs⟩ := hset
    refine idle ?_ ?_ ?_ ?_ ?_ hack ?_ ?_ <;> dsimp only <;> rw [hs]
    exact h.ahead.shared
  case setGcRatio v => exact absurd rfl (hr v)
  case step =>
    obtain ⟨l, hg, hfill, hprox, hshared, hrun, hround, hmode, hlast, hpace, hrace⟩ :=
      nudged_grown driver c
    have hack : ∀ s, (c.nudged driver).acked s = c.acked s := Lockstep.acked_congr hprox
    have hm := Lockstep.maxCursor_congr hack
    obtain ⟨hahead, hlen⟩ := h.ahead.grown hg (le_refl _) hfill hm (hshared ▸ h.ahead.shared)
    have hcan := h.canonical.grown hg
    by_cases hn : n = 0
    · have hsame : (c.nudged driver).frame driver = c.nudged driver := if_pos hn
      refine ⟨⟨?_, ?_, hsound, fun h => absurd hn h⟩, fun _ => ?_⟩
      · show Canonical o ratio ((c.nudged driver).frame driver)
        rw [hsame]
        exact hcan
      · show Ahead ((c.nudged driver).frame driver)
        rw [hsame]
        exact hahead
      · show (generatedOf ((c.nudged driver).frame driver).sequence).length ≤ _
        rw [hsame]
        exact hlen
    have hd' : ∀ s, ((c.nudged driver).acked s).entriesDrained
        < ((c.nudged driver).acked s).cursor := fun s => by rw [hack]; exact hd s
    obtain ⟨l', k, hg', -, -, hgate, -, hforce⟩ := Lockstep.frame_grown (G := driver) (c.nudged driver)
    obtain ⟨hahead', hlen'⟩ := hahead.frame (G := driver) hd' hn
    refine ⟨⟨hcan.grown hg', hahead', hsound, fun hn => ?_⟩, fun hstop => ?_⟩
    · by_contra hc
      rw [Bool.not_eq_false] at hc
      obtain ⟨h1, h2⟩ := hforce hc
      rw [hround, hlast, hmode] at h2
      rcases h2 with h2 | h2 | h2
      · exact hn h2
      · exact absurd h.sound.round (by omega)
      · rw [hrace h2, h.force hn] at h1
        exact absurd h1 (by decide)
    · show (generatedOf ((c.nudged driver).frame driver).sequence).length ≤ _ + 1
      cases hmd : c.mode with
      | pace =>
        have hseq := hg.sequence
        rw [hpace hmd, List.append_nil] at hseq
        rw [hseq] at hlen'
        exact hlen'
      | race =>
        have hl : l' = [] := by
          by_contra hl
          rcases hgate hl with hx | hx
          · exact absurd hstop (by rw [← hrun, hx]; decide)
          · exact absurd (h.force hn) (by rw [← hrace hmd, hx]; decide)
        rw [hg'.sequence, hl, List.append_nil]
        exact hlen
  case reset => exact ⟨h.canonical.driven h.sound.scale, fun _ => Nat.zero_le _⟩
  case rejoin s =>
    refine idle rfl rfl rfl rfl rfl (fun t => ?_) h.ahead.shared rfl
    by_cases hst : t = s
    · subst hst
      simp only [Lockstep.acked, Lockstep.rejoin, Function.update_self]
      rfl
    · simp only [Lockstep.acked, Lockstep.rejoin, Function.update_of_ne hst]
  case pull s sel =>
    have hack := call_acked (σ := σ) ⟨H, driver⟩ (i := .pull s sel) rfl rfl c
    exact idle rfl rfl rfl rfl rfl hack h.ahead.shared rfl
  all_goals exact idle rfl rfl rfl rfl rfl (fun _ => rfl) h.ahead.shared rfl

/-! ## events and runs -/

/-- Away from the calls an ack may be merged, and nothing else changes. -/
theorem idle_acked (V : World σ γ) (S : Sys σ γ n) {i : Input n} (hf : i.call V = none)
    (s : Fin n) : (S.c.acked s).cursor ≤ ((S.step V i).c.acked s).cursor := by
  have hone : ∀ t f, (∀ p : Proxy, p.acked.cursor ≤ (f p).acked.cursor) →
      (S.c.acked s).cursor ≤ ((Sys.onProxy t f S.c).acked s).cursor := by
    intro t f hp
    unfold Lockstep.acked
    by_cases hst : s = t
    · subst hst
      rw [Sys.onProxy_same]
      exact hp _
    · rw [Sys.onProxy_ne hst]
  cases i with
  | toWorker u now =>
    show _ ≤ ((S.toWorker V u now).c.acked s).cursor
    unfold Sys.toWorker
    split
    · exact le_refl _
    · rename_i m ms _
      exact hone u (fun p => { p with port := ms }) fun _ => le_refl _
  | toProxy u =>
    show _ ≤ ((S.toProxy u).c.acked s).cursor
    unfold Sys.toProxy
    split
    · exact le_refl _
    · refine hone u _ fun p => ?_
      unfold Proxy.handle
      split
      · exact le_refl _
      · split
        · exact le_max_left _ _
        · exact le_refl _
        · exact le_refl _
  | built _ _ _ _ | telemetry _ _ | cmd _ _ _ _ => exact le_refl _
  | _ => exact absurd hf (by simp [Input.call])

/-- What holds of the whole system. -/
def Working (o : ChurnOptions) (ratio : ℚ) (S : Sys σ ChurnModel n) : Prop :=
  Driven o ratio S.c ∧ ∀ s, Truthful S.c s (S.player s)

/-- **One event.** -/
theorem Working.step {o : ChurnOptions} {ratio : ℚ} {H : Host σ} {S : Sys σ ChurnModel n}
    {i : Input n} (hr : ∀ v, i ≠ .setGcRatio v) (h : Working o ratio S) :
    Working o ratio (S.step ⟨H, driver⟩ i) ∧ (S.c.running = false →
      (generatedOf (S.step ⟨H, driver⟩ i).c.sequence).length
        ≤ (generatedOf S.c.sequence).length + i.steps) := by
  obtain ⟨hd, ht⟩ := h
  have ht' := Truthful.step ⟨H, driver⟩ S i ht
  cases hf : i.call (⟨H, driver⟩ : World σ ChurnModel) with
  | some f =>
    have hs := Sys.step_call ⟨H, driver⟩ S hf
    have hw := call_workload hf hr hd fun s => (ht s).acked.2
    refine ⟨⟨?_, ht'⟩, ?_⟩
    · rw [hs]
      exact hw.1
    · rw [hs]
      exact hw.2
  | none =>
    have hmono := idle_acked ⟨H, driver⟩ S hf
    have hsound := Sys.step_sound ⟨H, driver⟩ S i hd.sound
    have hcur := fun s => (ht' s).acked.1
    obtain ⟨P, hP⟩ := Sys.step_idle ⟨H, driver⟩ S hf
    have hm := Lockstep.maxCursor_mono hmono
    rw [← Lockstep.maxCursor_le] at hcur
    refine ⟨⟨⟨?_, ?_, hsound, ?_⟩, ht'⟩, fun _ => ?_⟩
    · apply hd.canonical.congr <;> rw [hP]
    · refine hd.ahead.later (by rw [hP]) (le_trans ?_ hm) hm (le_trans hcur ?_)
      · rw [hP]
        exact hd.ahead.shared
      · rw [hP]
    · rw [hP]
      exact hd.force
    · rw [hP]
      exact Nat.le_add_right _ _

/-- With the generator stopped a run of events generates one entry a `step()` at most. -/
theorem Working.stopped {o : ChurnOptions} {ratio : ℚ} {H : Host σ} (is : List (Input n))
    {S : Sys σ ChurnModel n} (h : Working o ratio S)
    (hg : Machine.Along (Sys.step ⟨H, driver⟩)
      (fun S i => S.c.running = false ∧ ∀ v, i ≠ .setGcRatio v) S is) :
    (generatedOf (Machine.run (Sys.step ⟨H, driver⟩) S is).c.sequence).length
      ≤ (generatedOf S.c.sequence).length + (is.map Input.steps).sum := by
  induction is generalizing S with
  | nil => exact le_refl _
  | cons i is ih =>
    obtain ⟨hw, hone⟩ := h.step (H := H) hg.1.2
    have h1 := hone hg.1.1
    have h2 := ih hw hg.2
    rw [Machine.run_cons, List.map_cons, List.sum_cons]
    omega

/-! ## session sets that change -/

/-- A session outside the set, new or departed earlier: it knows no epoch after `e`. -/
structure Visitor (σ : Type) (e : Int) where
  proxy : Proxy
  worker : Worker σ
  last : Int
  known : last ≤ e
  chan : InOrder worker.epoch proxy.port last
  back : ∀ m ∈ worker.port, m.epoch ≤ worker.epoch
  standing : worker.core.Standing

/-- `setSessions(list)` over sessions of the set and visitors. -/
def Sys.setSessions {m : Nat} (S : Sys σ γ n) (list : Fin m → Fin n ⊕ Visitor σ S.c.epoch) :
    Sys σ γ m where
  c := S.c.setSessions fun s => (list s).map id Visitor.proxy
  w s := match list s with
    | .inl t => S.w t
    | .inr v => v.worker

/-- The system with the session set it has. -/
abbrev Net (σ γ : Type) : Type := Σ n, Sys σ γ n

/-- An event, or a new session set with the `reset()` that its caller adds right after. The GC
ratio is left alone. -/
inductive Net.Step (V : World σ γ) : Net σ γ → Net σ γ → Prop
  | event {n : Nat} (S : Sys σ γ n) (i : Input n) (h : ∀ v, i ≠ .setGcRatio v) :
    Step V ⟨n, S⟩ ⟨n, S.step V i⟩
  | change {n m : Nat} (S : Sys σ γ n) (list : Fin m → Fin n ⊕ Visitor σ S.c.epoch)
    (distinct : ∀ s t u, list s = .inl u → list t = .inl u → s = t) :
    Step V ⟨n, S⟩ ⟨m, (S.setSessions list).step V .reset⟩

theorem Net.of_run (V : World σ γ) (is : List (Input n)) (h : ∀ i ∈ is, ∀ v, i ≠ .setGcRatio v)
    (S : Sys σ γ n) :
    Relation.ReflTransGen (Net.Step V) ⟨n, S⟩ ⟨n, Machine.run (Sys.step V) S is⟩ := by
  induction is generalizing S with
  | nil => exact .refl
  | cons i is ih =>
    exact .head (.event S i (h i List.mem_cons_self))
      (ih (fun j hj => h j (List.mem_cons_of_mem i hj)) _)

theorem Sys.setSessions_link {m : Nat} {S : Sys σ γ n} (h : ∀ s, Truthful S.c s (S.player s))
    (list : Fin m → Fin n ⊕ Visitor σ S.c.epoch) (s : Fin m) :
    Link (S.setSessions list).c s ((S.setSessions list).player s) ∧
      ((S.setSessions list).player s).Standing := by
  cases hs : list s with
  | inl t =>
    have hp : (S.setSessions list).c.proxies s = S.c.proxies t := by
      simp [Sys.setSessions, Lockstep.setSessions, hs]
    have hw : (S.setSessions list).player s = S.player t := by
      simp [Sys.setSessions, Sys.player, hs]
    obtain ⟨h1, h2, h3⟩ := (h t).link
    rw [hw]
    refine ⟨⟨?_, ?_, h3⟩, (h t).standing⟩ <;> rw [hp]
    · exact h1
    · exact h2
  | inr v =>
    have hp : (S.setSessions list).c.proxies s = (v.proxy.setEpoch S.c.epoch).init := by
      simp [Sys.setSessions, Lockstep.setSessions, hs]
    have hw : (S.setSessions list).player s = v.worker.core := by
      simp [Sys.setSessions, Sys.player, hs]
    rw [hw]
    refine ⟨⟨?_, ?_, v.back⟩, v.standing⟩ <;> rw [hp]
    · rfl
    · exact v.chan.transition (m := .init S.c.epoch v.proxy.fsId v.proxy.geometry) rfl v.known

theorem Net.Step.working {o : ChurnOptions} {ratio : ℚ} {H : Host σ} {N N' : Net σ ChurnModel}
    (hs : Net.Step ⟨H, driver⟩ N N') (h : Working o ratio N.2) : Working o ratio N'.2 := by
  cases hs with
  | event S i hr => exact (h.step hr).1
  | change S list distinct =>
    obtain ⟨hd, ht⟩ := h
    have hc : Canonical o ratio (S.setSessions list).c := hd.canonical.congr rfl rfl rfl rfl rfl
    refine ⟨hc.driven hd.sound.scale, fun s => ?_⟩
    obtain ⟨hl, hst⟩ := Sys.setSessions_link ht list s
    exact Truthful.of_reset hl hst driver

theorem Net.working {o : ChurnOptions} {ratio : ℚ} {H : Host σ}
    {info : Fin n → String × Geometry} {N : Net σ ChurnModel}
    (h : Relation.ReflTransGen (Net.Step ⟨H, driver⟩) ⟨n, Sys.init (create o) ratio info⟩ N) :
    Working o ratio N.2 := by
  induction h with
  | refl =>
    refine ⟨⟨.create o ratio info, ⟨?_, Nat.zero_le _, ?_⟩, ⟨?_, le_refl _, fun _ => rfl⟩, fun _ => rfl⟩,
      Truthful.init (create o) ratio info⟩
    · exact Lockstep.maxCursor_le.mpr fun _ => le_refl _
    · simp [Sys.init, Lockstep.create, generatedOf]
    · show (0 : ℚ) ≤ 20000
      norm_num
  | tail _ hs ih => exact hs.working ih

/-- **The automatic workload depends on its seed only, and `step()` and `start()` gate it.**  Two
coordinators over the same churn options and GC ratio, each with its own modules, sessions,
session sets, modes, speeds, broadcasts, acks and calls: the gc and event entries since the last
`reset()` are the beginnings of one stream, so one of them begins the other, and the `k`-th
command has the same seed.  With the generator stopped every `step()` adds at most one such
entry and nothing else adds any; and at most one lies at or past the furthest acked cursor. -/
theorem canonical_workload {σ' : Type} (o : ChurnOptions) (ratio : ℚ) (H : Host σ) (H' : Host σ')
    {n' m m' : Nat} (info : Fin n → String × Geometry) (info' : Fin n' → String × Geometry)
    {S : Sys σ ChurnModel m} {S' : Sys σ' ChurnModel m'}
    (h : Relation.ReflTransGen (Net.Step ⟨H, driver⟩)
      ⟨n, Sys.init (create o) ratio info⟩ ⟨m, S⟩)
    (h' : Relation.ReflTransGen (Net.Step ⟨H', driver⟩)
      ⟨n', Sys.init (create o) ratio info'⟩ ⟨m', S'⟩) :
    (∃ k k', generatedOf S.c.sequence
          = (Machine.emits (draw driver ratio) k (GEN_SEED, create o)).1 ∧
        generatedOf S'.c.sequence
          = (Machine.emits (draw driver ratio) k' (GEN_SEED, create o)).1) ∧
      (generatedOf S.c.sequence <+: generatedOf S'.c.sequence ∨
        generatedOf S'.c.sequence <+: generatedOf S.c.sequence) ∧
      (∀ (k : Nat) u u', (seedsOf S.c.sequence)[k]? = some u → (seedsOf S'.c.sequence)[k]? = some u' →
        u = u') ∧
      (∀ is : List (Input m), Machine.Along (Sys.step ⟨H, driver⟩)
          (fun S i => S.c.running = false ∧ ∀ v, i ≠ .setGcRatio v) S is →
        (generatedOf (Machine.run (Sys.step ⟨H, driver⟩) S is).c.sequence).length
          ≤ (generatedOf S.c.sequence).length + is.count .step) ∧
      (generatedOf (S.c.sequence.drop S.c.maxCursor)).length ≤ 1 := by
  have hw := Net.working h
  have hw' := Net.working h'
  obtain ⟨k, hk⟩ := hw.1.canonical.stream
  obtain ⟨k', hk'⟩ := hw'.1.canonical.stream
  obtain ⟨j, hj⟩ := hw.1.canonical.seeds
  obtain ⟨j', hj'⟩ := hw'.1.canonical.seeds
  have hg := congrArg Prod.fst hk
  have hg' := congrArg Prod.fst hk'
  have hseed := congrArg Prod.fst hj
  have hseed' := congrArg Prod.fst hj'
  dsimp only at hg hg' hseed hseed'
  refine ⟨⟨k, k', hg, hg'⟩, ?_, fun i u u' hu hu' => ?_, fun is hal => ?_, hw.1.ahead.one⟩
  · rw [hg, hg']
    exact Machine.emits_comparable k k' _
  · rw [hseed] at hu
    rw [hseed'] at hu'
    exact Machine.emits_getElem? hu hu'
  · have hcount : is.count .step = (is.map Input.steps).sum := by
      clear hal
      induction is with
      | nil => rfl
      | cons i is ih =>
        rw [List.map_cons, List.sum_cons, List.count_cons, ih, Nat.add_comm]
        cases i <;> rfl
    rw [hcount]
    exact hw.stopped is hal

/-- A Pace run with two broadcasts and a Race run with a manual step and one broadcast: the first
commands have the same seed. -/
theorem canonical_workload_two_modes :
    let o : ChurnOptions := {
      seed := 7, targetLiveBytes := 65536, targetWrittenBytes := 262144, targetSlackBytes := 4096
      forceLargeAfterBytes := 131072 }
    let V : World String ChurnModel := ⟨(plainWorld fun _ => 0).host, driver⟩
    let S := Sys.after V (create o) (1 / 2) (fun _ : Fin 1 => ("a", plainGeometry))
      [.broadcast .null, .frame, .broadcast (.source "ls()")]
    let S' := Sys.after V (create o) (1 / 2) (fun _ : Fin 2 => ("b", plainGeometry))
      [.setMode .race, .step, .broadcast (.source "gc()")]
    ∀ u u', (seedsOf S.c.sequence)[0]? = some u → (seedsOf S'.c.sequence)[0]? = some u' → u = u' := by
  intro o V S S'
  have hrun := Net.of_run V [.broadcast .null, .frame, .broadcast (.source "ls()")]
    (by simp) (Sys.init (create o) (1 / 2) fun _ : Fin 1 => ("a", plainGeometry))
  have hrun' := Net.of_run V [.setMode .race, .step, .broadcast (.source "gc()")]
    (by simp) (Sys.init (create o) (1 / 2) fun _ : Fin 2 => ("b", plainGeometry))
  exact (canonical_workload o (1 / 2) V.host V.host _ _ hrun hrun').2.2.1 0

end FlashVis
