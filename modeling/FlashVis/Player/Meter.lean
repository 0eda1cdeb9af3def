import FlashVis.Player.Frame

/-!
# The metered queue

`meter_spec` says once what a metering does: a front part of the queue is played out, the next
step may be played in part, and the flash time played is exactly what left the queue.

* `unplayedNs q`        the nanoseconds of a queue that have not been played;
* `drainedTo e q`       `entriesDrained` once the steps `q` have left the queue;
* `Metered p p'`        the specification of `Player.meter`;
* `apply_playback`      moves that do not meter leave `playbackNs` alone (outside a prep bracket).
-/

namespace FlashVis

/-- Unplayed nanoseconds of a queue. -/
def unplayedNs (q : List PbStep) : ℚ := (q.map PbStep.unplayed).sum

@[simp] theorem unplayedNs_nil : unplayedNs [] = 0 := rfl

@[simp] theorem unplayedNs_cons (st : PbStep) (q : List PbStep) :
    unplayedNs (st :: q) = st.unplayed + unplayedNs q := by
  simp [unplayedNs]

@[simp] theorem unplayedNs_append (q q' : List PbStep) :
    unplayedNs (q ++ q') = unplayedNs q + unplayedNs q' := by
  simp [unplayedNs]

/-- A queue without negative steps. -/
def Playable (q : List PbStep) : Prop := ∀ st ∈ q, 0 ≤ st.unplayed

theorem Playable.append {q q' : List PbStep} (h : Playable q) (h' : Playable q') :
    Playable (q ++ q') := fun st hst => (List.mem_append.mp hst).elim (h st) (h' st)

theorem Playable.unplayedNs_nonneg {q : List PbStep} (h : Playable q) : 0 ≤ unplayedNs q := by
  induction q with
  | nil => exact le_refl _
  | cons st q ih =>
    rw [unplayedNs_cons]
    exact add_nonneg (h st List.mem_cons_self) (ih fun x hx => h x (List.mem_cons_of_mem _ hx))

/-- `entriesDrained` after the steps of `q` have left the queue. -/
def drainedTo (e : Int) (q : List PbStep) : Int :=
  q.foldl (fun e st => if st.last then (st.entryIndex : Int) else e) e

/-- A step played in part. -/
def PbStep.cut (x : ℚ) (st : PbStep) : PbStep :=
  { st with started := true, curRem := st.unplayed - x }

@[simp] theorem PbStep.cut_unplayed (x : ℚ) (st : PbStep) :
    (st.cut x).unplayed = st.unplayed - x := rfl

/-- What metering does: the front part `done` is played out and `x` nanoseconds of the next step
are, when it was reached. -/
structure Metered (p p' : Player) where
  done : List PbStep
  rest : List PbStep
  x : ℚ
  split : p.queue = done ++ rest
  nonneg : 0 ≤ x
  playback : p'.playbackNs = p.playbackNs + unplayedNs done + x
  drained : p'.entriesDrained = drainedTo p.entriesDrained done
  queue : (x = 0 ∧ p'.queue = rest) ∨
    ∃ st r, rest = st :: r ∧ x < st.unplayed ∧ p'.queue = st.cut x :: r
  within : unplayedNs done + x = 0 ∨ ((unplayedNs done + x : ℚ) : Limit) ≤ p.budget

namespace Player

theorem closeStep_playback (step : PbStep) (p : Player) :
    (p.closeStep step).playbackNs = p.playbackNs := by
  unfold closeStep
  split <;> rfl

theorem closeStep_drained (step : PbStep) (p : Player) :
    (p.closeStep step).entriesDrained = drainedTo p.entriesDrained [step] := by
  unfold closeStep drainedTo
  rw [List.foldl_cons, List.foldl_nil]
  split <;> rfl

/-- The loop of the metered queue, by induction on the queue. -/
theorem playLoop_spec (q : List PbStep) (hq : Playable q) (k : Nat) (b : Limit) (hb : 0 ≤ b)
    (p : Player) : ∃ done rest x, q = done ++ rest ∧ 0 ≤ x ∧
      (playLoop q k b p).playbackNs = p.playbackNs + unplayedNs done + x ∧
      (playLoop q k b p).entriesDrained = drainedTo p.entriesDrained done ∧
      ((x = 0 ∧ (playLoop q k b p).queue = rest) ∨
        ∃ st r, rest = st :: r ∧ x < st.unplayed ∧ (playLoop q k b p).queue = st.cut x :: r) ∧
      ((unplayedNs done + x : ℚ) : Limit) ≤ b := by
  induction q generalizing k b p with
  | nil => exact ⟨[], [], 0, rfl, le_refl _, by simp [playLoop], rfl, .inl ⟨rfl, rfl⟩, by simpa⟩
  | cons step rest ih =>
    cases k with
    | zero =>
      exact ⟨[], step :: rest, 0, rfl, le_refl _, by simp [playLoop], rfl, .inl ⟨rfl, rfl⟩, by simpa⟩
    | succ k =>
      have h0 : 0 ≤ step.unplayed := hq step List.mem_cons_self
      -- the step is played out and the loop goes on
      have hrec : ∀ k (b' : Limit), 0 ≤ b' → (∀ y : ℚ, (y : Limit) ≤ b' →
          ((step.unplayed + y : ℚ) : Limit) ≤ b) → ∃ done rest' x, step :: rest = done ++ rest' ∧ 0 ≤ x ∧
          (playLoop rest k b' ((p.advance step.unplayed).closeStep step)).playbackNs
            = p.playbackNs + unplayedNs done + x ∧
          (playLoop rest k b' ((p.advance step.unplayed).closeStep step)).entriesDrained
            = drainedTo p.entriesDrained done ∧
          ((x = 0 ∧ (playLoop rest k b' ((p.advance step.unplayed).closeStep step)).queue = rest') ∨
            ∃ st r, rest' = st :: r ∧ x < st.unplayed ∧
              (playLoop rest k b' ((p.advance step.unplayed).closeStep step)).queue = st.cut x :: r) ∧
          ((unplayedNs done + x : ℚ) : Limit) ≤ b := by
        intro k b' hb' hle
        obtain ⟨done, rest', x, hsplit, hx, hpb, hed, hqu, hbd⟩ :=
          ih (fun st hst => hq st (List.mem_cons_of_mem _ hst)) k b' hb'
            ((p.advance step.unplayed).closeStep step)
        refine ⟨step :: done, rest', x, by rw [hsplit]; rfl, hx, ?_, ?_, hqu, ?_⟩
        · rw [hpb, closeStep_playback, unplayedNs_cons]
          simp only [advance]
          ring
        · rw [hed, closeStep_drained]
          rfl
        · rw [unplayedNs_cons, add_assoc]
          exact hle _ hbd
      unfold playLoop
      induction b using WithTop.recTopCoe with
      | top => exact hrec _ ⊤ le_top fun _ _ => le_top
      | coe b =>
        dsimp only
        have hb' : 0 ≤ b := WithTop.coe_le_coe.mp (by simpa using hb)
        by_cases hle : step.unplayed ≤ b
        · rw [if_pos hle]
          refine hrec _ _ ?_ fun y hy => ?_
          · exact WithTop.coe_le_coe.mpr (sub_nonneg.mpr hle)
          · have := WithTop.coe_le_coe.mp hy
            exact WithTop.coe_le_coe.mpr (by linarith)
        · rw [if_neg hle]
          refine ⟨[], step :: rest, b, rfl, hb', ?_, rfl, .inr ⟨step, rest, rfl, not_le.mp hle, rfl⟩, ?_⟩
          · simp [advance]
          · simp

/-- **Specification of the metering.** -/
theorem meter_spec (p : Player) (hq : Playable p.queue) : Nonempty (Metered p p.meter) := by
  have hid : Nonempty (Metered p p) :=
    ⟨⟨[], p.queue, 0, rfl, le_refl _, by simp, rfl, .inl ⟨rfl, rfl⟩, .inl (by simp)⟩⟩
  unfold meter
  split
  · exact hid
  split
  · exact hid
  · rename_i hb
    rw [not_not] at hb
    obtain ⟨done, rest, x, hsplit, hx, hpb, hed, hqu, hbd⟩ :=
      playLoop_spec p.queue hq MAX_OPS_PER_FRAME p.budget (le_of_lt hb) p
    exact ⟨⟨done, rest, x, hsplit, hx, hpb, hed, hqu, .inr hbd⟩⟩

end Player

namespace Metered
variable {p p' : Player}

/-- What left the queue was played. -/
theorem conserved (h : Metered p p') :
    p'.playbackNs + unplayedNs p'.queue = p.playbackNs + unplayedNs p.queue := by
  rw [h.playback, h.split, unplayedNs_append]
  rcases h.queue with ⟨hx, hq⟩ | ⟨st, r, hrest, -, hq⟩
  · rw [hq, hx]
    ring
  · rw [hq, hrest, unplayedNs_cons, unplayedNs_cons, PbStep.cut_unplayed]
    ring

theorem playable (h : Metered p p') (hq : Playable p.queue) : Playable p'.queue := by
  have hrest : Playable h.rest := fun st hst => hq st (h.split ▸ List.mem_append_right _ hst)
  rcases h.queue with ⟨-, he⟩ | ⟨st, r, hr, hlt, he⟩
  · exact he ▸ hrest
  · rw [he]
    intro st' hst'
    rcases List.mem_cons.mp hst' with rfl | hst'
    · exact sub_nonneg.mpr (le_of_lt hlt)
    · exact hrest st' (hr ▸ List.mem_cons_of_mem _ hst')

theorem le (h : Metered p p') (hq : Playable p.queue) : p.playbackNs ≤ p'.playbackNs := by
  have hd : Playable h.done := fun st hst => hq st (h.split ▸ List.mem_append_left _ hst)
  rw [h.playback]
  have := hd.unplayedNs_nonneg
  have := h.nonneg
  linarith

/-- Outside a prep bracket playback stops at the granted watermark. -/
theorem le_limit (h : Metered p p') (hp : p.prepActive = false) :
    p'.playbackNs = p.playbackNs ∨ (p'.playbackNs : Limit) ≤ p.playLimitNs := by
  rcases h.within with h0 | hb
  · exact .inl (by rw [h.playback, add_assoc, h0, add_zero])
  · refine .inr ?_
    rw [Player.budget, hp, if_neg (by simp)] at hb
    rw [h.playback, add_assoc]
    induction hl : p.playLimitNs using WithTop.recTopCoe with
    | top => exact le_top
    | coe l =>
      rw [hl, headroom_coe] at hb
      have := WithTop.coe_le_coe.mp hb
      exact WithTop.coe_le_coe.mpr (by linarith)

end Metered

namespace Player

theorem stepsFor.playable {idx : Nat} {steps : List PbStep} (h : stepsFor idx steps) :
    Playable steps := by
  intro st hst
  obtain ⟨-, -, hs, hn⟩ := h st hst
  simpa [PbStep.unplayed, hs] using hn

theorem marker_unplayed (idx ops : Nat) : (Worker.marker idx ops).unplayed = 0 := rfl

theorem enqueue_metered {p : Player} (hp : p.prepActive = false) (idx : Nat)
    (batch : List DevEvent) (steps : List PbStep) (last : Bool) (ops : Nat) :
    p.enqueue idx batch steps last ops = { p with
      hist := p.hist ++ [.enqueued idx batch p.prepActive]
      executedTapeNs := p.executedTapeNs + (batch.map DevEvent.ns).sum
      queue := p.queue ++ steps ++ (if last then [Worker.marker idx ops] else []) } := by
  unfold enqueue
  dsimp only
  rw [if_neg (by simp [hp])]

theorem enqueue_playable {p : Player} (hp : p.prepActive = false) (hq : Playable p.queue)
    {idx : Nat} {batch : List DevEvent} {steps : List PbStep} (hs : Playable steps) (last : Bool)
    (ops : Nat) : Playable (p.enqueue idx batch steps last ops).queue := by
  rw [enqueue_metered hp]
  refine (hq.append hs).append ?_
  intro st hst
  split at hst
  · rw [List.mem_singleton.mp hst, marker_unplayed]
  · exact absurd hst (by simp)

/-- Entries that only a runner executes. -/
def AllReal (l : List Entry) : Prop := ∀ e ∈ l, e.synthetic = false

end Player

/-- The moves of declared-cost entries. -/
def Move.synthetic : Move → Bool
  | .openPrep | .closePrep _ | .commit _ _ => true
  | _ => false

namespace Player

theorem due_real {p : Player} {e : Entry} (hr : AllReal p.entries) (h : p.due e) :
    e.synthetic = false := hr e (List.mem_of_getElem? h.2)

theorem not_synthetic {p : Player} {m : Move} (hr : AllReal p.entries) (he : p.Enabled m) :
    m.synthetic = false := by
  cases m with
  | openPrep | closePrep _ =>
    obtain ⟨e, hdue, hk, hs⟩ := he
    exact absurd (due_real hr hdue) (by simp [Entry.synthetic, hk, hs])
  | commit cost ops =>
    obtain ⟨e, hdue, ⟨hk, hs⟩ | ⟨hk, hs⟩⟩ := he
    · exact absurd (due_real hr hdue) (by simp [Entry.synthetic, hk, hs])
    · refine absurd (due_real hr hdue) ?_
      unfold Entry.synthetic
      cases h : e.kind <;> simp_all
  | _ => rfl

theorem apply_playback {p : Player} {m : Move} (hp : p.prepActive = false)
    (hs : m.synthetic = false) (hm : m ≠ .meter) : (p.apply m).playbackNs = p.playbackNs := by
  cases m with
  | exec call batch steps ops =>
    cases call with
    | none => simp only [apply, enqueue_metered hp]
    | some c =>
      have hp' : ({ p with hist := p.hist ++ [.ran (p.runner.getD 0) p.cursor c] } : Player).prepActive
          = false := hp
      simp only [apply, enqueue_metered hp']
  | syntaxError =>
    have hp' : ({ p with
        realCmd := some p.cursor, hist := p.hist ++ [.started p.cursor] } : Player).prepActive
          = false := hp
    simp only [apply, enqueue_metered hp']
  | op idx w batch steps =>
    cases w with
    | false => simp only [apply, Bool.false_eq_true, if_false, enqueue_metered hp]
    | true =>
      have hp' : p.wipe.prepActive = false := hp
      simp only [apply, if_true, enqueue_metered hp']
      rfl
  | close idx ops => simp only [apply, enqueue_metered hp]
  | prep v => cases v <;> rfl
  | meter => exact absurd rfl hm
  | openPrep | closePrep _ | commit _ _ => exact absurd hs (by simp [Move.synthetic])
  | fail _ | start | wipe | ack | post _ | land _ | drop _ => rfl

theorem apply_playable {p : Player} {m : Move} (hp : p.prepActive = false)
    (hs : m.synthetic = false) (he : p.Enabled m) (hq : Playable p.queue) :
    Playable (p.apply m).queue := by
  cases m with
  | exec call batch steps ops =>
    obtain ⟨e, -, -, -, -, -, -, hst, -⟩ := he
    cases call with
    | none => exact enqueue_playable hp hq hst.playable true ops
    | some c => exact enqueue_playable (p := { p with
        hist := p.hist ++ [.ran (p.runner.getD 0) p.cursor c] }) hp hq hst.playable true ops
  | syntaxError =>
    exact enqueue_playable (p := { p with
      realCmd := some p.cursor, hist := p.hist ++ [.started p.cursor] }) hp hq
      (fun _ h => absurd h (by simp)) true 0
  | op idx w batch steps =>
    have hst := he.2.1
    cases w with
    | false => exact enqueue_playable hp hq hst.playable false 0
    | true =>
      exact enqueue_playable (p := p.wipe) hp (fun _ h => absurd h (by simp [wipe]))
        hst.playable false 0
  | close idx ops => exact enqueue_playable hp hq (fun _ h => absurd h (by simp)) true ops
  | prep v => cases v <;> exact hq
  | meter =>
    obtain ⟨h⟩ := meter_spec p hq
    exact h.playable hq
  | wipe => exact fun _ h => absurd h (by simp [apply, wipe])
  | openPrep | closePrep _ | commit _ _ => exact absurd hs (by simp [Move.synthetic])
  | fail _ | start | ack | post _ | land _ | drop _ => exact hq

/-- Outside prep brackets `playbackNs` never falls, and stops at the watermark. -/
theorem apply_bounds {p : Player} {m : Move} (hp : p.prepActive = false)
    (hs : m.synthetic = false) (hq : Playable p.queue) :
    p.playbackNs ≤ (p.apply m).playbackNs ∧
      ((p.apply m).playbackNs = p.playbackNs ∨ ((p.apply m).playbackNs : Limit) ≤ p.playLimitNs) := by
  by_cases hm : m = .meter
  · subst hm
    obtain ⟨h⟩ := meter_spec p hq
    exact ⟨h.le hq, h.le_limit hp⟩
  · have := apply_playback hp hs hm
    exact ⟨le_of_eq this.symm, .inl this⟩

end Player
end FlashVis
