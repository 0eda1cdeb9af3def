import FlashVis.Player.Runs
import FlashVis.System

/-!
# Executed and played

`executedTapeNs - playbackNs` is what the worker takes for the flash time that is executed and not
played; the queue has the flash time that is.  The skew of a player is the difference, and
backpressure bounds the queue as long as there is none.

* `Player.skew p`     what the two running totals have too much;
* `Move.level`        the moves that keep a player without skew;
* `BoundedSkew H is`  in the run `is` the totals account for the queue, and the queue is bounded
  whenever a real entry is started;
* `bounded_skew_iff`  that is so exactly when every move is level.
-/

namespace FlashVis
namespace Player

/-- What the running totals have too much over the queue. -/
def skew (p : Player) : ℚ := p.executedTapeNs - p.playbackNs - unplayedNs p.queue

/-- What a batch adds to the skew: its cost is played at once in a prep bracket, and only what its
per-page steps carry is queued outside. -/
def batchSkew (p : Player) (batch : List DevEvent) : ℚ :=
  if p.prepActive then -(batch.map DevEvent.ns).sum
  else (batch.map DevEvent.ns).sum - (batch.map (splitNs p.pageSize)).sum

end Player

/-- Moves that keep a player without skew: no flash time in a prep bracket, no declared cost, no
event without a page, and no chip reset once something has been played. -/
def Move.level (p : Player) : Move → Prop
  | .exec _ batch _ _ => p.batchSkew batch = 0
  | .op _ w batch _ => (if w then -p.playbackNs else 0) + p.batchSkew batch = 0
  | .wipe => p.playbackNs = 0
  | .closePrep cost | .commit cost _ => cost = 0
  | _ => True

/-- The pump starts a real entry. -/
def Move.starts : Move → Bool
  | .exec _ _ _ _ | .fail _ | .start | .syntaxError => true
  | _ => false

namespace Player
variable {p : Player}

theorem batchSkew_nil (p : Player) : p.batchSkew [] = 0 := by
  unfold batchSkew
  split <;> simp

theorem stepsFor.unplayed {idx : Nat} {steps : List PbStep} (h : stepsFor idx steps) :
    unplayedNs steps = (steps.map (·.ns)).sum := by
  unfold unplayedNs
  refine congrArg List.sum (List.map_congr_left fun st hst => ?_)
  obtain ⟨-, -, hs, -⟩ := h st hst
  simp [PbStep.unplayed, hs]

theorem enqueue_skew (p : Player) {idx : Nat} {batch : List DevEvent} {steps : List PbStep}
    (hb : batchFor p.pageSize idx batch steps) (last : Bool) (ops : Nat) :
    (p.enqueue idx batch steps last ops).skew = p.skew + p.batchSkew batch := by
  obtain ⟨-, hsteps, hsum⟩ := hb
  unfold enqueue batchSkew
  dsimp only
  by_cases hprep : p.prepActive = true
  · rw [if_pos hprep, if_pos hprep]
    unfold skew
    dsimp only
    ring
  · rw [if_neg hprep, if_neg hprep]
    have hlast : unplayedNs (if last then [Worker.marker idx ops] else []) = 0 := by
      cases last
      · rfl
      · simp [marker_unplayed]
    unfold skew
    dsimp only
    rw [unplayedNs_append, unplayedNs_append, hlast, hsteps.unplayed, hsum]
    ring

theorem enqueue_nil_skew (p : Player) (idx : Nat) (last : Bool) (ops : Nat) :
    (p.enqueue idx [] [] last ops).skew = p.skew := by
  have hb : batchFor p.pageSize idx [] [] :=
    ⟨fun _ h => absurd h List.not_mem_nil, fun _ h => absurd h List.not_mem_nil, rfl⟩
  rw [enqueue_skew p hb, batchSkew_nil, add_zero]

theorem wipe_skew (p : Player) : p.wipe.skew = -p.playbackNs := by
  unfold skew wipe
  dsimp only
  rw [unplayedNs_nil]
  ring

/-- **A move keeps a player without skew exactly when it is level.** -/
theorem apply_skew (h : p.skew = 0) (hq : Playable p.queue) {m : Move} (he : p.Enabled m) :
    (p.apply m).skew = 0 ↔ m.level p := by
  -- a move that neither executes nor resets the chip
  have still : ∀ q : Player, q.skew = p.skew → (q.skew = 0 ↔ True) :=
    fun q hqs => iff_true_intro (hqs.trans h)
  cases m with
  | exec call batch steps ops =>
    obtain ⟨e, -, -, -, -, -, hb⟩ := he
    have hexec : ∀ q : Player, q.skew = p.skew → q.pageSize = p.pageSize →
        q.batchSkew batch = p.batchSkew batch →
        ((q.enqueue p.cursor batch steps true ops).skew = 0 ↔ p.batchSkew batch = 0) := by
      intro q hqs hps hbs
      rw [enqueue_skew q (hps ▸ hb), hqs, hbs, h, zero_add]
    cases call with
    | none => exact hexec p rfl rfl rfl
    | some c =>
      exact hexec { p with hist := p.hist ++ [.ran (p.runner.getD 0) p.cursor c] } rfl rfl rfl
  | op idx w batch steps =>
    unfold Move.level
    cases w with
    | false =>
      show (p.enqueue idx batch steps false 0).skew = 0 ↔ 0 + p.batchSkew batch = 0
      rw [enqueue_skew p he, h]
    | true =>
      show (p.wipe.enqueue idx batch steps false 0).skew = 0 ↔ -p.playbackNs + p.batchSkew batch = 0
      rw [enqueue_skew p.wipe he, wipe_skew]
      rfl
  | wipe =>
    show p.wipe.skew = 0 ↔ p.playbackNs = 0
    rw [wipe_skew, neg_eq_zero]
  | syntaxError =>
    exact still _ (enqueue_nil_skew
      { p with realCmd := some p.cursor, hist := p.hist ++ [.started p.cursor] } p.cursor true 0)
  | close idx ops => exact still _ (enqueue_nil_skew p idx true ops)
  | meter =>
    refine still _ ?_
    obtain ⟨hm⟩ := meter_spec p hq
    have hcons := hm.conserved
    have hex : p.meter.executedTapeNs = p.executedTapeNs := by
      obtain ⟨pb, fl, ed, fo, q, heq⟩ := meter_eq p
      rw [heq]
    show p.meter.skew = p.skew
    unfold skew
    rw [hex]
    linarith
  | prep v => cases v <;> exact still _ rfl
  | openPrep =>
    refine still _ ?_
    show p.executedTapeNs - (p.playbackNs + 0) - unplayedNs p.queue = p.skew
    rw [add_zero]
    rfl
  | closePrep cost | commit cost _ =>
    show p.executedTapeNs - (p.playbackNs + cost) - unplayedNs p.queue = 0 ↔ cost = 0
    have h0 : p.executedTapeNs - p.playbackNs - unplayedNs p.queue = 0 := h
    constructor
    · intro hc
      linarith
    · intro hc
      linarith
  | fail _ | start | ack | post _ | land _ | drop _ => exact still _ rfl

theorem receive_skew (h : p.skew = 0) (ps : Option Nat) (m : C2W) : (p.receive ps m).skew = 0 := by
  have hfresh : ∀ e keep, (p.fresh e keep ps).skew = 0 := by
    intro e keep
    simp [skew, fresh]
  cases m with
  | init e f g => exact hfresh e false
  | reset e => exact hfresh e true
  | pull e sel => exact h
  | entries e es =>
    unfold receive
    dsimp only
    split <;> exact h
  | grant e g =>
    unfold receive
    dsimp only
    split <;> exact h

/-- A real entry is started below the caps of the queue, when the totals account for it. -/
theorem starts_bounded (h : p.skew = 0) {m : Move} (he : p.Enabled m) (hm : m.starts = true)
    (hprep : p.prepActive = false) :
    unplayedNs p.queue < p.tapeCapNs ∧ p.queue.length < BACKLOG_CAP := by
  have hroom : p.room := by
    cases m with
    | exec call batch steps ops =>
      obtain ⟨e, -, -, -, hroom, -⟩ := he
      exact hroom
    | fail call =>
      obtain ⟨e, -, -, -, hroom, -⟩ := he
      exact hroom
    | start | syntaxError =>
      obtain ⟨e, -, -, -, -, -, hroom⟩ := he
      exact hroom
    | _ => exact absurd hm (by simp [Move.starts])
  rcases hroom with hp | ⟨hcap, hlen⟩
  · exact absurd hp (by simp [hprep])
  · have h0 : p.executedTapeNs - p.playbackNs - unplayedNs p.queue = 0 := h
    exact ⟨by linarith, hlen⟩

end Player

/-- In the run `is` the running totals account for the queue, between tasks and within them, and the
queue is bounded whenever a real entry is started outside a prep bracket. -/
structure BoundedSkew {σ : Type} (H : Host σ) (is : List (ℚ × WIn)) : Prop where
  tasks : ∀ js, js <+: is → (Worker.after H js).executedTapeNs - (Worker.after H js).playbackNs
    = unplayedNs (Worker.after H js).pbQueue
  moves : Worker.Obeys (fun p m => p.skew = 0 ∧ (p.apply m).skew = 0) H is
  starts : Worker.Obeys (fun p m => m.starts = true → p.prepActive = false →
    unplayedNs p.queue < p.tapeCapNs ∧ p.queue.length < BACKLOG_CAP) H is

/-- **Bounded skew**, in exactly the runs whose moves are level. -/
theorem bounded_skew_iff {σ : Type} (H : Host σ) (is : List (ℚ × WIn)) :
    BoundedSkew H is ↔ Worker.Obeys (fun p m => m.level p) H is := by
  have hstart : (Worker.core ({} : Worker σ)).skew = 0 := by simp [Player.skew, Worker.core]
  constructor
  · intro h
    exact h.moves.strengthen (I := Player.Standing) .start (fun _ ps m h => h.receive ps m)
      (fun _ _ he _ h => h.apply he)
      fun _ _ he ht h => (Player.apply_skew ht.1 h.playable he).mp ht.2
  · intro h
    have hkeep : ∀ (p : Player) (m : Move), p.Enabled m → m.level p → p.Standing ∧ p.skew = 0 →
        (p.apply m).Standing ∧ (p.apply m).skew = 0 :=
      fun p m he hm hp => ⟨hp.1.apply he, (Player.apply_skew hp.2 hp.1.playable he).mpr hm⟩
    have hrecv : ∀ (p : Player) ps m, p.Standing ∧ p.skew = 0 →
        (p.receive ps m).Standing ∧ (p.receive ps m).skew = 0 :=
      fun p ps m hp => ⟨hp.1.receive ps m, Player.receive_skew hp.2 ps m⟩
    refine ⟨fun js hjs => ?_, ?_, ?_⟩
    · have hskew := (Worker.run_inv (I := fun p => p.Standing ∧ p.skew = 0) (h.prior hjs)
        ⟨.start, hstart⟩ hrecv hkeep).2
      exact sub_eq_zero.mp hskew
    · exact h.strengthen (I := fun p => p.Standing ∧ p.skew = 0) ⟨.start, hstart⟩ hrecv hkeep
        fun p m he hm hp => ⟨hp.2, (hkeep p m he hm hp).2⟩
    · exact h.strengthen (I := fun p => p.Standing ∧ p.skew = 0) ⟨.start, hstart⟩ hrecv hkeep
        fun p m he _ hp => Player.starts_bounded hp.2 he

/-- A write is executed and played, and a command then formats the chip. -/
def formatAfterWrite : List (ℚ × WIn) :=
  [(0, .msg (.init 0 "fs" plainGeometry)), (0, .built 1 true),
    (0, .msg (.entries 0 [⟨0, .event, .event { type := .write, name := "f", size := 8 }, 0⟩,
      ⟨1, .command, .source "format()", 0⟩])),
    (0, .msg (.grant 0 ⟨0, 2, (60000 : ℚ), 20000⟩)), (0, .cmd 0 (.call .format)),
    (0, .cmd 0 (.task 0))]

theorem bounded_skew_format : ¬ BoundedSkew (plainWorld fun _ => 0).host formatAfterWrite := by
  intro h
  have htask := h.tasks formatAfterWrite (List.prefix_refl _)
  revert htask
  decide +kernel

end FlashVis
