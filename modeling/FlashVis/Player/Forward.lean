import FlashVis.Player.History
import FlashVis.Player.Standing

/-!
# Acks that only go forward

Every quantity that an ack reports grows along a life, unless a prep bracket is closed after
counters were reported, an entry is closed at once over the markers of earlier ones, or a declared
cost is negative.

* `GrantAck.Le`       one ack reports no more than another;
* `Move.forward`      the moves that lower nothing reported;
* `Forward p`         the invariant: the acks of a life rise, up to what the next one would report;
-/

namespace FlashVis

/-- Ack `a` reports no more than ack `b`. -/
structure GrantAck.Le (a b : GrantAck) : Prop where
  round : a.round ≤ b.round
  playbackNs : a.playbackNs ≤ b.playbackNs
  cursor : a.cursor ≤ b.cursor
  entriesDrained : a.entriesDrained ≤ b.entriesDrained
  fileOpCount : a.fileOpCount ≤ b.fileOpCount
  flashTimeNs : a.flashTimeNs ≤ b.flashTimeNs

theorem GrantAck.Le.refl (a : GrantAck) : a.Le a :=
  ⟨le_refl _, le_refl _, le_refl _, le_refl _, le_refl _, le_refl _⟩

theorem GrantAck.Le.trans {a b c : GrantAck} (h : a.Le b) (h' : b.Le c) : a.Le c :=
  ⟨h.round.trans h'.round, h.playbackNs.trans h'.playbackNs, h.cursor.trans h'.cursor,
    h.entriesDrained.trans h'.entriesDrained, h.fileOpCount.trans h'.fileOpCount,
    h.flashTimeNs.trans h'.flashTimeNs⟩

/-- What a proxy has before any ack. -/
def GrantAck.unset : GrantAck where
  round := -1
  playbackNs := 0
  cursor := 0
  entriesDrained := -1
  fileOpCount := 0
  flashTimeNs := 0

namespace Player

/-- No ack of this life has reported a counter. -/
def Unreported (p : Player) : Prop :=
  ∀ a ∈ acksOf (posted p.hist), a.fileOpCount = 0 ∧ a.flashTimeNs = 0

instance (p : Player) : Decidable p.Unreported := inferInstanceAs (Decidable (∀ _ ∈ _, _))

end Player

/-- Moves that lower nothing reported: no entry is closed at once over the markers of earlier ones,
no declared cost is negative, and a prep bracket is closed before a counter was reported. -/
def Move.forward (p : Player) : Move → Prop
  | .exec _ _ _ _ | .syntaxError | .close _ _ => p.prepActive = true → marks p.queue = []
  | .prep v => v = false → p.Unreported
  | .openPrep => marks p.queue = []
  | .closePrep cost => marks p.queue = [] ∧ 0 ≤ cost ∧ p.Unreported
  | .commit cost _ => marks p.queue = [] ∧ 0 ≤ cost
  | _ => True

instance (p : Player) : ∀ m : Move, Decidable (m.forward p)
  | .exec _ _ _ _ | .syntaxError | .close _ _ =>
    inferInstanceAs (Decidable (p.prepActive = true → marks p.queue = []))
  | .prep v => inferInstanceAs (Decidable (v = false → p.Unreported))
  | .openPrep => inferInstanceAs (Decidable (marks p.queue = []))
  | .closePrep cost => inferInstanceAs (Decidable (marks p.queue = [] ∧ 0 ≤ cost ∧ p.Unreported))
  | .commit cost _ => inferInstanceAs (Decidable (marks p.queue = [] ∧ 0 ≤ cost))
  | .fail _ | .start | .op _ _ _ _ | .wipe | .meter | .ack | .post _ | .land _ | .drop _ =>
    inferInstanceAs (Decidable True)

namespace Player
variable {p q : Player}

/-! ## what metering adds to the counters -/

theorem playLoop_shown (l : List PbStep) (k : Nat) (b : Limit) (p : Player) :
    p.fileOps ≤ (playLoop l k b p).fileOps ∧
      (playLoop l k b p).flashNs - p.flashNs = (playLoop l k b p).playbackNs - p.playbackNs := by
  induction l generalizing k b p with
  | nil => exact ⟨le_refl _, (sub_self _).trans (sub_self _).symm⟩
  | cons step rest ih =>
    cases k with
    | zero => exact ⟨le_refl _, (sub_self _).trans (sub_self _).symm⟩
    | succ k =>
      -- one step is played out
      have hclose : p.fileOps ≤ ((p.advance step.unplayed).closeStep step).fileOps ∧
          ((p.advance step.unplayed).closeStep step).flashNs = p.flashNs + step.unplayed ∧
          ((p.advance step.unplayed).closeStep step).playbackNs = p.playbackNs + step.unplayed := by
        unfold closeStep
        split
        · exact ⟨Nat.le_add_right _ _, rfl, rfl⟩
        · exact ⟨le_refl _, rfl, rfl⟩
      obtain ⟨hops, hflash, hplay⟩ := hclose
      have hrec : ∀ k b, p.fileOps ≤
            (playLoop rest k b ((p.advance step.unplayed).closeStep step)).fileOps ∧
          (playLoop rest k b ((p.advance step.unplayed).closeStep step)).flashNs - p.flashNs =
            (playLoop rest k b ((p.advance step.unplayed).closeStep step)).playbackNs - p.playbackNs := by
        intro k b
        obtain ⟨h1, h2⟩ := ih k b ((p.advance step.unplayed).closeStep step)
        rw [hflash, hplay] at h2
        exact ⟨hops.trans h1, by linarith⟩
      unfold playLoop
      induction b using WithTop.recTopCoe with
      | top => exact hrec _ _
      | coe b =>
        dsimp only
        split
        · exact hrec _ _
        · exact ⟨le_refl _, by simp [advance]⟩

theorem meter_le (hq : Playable p.queue) (he : p.entriesDrained ≤ p.meter.entriesDrained) :
    p.ackOf.Le p.meter.ackOf := by
  have hshown : p.fileOps ≤ p.meter.fileOps ∧
      p.meter.flashNs - p.flashNs = p.meter.playbackNs - p.playbackNs := by
    unfold meter
    split
    · exact ⟨le_refl _, (sub_self _).trans (sub_self _).symm⟩
    split
    · exact ⟨le_refl _, (sub_self _).trans (sub_self _).symm⟩
    · exact playLoop_shown _ _ _ _
  obtain ⟨hm⟩ := meter_spec p hq
  have hplay : p.playbackNs ≤ p.meter.playbackNs := hm.le hq
  have hf := apply_frame p .meter
  have hround : p.meter.round = p.round := hf.round
  have hcursor : p.meter.cursor = p.cursor := hf.cursor
  refine ⟨le_of_eq hround.symm, hplay, le_of_eq hcursor.symm, he, hshown.1, ?_⟩
  show p.flashNs ≤ p.meter.flashNs
  linarith [hshown.2]

/-! ## the markers on the queue -/

/-- The queue closes entries in order, all of them past the last one drained. -/
structure Marked (p : Player) : Prop where
  sorted : (marks p.queue).Pairwise (· < ·)
  above : ∀ x ∈ marks p.queue, p.entriesDrained < x

namespace Marked
variable {c : Nat}

/-- The queue's markers and the drained entry are all that counts. -/
theorem of_marks (h : p.Marked) (hq : marks q.queue = marks p.queue)
    (hd : q.entriesDrained = p.entriesDrained) : q.Marked := by
  constructor
  · rw [hq]
    exact h.sorted
  · rw [hq, hd]
    exact h.above

theorem of_nil (h : marks p.queue = []) : p.Marked := by
  constructor <;> rw [h]
  · exact List.Pairwise.nil
  · exact fun _ hx => absurd hx List.not_mem_nil

/-- Entry `c` is enqueued with its marker, or closed at once. -/
theorem enqueue_last (h : p.Marked) (hb : Below c p) (hq : p.prepActive = true → marks p.queue = [])
    {steps : List PbStep} (hs : stepsFor c steps) (batch : List DevEvent) (ops : Nat) :
    (p.enqueue c batch steps true ops).Marked ∧
      p.entriesDrained ≤ (p.enqueue c batch steps true ops).entriesDrained := by
  have hdrained := hb.drained
  by_cases hp : p.prepActive = true
  · unfold enqueue
    dsimp only
    rw [if_pos hp]
    refine ⟨of_nil (hq hp), ?_⟩
    show p.entriesDrained ≤ (c : Int)
    omega
  · rw [enqueue_metered (by simpa using hp)]
    have hm : marks (p.queue ++ steps ++ [Worker.marker c ops]) = marks p.queue ++ [c] := by
      rw [marks_append, marks_append, marks_steps hs, marks_marker, List.append_nil]
    refine ⟨⟨?_, fun x hx => ?_⟩, le_refl _⟩
    · show (marks (p.queue ++ steps ++ [Worker.marker c ops])).Pairwise _
      rw [hm]
      refine List.pairwise_append.mpr ⟨h.sorted, List.pairwise_singleton _ _, fun x hx y hy => ?_⟩
      rw [List.mem_singleton.mp hy]
      exact hb.marked x hx
    · have hx' : x ∈ marks p.queue ++ [c] := hm ▸ hx
      show p.entriesDrained < x
      rcases List.mem_append.mp hx' with hx' | hx'
      · exact h.above x hx'
      · rw [List.mem_singleton.mp hx']
        exact hdrained

theorem enqueue_op (h : p.Marked) {idx : Nat} {steps : List PbStep} (hs : stepsFor idx steps)
    (batch : List DevEvent) : (p.enqueue idx batch steps false 0).Marked ∧
      (p.enqueue idx batch steps false 0).entriesDrained = p.entriesDrained := by
  by_cases hp : p.prepActive = true
  · unfold enqueue
    dsimp only
    rw [if_pos hp]
    exact ⟨h.of_marks rfl rfl, rfl⟩
  · rw [enqueue_metered (by simpa using hp)]
    refine ⟨h.of_marks ?_ rfl, rfl⟩
    show marks (p.queue ++ steps ++ []) = marks p.queue
    rw [List.append_nil, marks_append, marks_steps hs, List.append_nil]

theorem meter (h : p.Marked) (hq : Playable p.queue) :
    p.meter.Marked ∧ p.entriesDrained ≤ p.meter.entriesDrained := by
  obtain ⟨hm⟩ := meter_spec p hq
  have hmarks : marks p.queue = marks hm.done ++ marks hm.rest := by rw [hm.split, marks_append]
  have hrest : marks p.meter.queue = marks hm.rest := by
    rcases hm.queue with ⟨-, hq⟩ | ⟨st, r, hr, -, hq⟩
    · rw [hq]
    · rw [hq, hr, marks_cut]
  have hsorted := h.sorted
  have habove := h.above
  rw [hmarks] at hsorted habove
  obtain ⟨-, hsr, hcross⟩ := List.pairwise_append.mp hsorted
  have hdrained : p.entriesDrained ≤ p.meter.entriesDrained ∧
      ∀ y ∈ marks hm.rest, p.meter.entriesDrained < y := by
    rw [hm.drained]
    rcases drainedTo_mem p.entriesDrained hm.done with ⟨he, -⟩ | ⟨z, hz, he⟩ <;> rw [he]
    · exact ⟨le_refl _, fun y hy => habove y (List.mem_append_right _ hy)⟩
    · refine ⟨le_of_lt (habove z (List.mem_append_left _ hz)), fun y hy => ?_⟩
      exact_mod_cast hcross z hz y hy
  refine ⟨⟨?_, ?_⟩, hdrained.1⟩
  · rw [hrest]
    exact hsr
  · rw [hrest]
    exact hdrained.2

/-- Every forward move keeps the order, and takes back nothing that has drained. -/
theorem apply (h : p.Marked) (hst : p.Standing) {m : Move} (he : p.Enabled m) (hm : m.forward p) :
    (p.apply m).Marked ∧ p.entriesDrained ≤ (p.apply m).entriesDrained := by
  have hb := hst.below
  have hdrained := hst.drained
  have hnil : ∀ idx, stepsFor idx [] := fun _ _ hst => absurd hst List.not_mem_nil
  cases m with
  | exec call batch steps ops =>
    obtain ⟨e, -, -, -, -, -, -, hs, -⟩ := he
    have hexec : ∀ q : Player, q.queue = p.queue → q.entriesDrained = p.entriesDrained →
        q.prepActive = p.prepActive →
        (q.enqueue p.cursor batch steps true ops).Marked ∧
          q.entriesDrained ≤ (q.enqueue p.cursor batch steps true ops).entriesDrained := by
      intro q hq hd hp
      refine (h.of_marks (by rw [hq]) hd).enqueue_last (hb.of_queue rfl hq hd) ?_ hs batch ops
      rw [hp, hq]
      exact hm
    cases call with
    | none =>
      obtain ⟨h1, h2⟩ := hexec p rfl rfl rfl
      exact ⟨h1.of_marks rfl rfl, h2⟩
    | some c =>
      obtain ⟨h1, h2⟩ := hexec { p with
        hist := p.hist ++ [.ran (p.runner.getD 0) p.cursor c] } rfl rfl rfl
      exact ⟨h1.of_marks rfl rfl, h2⟩
  | syntaxError =>
    have h' : ({ p with
        realCmd := some p.cursor, hist := p.hist ++ [.started p.cursor] } : Player).Marked :=
      h.of_marks rfl rfl
    obtain ⟨h1, h2⟩ := h'.enqueue_last (hb.of_queue rfl rfl rfl) hm (hnil p.cursor) [] 0
    exact ⟨h1.of_marks rfl rfl, h2⟩
  | close idx ops =>
    obtain ⟨rfl, -⟩ := hst.cmd idx he
    obtain ⟨h1, h2⟩ := h.enqueue_last hb hm (hnil p.cursor) [] ops
    exact ⟨h1.of_marks rfl rfl, h2⟩
  | op idx w batch steps =>
    have hs := he.2.1
    cases w with
    | false =>
      obtain ⟨h1, h2⟩ := h.enqueue_op hs batch
      exact ⟨h1, le_of_eq h2.symm⟩
    | true =>
      have hw : p.wipe.Marked := of_nil rfl
      obtain ⟨h1, h2⟩ := hw.enqueue_op hs batch
      exact ⟨h1, le_of_eq h2.symm⟩
  | wipe => exact ⟨of_nil rfl, le_refl _⟩
  | prep v => cases v <;> exact ⟨h.of_marks rfl rfl, le_refl _⟩
  | meter => exact h.meter hst.playable
  | openPrep => exact ⟨of_nil hm, le_of_lt hdrained⟩
  | closePrep _ | commit _ _ => exact ⟨of_nil hm.1, le_of_lt hdrained⟩
  | fail _ | start | ack | post _ | land _ | drop _ => exact ⟨h.of_marks rfl rfl, le_refl _⟩

end Marked

/-! ## what a move adds to the next ack -/

/-- Enqueueing lowers nothing that an ack reports, when it takes back no drained entry. -/
theorem enqueue_le {idx : Nat} {batch : List DevEvent} {steps : List PbStep} {l : Bool} {ops : Nat}
    (hb : ∀ ev ∈ batch, 0 ≤ ev.ns)
    (hd : p.entriesDrained ≤ (p.enqueue idx batch steps l ops).entriesDrained) :
    p.ackOf.Le (p.enqueue idx batch steps l ops).ackOf := by
  have hcost : 0 ≤ (batch.map DevEvent.ns).sum := by
    refine List.sum_nonneg fun x hx => ?_
    obtain ⟨ev, hev, rfl⟩ := List.mem_map.mp hx
    exact hb ev hev
  unfold enqueue at hd ⊢
  dsimp only at hd ⊢
  split at hd
  · rename_i hp
    rw [if_pos hp]
    refine ⟨le_refl _, ?_, le_refl _, hd, ?_, ?_⟩
    · exact le_add_of_nonneg_right hcost
    · show p.fileOps ≤ if l then p.fileOps + ops else p.fileOps
      split
      · exact Nat.le_add_right _ _
      · exact le_refl _
    · exact le_add_of_nonneg_right hcost
  · rename_i hp
    rw [if_neg hp]
    exact .refl _

theorem cursor_le (hst : p.Standing) {m : Move} (he : p.Enabled m) : p.cursor ≤ (p.apply m).cursor := by
  rw [(apply_frame p m).cursor]
  cases m with
  | close idx ops =>
    obtain ⟨rfl, -⟩ := hst.cmd idx he
    exact Nat.le_succ _
  | exec _ _ _ _ | syntaxError | openPrep | closePrep _ | commit _ _ => exact Nat.le_succ _
  | _ => exact le_refl _

/-- A forward move leaves every reported value behind what the next ack reports. -/
theorem apply_le (hst : p.Standing) (hmk : p.Marked) {m : Move} (he : p.Enabled m)
    (hm : m.forward p) {a : GrantAck} (ha : a ∈ GrantAck.unset :: acksOf (posted p.hist))
    (hle : a.Le p.ackOf) : a.Le (p.apply m).ackOf := by
  have hf := apply_frame p m
  have hd := (hmk.apply hst he hm).2
  have hround : a.round ≤ (p.apply m).round := hf.round ▸ hle.round
  have hcursor : a.cursor ≤ (p.apply m).cursor := hle.cursor.trans (cursor_le hst he)
  have hdrained : a.entriesDrained ≤ (p.apply m).entriesDrained := hle.entriesDrained.trans hd
  -- the move lowers no counter of its own
  have keep : p.ackOf.playbackNs ≤ (p.apply m).playbackNs → p.ackOf.fileOpCount ≤ (p.apply m).fileOps →
      p.ackOf.flashTimeNs ≤ (p.apply m).flashNs → a.Le (p.apply m).ackOf := fun h1 h2 h3 =>
    ⟨hround, hle.playbackNs.trans h1, hcursor, hdrained, hle.fileOpCount.trans h2,
      hle.flashTimeNs.trans h3⟩
  -- the move zeroes counters that were never reported
  have zero : p.Unreported → p.ackOf.playbackNs ≤ (p.apply m).playbackNs → (p.apply m).fileOps = 0 →
      (p.apply m).flashNs = 0 → a.Le (p.apply m).ackOf := by
    intro hu h1 h2 h3
    have hnone : a.fileOpCount = 0 ∧ a.flashTimeNs = 0 := by
      rcases List.mem_cons.mp ha with rfl | ha
      · exact ⟨rfl, rfl⟩
      · exact hu a ha
    refine ⟨hround, hle.playbackNs.trans h1, hcursor, hdrained, ?_, ?_⟩
    · rw [hnone.1]
      exact Nat.zero_le _
    · rw [hnone.2]
      exact h3.ge
  have hnil : ∀ ev ∈ ([] : List DevEvent), 0 ≤ ev.ns := fun _ h => absurd h List.not_mem_nil
  cases m with
  | exec call batch steps ops =>
    obtain ⟨e, -, -, -, -, -, hb, -⟩ := he
    cases call with
    | none =>
      have h := enqueue_le hb hd
      exact keep h.playbackNs h.fileOpCount h.flashTimeNs
    | some c =>
      have h := enqueue_le (p := { p with
        hist := p.hist ++ [.ran (p.runner.getD 0) p.cursor c] }) hb hd
      exact keep h.playbackNs h.fileOpCount h.flashTimeNs
  | syntaxError =>
    have h := enqueue_le (p := { p with
      realCmd := some p.cursor, hist := p.hist ++ [.started p.cursor] }) hnil hd
    exact keep h.playbackNs h.fileOpCount h.flashTimeNs
  | close idx ops =>
    have h := enqueue_le hnil hd
    exact keep h.playbackNs h.fileOpCount h.flashTimeNs
  | op idx w batch steps =>
    cases w with
    | false =>
      have h := enqueue_le he.1 hd
      exact keep h.playbackNs h.fileOpCount h.flashTimeNs
    | true =>
      have h := enqueue_le (p := p.wipe) he.1 hd
      exact keep h.playbackNs h.fileOpCount h.flashTimeNs
  | prep v =>
    cases v with
    | true => exact keep (le_refl _) (le_refl _) (le_refl _)
    | false => exact zero (hm rfl) (le_refl _) rfl rfl
  | meter =>
    have h := meter_le hst.playable hd
    exact keep h.playbackNs h.fileOpCount h.flashTimeNs
  | openPrep =>
    exact keep (add_zero p.playbackNs).ge (le_refl _) (add_zero p.flashNs).ge
  | closePrep cost =>
    obtain ⟨-, hcost, hu⟩ := hm
    exact zero hu (le_add_of_nonneg_right hcost) rfl rfl
  | commit cost ops =>
    obtain ⟨-, hcost⟩ := hm
    exact keep (le_add_of_nonneg_right hcost) (Nat.le_add_right _ _) (le_add_of_nonneg_right hcost)
  | fail _ | start | wipe | ack | post _ | land _ | drop _ =>
    exact keep (le_refl _) (le_refl _) (le_refl _)

/-! ## the invariant -/

/-- The acks of a life rise, from the start to what the next one would report. -/
structure Forward (p : Player) : Prop extends Standing p where
  queued : p.Marked
  rising : (GrantAck.unset :: acksOf (posted p.hist)).Pairwise GrantAck.Le
  told : ∀ a ∈ GrantAck.unset :: acksOf (posted p.hist), a.Le p.ackOf

namespace Forward

theorem of_start (h : p.Standing) (hq : p.queue = []) (hh : p.hist = [])
    (ha : p.ackOf = .unset) : p.Forward := by
  refine ⟨h, .of_nil (by rw [hq]; rfl), ?_, ?_⟩
  · rw [hh]
    exact List.pairwise_singleton _ _
  · rw [hh, ha]
    intro a hmem
    rw [List.mem_singleton.mp hmem]
    exact .refl _

theorem receive (h : p.Forward) (ps : Option Nat) (m : C2W)
    (hr : ∀ g, m = .grant p.epoch g → p.round ≤ g.round) : (p.receive ps m).Forward := by
  have hst := h.toStanding.receive ps m
  cases m with
  | init _ _ _ | reset _ => exact .of_start hst rfl rfl rfl
  | pull e sel => exact h
  | entries e es =>
    unfold Player.receive at hst ⊢
    dsimp only at hst ⊢
    split at hst
    · rename_i he
      rw [if_pos he]
      exact ⟨hst, h.queued.of_marks rfl rfl, h.rising, h.told⟩
    · rename_i he
      rw [if_neg he]
      exact h
  | grant e g =>
    unfold Player.receive at hst ⊢
    dsimp only at hst ⊢
    split at hst
    · rename_i he
      rw [if_pos he]
      have hacks : acksOf (posted (p.grant g).hist) = acksOf (posted p.hist) := by
        show acksOf (posted (p.hist ++ [.granted g])) = _
        rw [posted_append, acksOf_append]
        exact List.append_nil _
      have hup : p.ackOf.Le (p.grant g).ackOf :=
        ⟨hr g (by rw [he]), le_refl _, le_refl _, le_refl _, le_refl _, le_refl _⟩
      refine ⟨hst, h.queued.of_marks rfl rfl, ?_, ?_⟩
      · rw [hacks]
        exact h.rising
      · rw [hacks]
        exact fun a ha => (h.told a ha).trans hup
    · rename_i he
      rw [if_neg he]
      exact h

/-- **Every forward move keeps the acks rising.** -/
theorem apply (h : p.Forward) {m : Move} (he : p.Enabled m) (hm : m.forward p) :
    (p.apply m).Forward := by
  have hacks : acksOf (posted (p.apply m).hist) = acksOf (posted p.hist) ++ acksOf (m.posts p) := by
    rw [(apply_frame p m).hist, posted_append, acksOf_append, posted_acts]
  have htold : ∀ a ∈ GrantAck.unset :: acksOf (posted p.hist), a.Le (p.apply m).ackOf :=
    fun a ha => apply_le h.toStanding h.queued he hm ha (h.told a ha)
  refine ⟨h.toStanding.apply he, (h.queued.apply h.toStanding he hm).1, ?_, ?_⟩
  · rw [hacks, ← List.cons_append]
    rcases acksOf_posts he with hnil | ⟨-, hone⟩
    · rw [hnil, List.append_nil]
      exact h.rising
    · rw [hone]
      refine List.pairwise_append.mpr ⟨h.rising, List.pairwise_singleton _ _, fun a ha b hb => ?_⟩
      rw [List.mem_singleton.mp hb]
      exact h.told a ha
  · rw [hacks, ← List.cons_append]
    intro a ha
    rcases List.mem_append.mp ha with ha | ha
    · exact htold a ha
    · rcases acksOf_posts he with hnil | ⟨rfl, hone⟩
      · rw [hnil] at ha
        exact absurd ha List.not_mem_nil
      · rw [hone] at ha
        rw [List.mem_singleton.mp ha]
        exact .refl _

end Forward
end Player
end FlashVis
