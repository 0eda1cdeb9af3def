import FlashVis.Player.Refine
import FlashVis.Player.Meter
import FlashVis.Lib.Machine

/-!
# However the headroom is cut (session-worker.js: drain)

A series of metered drains of one queue, with nothing enqueued in between.

* `Played w w' d n`      of the queue of `w`, `d` steps have left and `n` have taken effect in `w'`;
* `drainLoop_progress`   what one run of the drain loop adds to it;
* `drain_any_cut`        with enough calls at the last limit, playback stands at
                         `min (max P L) (P + R)`.
-/

namespace FlashVis
open Machine

/-- The file operations of the markers among the steps of a queue. -/
def credits (q : List PbStep) : Nat := ((q.filter (·.last)).map (·.fileOps)).sum

/-- A queue whose first step may be partly played. -/
structure PlayQueue (q : List PbStep) : Prop where
  nonneg : Playable q
  fresh : ∀ st ∈ q.tail, st.started = false

namespace Worker
variable {σ : Type}

/-- A drain at wall-clock time `x.1` under the limit `x.2`, up to its closing pump. -/
def meterAt (w : Worker σ) (x : ℚ × Limit) : Worker σ :=
  ({ w with clock := x.1, playLimitNs := x.2 }).meter.1

/-- Steps that take effect in order, each at a wall-clock time. -/
def beginAll (xs : List (ℚ × PbStep)) (w : Worker σ) : Worker σ :=
  xs.foldl (fun w x => ({ w with clock := x.1 }).beginStep x.2) w

/-- The steps among the first `n` that had not started. -/
def begun (n : Nat) (w : Worker σ) : List PbStep := (w.pbQueue.take n).filter (!·.started)

/-- The position at which step `i` of the queue starts. -/
def startOf (w : Worker σ) (i : Nat) : ℚ := w.playbackNs + unplayedNs (w.pbQueue.take i)

/-- From `w` to `w'` the first `d` steps of the queue have left it and the first `n` have taken
effect. -/
structure Played (w w' : Worker σ) (d n : Nat) : Prop where
  flash : w'.dispFlashNs = w.dispFlashNs + (w'.playbackNs - w.playbackNs)
  effects : ∃ ts : List ℚ, ts.length = (w.begun n).length ∧
    w'.toView = (w.beginAll (ts.zip (w.begun n))).toView
  before : ∀ i < w.pbQueue.length, w.startOf i < w'.playbackNs → i < n
  after : ∀ i < n, w.startOf i ≤ w'.playbackNs
  ended : ∀ i < w.pbQueue.length, w.startOf (i + 1) < w'.playbackNs → i < d
  drained : w'.entriesDrained = drainedTo w.entriesDrained (w.pbQueue.take d)
  fileOps : w'.dispFileOps = w.dispFileOps + credits (w.pbQueue.take d)

/-- From `w₀` to `w`: `d` steps have left the queue, `n` have taken effect, `x` nanoseconds of the
step in front have been played, and `rest` is what the queue has become. -/
structure Progress (w₀ w : Worker σ) (rest : List PbStep) (d n : Nat) (x : ℚ) : Prop where
  prep : w.prepActive = false
  scale : w.scale = w₀.scale
  queue : (n = d ∧ x = 0 ∧ rest = w₀.pbQueue.drop d ∧ ∀ st ∈ rest, st.started = false) ∨
    (n = d + 1 ∧ ∃ st r, w₀.pbQueue.drop d = st :: r ∧ rest = st.cut x :: r ∧ 0 ≤ x ∧
      x ≤ st.unplayed ∧ ∀ st ∈ r, st.started = false)
  playback : w.playbackNs = w₀.startOf d + x
  flash : w.dispFlashNs = w₀.dispFlashNs + (w.playbackNs - w₀.playbackNs)
  effects : ∃ ts : List ℚ, ts.length = (w₀.begun n).length ∧
    w.toView = (w₀.beginAll (ts.zip (w₀.begun n))).toView
  drained : w.entriesDrained = drainedTo w₀.entriesDrained (w₀.pbQueue.take d)
  fileOps : w.dispFileOps = w₀.dispFileOps + credits (w₀.pbQueue.take d)

variable {w₀ w : Worker σ} {rest : List PbStep} {d n : Nat} {x : ℚ}

theorem take_next {q : List PbStep} {st : PbStep} {r : List PbStep} (h : q.drop d = st :: r) :
    q.take (d + 1) = q.take d ++ [st] ∧ q.drop (d + 1) = r ∧ d < q.length := by
  have hlen : d < q.length := by
    by_contra hge
    rw [List.drop_eq_nil_of_le (by omega)] at h
    cases h
  rw [List.drop_eq_getElem_cons hlen] at h
  obtain ⟨hst, hr⟩ := List.cons.inj h
  exact ⟨by rw [List.take_succ_eq_append_getElem hlen, hst], hr, hlen⟩

theorem eraseMs_congr {v w : Worker σ} (hscale : w.scale = v.scale) (ns : ℚ) :
    w.eraseMs ns = v.eraseMs ns := by
  unfold eraseMs
  rw [hscale]

theorem beginStep_view {v : Worker σ} (st : PbStep) (hview : w.toView = v.toView)
    (hscale : w.scale = v.scale) :
    (w.beginStep st).toView = (({ v with clock := w.clock } : Worker σ).beginStep st).toView := by
  obtain ⟨ctl, play, view, _⟩ := w
  obtain ⟨ctl', play', view', _⟩ := v
  obtain rfl : view = view' := hview
  unfold beginStep
  cases st.pstep with
  | none => rfl
  | some ps =>
    cases ps with
    | read ns page | prog ns page off len => rfl
    | erase ns sector =>
      exact congrArg (fun ms => ({ view with
        heat := view.heat.map _, events := view.events.push (.erase sector ms) } : View))
        (eraseMs_congr hscale ns)
    | whole ev =>
      cases ev with
      | reset | read off len ns | prog off len ns => rfl
      | erase sector off len ns =>
        exact congrArg (fun ms => ({ view with
          heat := view.heat.map _, events := view.events.push (.erase sector ms) } : View))
          (eraseMs_congr hscale ns)

theorem beginStep_ctl (st : PbStep) (w : Worker σ) : (w.beginStep st).toCtl = w.toCtl := by
  unfold beginStep
  cases st.pstep with
  | none => rfl
  | some ps =>
    cases ps with
    | read ns page | prog ns page off len | erase ns sector => rfl
    | whole ev => cases ev <;> rfl

theorem beginStep_play (st : PbStep) (w : Worker σ) : (w.beginStep st).toPlay = w.toPlay := by
  unfold beginStep
  cases st.pstep with
  | none => rfl
  | some ps =>
    cases ps with
    | read ns page | prog ns page off len | erase ns sector => rfl
    | whole ev => cases ev <;> rfl

theorem beginAll_ctl (xs : List (ℚ × PbStep)) (w : Worker σ) : (w.beginAll xs).toCtl = w.toCtl := by
  induction xs generalizing w with
  | nil => rfl
  | cons x xs ih => exact (ih _).trans (beginStep_ctl _ _)

theorem beginAll_concat (xs : List (ℚ × PbStep)) (x : ℚ × PbStep) (w : Worker σ) :
    w.beginAll (xs ++ [x]) = ({ w.beginAll xs with clock := x.1 } : Worker σ).beginStep x.2 := by
  simp [beginAll, List.foldl_append]

theorem closeStep_view (st : PbStep) (w : Worker σ) : (w.closeStep st).toView = w.toView := by
  unfold closeStep
  split <;> rfl

theorem closeStep_ctl (st : PbStep) (w : Worker σ) : (w.closeStep st).toCtl = w.toCtl := by
  unfold closeStep
  split <;> rfl

theorem closeStep_play (st : PbStep) (w : Worker σ) :
    (w.closeStep st).prepActive = w.prepActive ∧ (w.closeStep st).playbackNs = w.playbackNs ∧
      (w.closeStep st).dispFlashNs = w.dispFlashNs ∧
      (w.closeStep st).entriesDrained = drainedTo w.entriesDrained [st] ∧
      (w.closeStep st).dispFileOps = w.dispFileOps + credits [st] := by
  unfold closeStep drainedTo credits
  cases hst : st.last <;> simp [hst]

theorem drainedTo_append (e : Int) (q q' : List PbStep) :
    drainedTo e (q ++ q') = drainedTo (drainedTo e q) q' := by
  simp [drainedTo, List.foldl_append]

theorem credits_append (q q' : List PbStep) : credits (q ++ q') = credits q + credits q' := by
  simp [credits]

/-- A fresh step in front takes effect; one that is partly played already has. -/
theorem Progress.begin {step : PbStep} (hq : Playable w₀.pbQueue)
    (h : Progress w₀ w (step :: rest) d n x) :
    ∃ st, w₀.pbQueue.drop d = st :: rest ∧ step.unplayed = st.unplayed - x ∧
      (∀ v : Worker σ, v.closeStep step = v.closeStep st) ∧ step.cut = (st.cut x).cut ∧ n ≤ d + 1 ∧
      Progress w₀ (if step.started then w else w.beginStep step) (st.cut x :: rest) d (d + 1) x := by
  rcases h.queue with ⟨rfl, rfl, hdrop, hfresh⟩ | ⟨rfl, st, r, hdrop, hrest, hx, hle, hfresh⟩
  · have hstep : step.started = false := hfresh step List.mem_cons_self
    obtain ⟨htake, -, hlt⟩ := take_next hdrop.symm
    have hmem : step ∈ w₀.pbQueue := List.mem_of_mem_drop (hdrop ▸ List.mem_cons_self)
    have hplay := beginStep_play step w
    have hctl := beginStep_ctl step w
    rw [if_neg (Bool.eq_false_iff.mp hstep)]
    refine ⟨step, hdrop.symm, (sub_zero _).symm, fun _ => rfl, ?_, Nat.le_succ _, {
      prep := (congrArg Play.prepActive hplay).trans h.prep
      scale := (congrArg Ctl.scale hctl).trans h.scale
      queue := .inr ⟨rfl, step, rest, hdrop.symm, rfl, le_refl _, hq step hmem,
        fun st hst => hfresh st (List.mem_cons_of_mem _ hst)⟩
      playback := (congrArg Play.playbackNs hplay).trans h.playback
      flash := by
        rw [congrArg Play.dispFlashNs hplay, congrArg Play.playbackNs hplay]
        exact h.flash
      effects := ?_
      drained := (congrArg Play.entriesDrained hplay).trans h.drained
      fileOps := (congrArg Play.dispFileOps hplay).trans h.fileOps }⟩
    · funext y
      simp [PbStep.cut, PbStep.unplayed, hstep]
    · obtain ⟨ts, hts, hview⟩ := h.effects
      have hbegun : w₀.begun (n + 1) = w₀.begun n ++ [step] := by
        simp [begun, htake, List.filter_append, hstep]
      refine ⟨ts ++ [w.clock], by rw [hbegun, List.length_append, hts, List.length_append]; rfl, ?_⟩
      rw [hbegun, List.zip_append hts, List.zip_cons_cons, List.zip_nil_right, beginAll_concat]
      refine beginStep_view step hview (h.scale.trans ?_)
      exact (congrArg Ctl.scale (beginAll_ctl _ w₀)).symm
  · obtain ⟨rfl, rfl⟩ := List.cons.inj hrest
    exact ⟨st, hdrop, rfl, fun _ => rfl, rfl, le_refl _, h⟩

theorem Progress.finish {st : PbStep} (hdrop : w₀.pbQueue.drop d = st :: rest)
    (h : Progress w₀ w (st.cut x :: rest) d (d + 1) x) :
    Progress w₀ ((w.advance (st.unplayed - x)).closeStep st) rest (d + 1) (d + 1) 0 := by
  obtain ⟨htake, hrest, hlt⟩ := take_next hdrop
  obtain ⟨hprep, hpb, hfl, hed, hops⟩ := closeStep_play st (w.advance (st.unplayed - x))
  have hctl := closeStep_ctl st (w.advance (st.unplayed - x))
  have hfresh : ∀ s ∈ rest, s.started = false := by
    rcases h.queue with ⟨hn, -⟩ | ⟨-, st', r, -, hr, -, -, hfresh⟩
    · omega
    · exact (List.cons.inj hr).2 ▸ hfresh
  exact {
    prep := hprep.trans h.prep
    scale := (congrArg Ctl.scale hctl).trans h.scale
    queue := .inl ⟨rfl, rfl, hrest.symm, hfresh⟩
    playback := by
      rw [hpb]
      show w.playbackNs + (st.unplayed - x) = _
      rw [h.playback, startOf, startOf, htake, unplayedNs_append, unplayedNs_cons, unplayedNs_nil]
      ring
    flash := by
      rw [hpb, hfl]
      show w.dispFlashNs + (st.unplayed - x) = _ + (w.playbackNs + (st.unplayed - x) - _)
      rw [h.flash]
      ring
    effects := by
      rw [closeStep_view]
      exact h.effects
    drained := by
      rw [hed, htake, drainedTo_append, ← h.drained]
      rfl
    fileOps := by
      rw [hops, htake, credits_append, ← Nat.add_assoc, ← h.fileOps]
      rfl }

theorem Progress.part {st : PbStep} {b : ℚ} (hb : 0 ≤ b) (hle : x + b ≤ st.unplayed)
    (hdrop : w₀.pbQueue.drop d = st :: rest) (h : Progress w₀ w (st.cut x :: rest) d (d + 1) x) :
    Progress w₀ (w.advance b) (st.cut (x + b) :: rest) d (d + 1) (x + b) := by
  rcases h.queue with ⟨hn, -⟩ | ⟨-, st', r, hdrop', hr, hx, -, hfresh⟩
  · omega
  have hrest : rest = r := (List.cons.inj hr).2
  exact {
    prep := h.prep
    scale := h.scale
    queue := .inr ⟨rfl, st, rest, hdrop, rfl, add_nonneg hx hb, hle, hrest ▸ hfresh⟩
    playback := by
      show w.playbackNs + b = _
      rw [h.playback]
      ring
    flash := by
      show w.dispFlashNs + b = _ + (w.playbackNs + b - _)
      rw [h.flash]
      ring
    effects := h.effects
    drained := h.drained
    fileOps := h.fileOps }

theorem cut_cut (st : PbStep) (x y : ℚ) : (st.cut x).cut y = st.cut (x + y) := by
  simp [PbStep.cut, PbStep.unplayed, sub_sub]

/-- What a run of the drain loop has done, from `w` on: it stops at the end of the queue, after `k`
steps or at the end of the headroom. -/
structure Drained (w₀ w w' : Worker σ) (k : Nat) (b : Limit) (d n d' n' : Nat) (x : ℚ) : Prop where
  progress : Progress w₀ w' w'.pbQueue d' n' x
  left : d ≤ d'
  begun : n ≤ n'
  forward : w.playbackNs ≤ w'.playbackNs
  within : ((w'.playbackNs - w.playbackNs : ℚ) : Limit) ≤ b
  stops : w₀.pbQueue.length ≤ d' ∨ d + k ≤ d' ∨ ((w'.playbackNs - w.playbackNs : ℚ) : Limit) = b

theorem Progress.still {v : Worker σ} {k : Nat} {b : Limit} (hb : 0 ≤ b)
    (h : Progress w₀ v v.pbQueue d n x) (hv : v.playbackNs = w.playbackNs)
    (hstop : w₀.pbQueue.length ≤ d ∨ k = 0) : Drained w₀ w v k b d n d n x where
  progress := h
  left := le_refl d
  begun := le_refl n
  forward := hv.ge
  within := by
    rw [hv, sub_self]
    exact hb
  stops := hstop.imp_right fun hk => .inl (by omega)

/-- A step is played out before the rest. -/
theorem Drained.step {v w' : Worker σ} {k k' d' n' : Nat} {b b' : Limit} {c y : ℚ}
    (h : Drained w₀ v w' k' b' (d + 1) (d + 1) d' n' y) (hc : 0 ≤ c)
    (hv : v.playbackNs = w.playbackNs + c) (hb : (c : Limit) + b' = b) (hk : k ≤ k')
    (hn : n ≤ d + 1) : Drained w₀ w w' (k + 1) b d n d' n' y := by
  have hplayed : ((w'.playbackNs - w.playbackNs : ℚ) : Limit) =
      (c : Limit) + ((w'.playbackNs - v.playbackNs : ℚ) : Limit) := by
    rw [← WithTop.coe_add, hv]
    congr 1
    ring
  exact {
    progress := h.progress
    left := (Nat.le_succ d).trans h.left
    begun := hn.trans h.begun
    forward := by
      have := h.forward
      rw [hv] at this
      linarith
    within := by
      rw [hplayed, ← hb]
      exact add_le_add (le_refl _) h.within
    stops := by
      rcases h.stops with hend | hsteps | hall
      · exact .inl hend
      · exact .inr (.inl (by omega))
      · refine .inr (.inr ?_)
        rw [hplayed, hall, hb] }

/-- One run of the drain loop, by induction on the queue. -/
theorem drainLoop_progress (hq : Playable w₀.pbQueue) {k : Nat} {b : Limit} (hb : 0 ≤ b)
    (h : Progress w₀ w rest d n x) :
    ∃ d' n' y, Drained w₀ w (drainLoop rest k b w) k b d n d' n' y := by
  induction rest generalizing k b w d n x with
  | nil =>
    have hend : w₀.pbQueue.length ≤ d := by
      rcases h.queue with ⟨-, -, hdrop, -⟩ | ⟨-, st, r, -, hr, -⟩
      · exact List.drop_eq_nil_iff.mp hdrop.symm
      · cases hr
    exact ⟨d, n, x, Progress.still (v := { w with pbQueue := [] }) hb { h with } rfl (.inl hend)⟩
  | cons step rest ih =>
    cases k with
    | zero =>
      exact ⟨d, n, x, Progress.still (v := { w with pbQueue := step :: rest }) hb { h with } rfl
        (.inr rfl)⟩
    | succ k =>
      obtain ⟨st, hdrop, hunplayed, hclose, hcut, hn, hbegin⟩ := h.begin hq
      have hplayback : (if step.started then w else w.beginStep step).playbackNs = w.playbackNs := by
        split
        · rfl
        · exact congrArg Play.playbackNs (beginStep_play step w)
      have hnonneg : 0 ≤ st.unplayed - x := by
        rcases hbegin.queue with ⟨hd, -⟩ | ⟨-, st', r, hdrop', -, -, hle, -⟩
        · omega
        · obtain ⟨rfl, -⟩ := List.cons.inj (hdrop.symm.trans hdrop')
          exact sub_nonneg.mpr hle
      have hsteps : k ≤ if step.started then k + 1 else k := by
        split <;> omega
      unfold drainLoop
      dsimp only
      rw [hunplayed]
      simp only [hclose]
      generalize (if step.started then w else w.beginStep step) = w₁ at hbegin hplayback ⊢
      have hdone := hbegin.finish hdrop
      have hnext : ((w₁.advance (st.unplayed - x)).closeStep st).playbackNs =
          w.playbackNs + (st.unplayed - x) := by
        rw [(closeStep_play st _).2.1, ← hplayback]
        rfl
      induction b using WithTop.recTopCoe with
      | top =>
        obtain ⟨d', n', y, hrest⟩ := ih le_top hdone
        exact ⟨d', n', y, hrest.step hnonneg hnext (WithTop.add_top _) hsteps hn⟩
      | coe b =>
        have hb' : 0 ≤ b := WithTop.coe_le_coe.mp hb
        dsimp only
        split
        · rename_i hle
          obtain ⟨d', n', y, hrest⟩ := ih (WithTop.coe_le_coe.mpr (sub_nonneg.mpr hle)) hdone
          refine ⟨d', n', y, hrest.step hnonneg hnext ?_ hsteps hn⟩
          rw [← WithTop.coe_add]
          congr 1
          ring
        · rename_i hlt
          rw [not_le] at hlt
          have hpart := hbegin.part hb' (by linarith) hdrop
          have hqueue : ({ step with started := true, curRem := st.unplayed - x - b } : PbStep) =
              st.cut (x + b) := by
            rw [← cut_cut, ← congrFun hcut b, PbStep.cut, hunplayed]
          have hspent : (w₁.advance b).playbackNs - w.playbackNs = b := by
            show w₁.playbackNs + b - w.playbackNs = b
            rw [hplayback]
            ring
          rw [hqueue]
          exact ⟨d, d + 1, x + b, {
            progress := { hpart with }
            left := le_refl d
            begun := hn
            forward := by
              show w.playbackNs ≤ (w₁.advance b).playbackNs
              linarith
            within := (congrArg WithTop.some hspent).le
            stops := .inr (.inr (congrArg WithTop.some hspent)) }⟩

theorem meterAt_progress (hq : Playable w₀.pbQueue) (t : ℚ) (l : Limit)
    (h : Progress w₀ w w.pbQueue d n x) :
    ∃ d' n' y, Progress w₀ (w.meterAt (t, l)) (w.meterAt (t, l)).pbQueue d' n' y ∧ d ≤ d' ∧ n ≤ n' ∧
      w.playbackNs ≤ (w.meterAt (t, l)).playbackNs ∧
      ((w.meterAt (t, l)).playbackNs = w.playbackNs ∨ ((w.meterAt (t, l)).playbackNs : Limit) ≤ l) ∧
      (w₀.pbQueue.length ≤ d' ∨ d + 1 ≤ d' ∨ l ≤ (w.meterAt (t, l)).playbackNs) := by
  have hset : Progress w₀ ({ w with clock := t, playLimitNs := l } : Worker σ) w.pbQueue d n x :=
    { h with }
  have hbudget : ({ w with clock := t, playLimitNs := l } : Worker σ).budget =
      headroom l w.playbackNs := by
    unfold budget
    rw [if_neg (by simp [h.prep])]
  unfold meterAt meter
  dsimp only
  rw [hbudget]
  split
  · rename_i hnil
    have hend : w₀.pbQueue.length ≤ d := by
      rcases h.queue with ⟨-, -, hdrop, -⟩ | ⟨-, st, r, -, hr, -⟩
      · exact List.drop_eq_nil_iff.mp (hdrop.symm.trans hnil)
      · rw [hnil] at hr
        cases hr
    exact ⟨d, n, x, hset, le_refl d, le_refl n, le_refl _, .inl rfl, .inl hend⟩
  split
  · rename_i hnone
    refine ⟨d, n, x, hset, le_refl d, le_refl n, le_refl _, .inl rfl, .inr (.inr ?_)⟩
    rw [not_lt] at hnone
    induction l using WithTop.recTopCoe with
    | top => exact absurd hnone (by simp [headroom])
    | coe l =>
      rw [headroom_coe] at hnone
      have := WithTop.coe_le_coe.mp hnone
      exact WithTop.coe_le_coe.mpr (by linarith)
  · rename_i hsome
    rw [not_not] at hsome
    obtain ⟨d', n', y, hdrain⟩ := drainLoop_progress hq (k := MAX_OPS_PER_FRAME) hsome.le hset
    refine ⟨d', n', y, hdrain.progress, hdrain.left, hdrain.begun, hdrain.forward, .inr ?_, ?_⟩
    · have hwithin := hdrain.within
      induction l using WithTop.recTopCoe with
      | top => exact le_top
      | coe l =>
        rw [headroom_coe] at hwithin
        exact WithTop.coe_le_coe.mpr (sub_le_sub_iff_right w.playbackNs |>.mp
          (WithTop.coe_le_coe.mp hwithin))
    · rcases hdrain.stops with hend | hsteps | hall
      · exact .inl hend
      · exact .inr (.inl ((Nat.add_le_add_left (by decide) d).trans hsteps))
      · refine .inr (.inr ?_)
        induction l using WithTop.recTopCoe with
        | top => cases hall
        | coe l =>
          rw [headroom_coe] at hall
          exact WithTop.coe_le_coe.mpr (sub_left_inj.mp (WithTop.coe_injective hall)).ge

theorem run_progress (hq : Playable w₀.pbQueue) {L : Limit} {calls : List (ℚ × Limit)}
    (hcalls : ∀ c ∈ calls, c.2 ≤ L) (h : Progress w₀ w w.pbQueue d n x) :
    ∃ d' n' y, Progress w₀ (run meterAt w calls) (run meterAt w calls).pbQueue d' n' y ∧
      d ≤ d' ∧ n ≤ n' ∧ w.playbackNs ≤ (run meterAt w calls).playbackNs ∧
      ((run meterAt w calls).playbackNs : Limit) ≤ max (w.playbackNs : Limit) L ∧
      ((∀ c ∈ calls, c.2 = L) → w₀.pbQueue.length ≤ d' ∨ d + calls.length ≤ d' ∨
        calls ≠ [] ∧ L ≤ (run meterAt w calls).playbackNs) := by
  induction calls generalizing w d n x with
  | nil => exact ⟨d, n, x, h, le_refl d, le_refl n, le_refl _, le_max_left _ _, fun _ => .inr (.inl (le_refl d))⟩
  | cons c calls ih =>
    obtain ⟨t, l⟩ := c
    have hl : l ≤ L := hcalls (t, l) List.mem_cons_self
    obtain ⟨d₁, n₁, y₁, h₁, hd₁, hn₁, hforward₁, hwithin₁, hstops₁⟩ := meterAt_progress hq t l h
    obtain ⟨d', n', y, h', hd, hn, hforward, hwithin, hstops⟩ :=
      ih (fun c hc => hcalls c (List.mem_cons_of_mem _ hc)) h₁
    refine ⟨d', n', y, h', hd₁.trans hd, hn₁.trans hn, hforward₁.trans hforward, ?_, ?_⟩
    · refine hwithin.trans (max_le ?_ (le_max_right _ _))
      rcases hwithin₁ with heq | hle
      · exact heq ▸ le_max_left _ _
      · exact (hle.trans hl).trans (le_max_right _ _)
    · intro hall
      have hrest := hstops fun c hc => hall c (List.mem_cons_of_mem _ hc)
      have hlL : l = L := hall (t, l) List.mem_cons_self
      rcases hstops₁ with hend | hone | hlim
      · exact .inl (hend.trans hd)
      · rcases hrest with hend | hsteps | ⟨-, hlim⟩
        · exact .inl hend
        · refine .inr (.inl ?_)
          rw [List.length_cons]
          omega
        · exact .inr (.inr ⟨List.cons_ne_nil _ _, hlim⟩)
      · refine .inr (.inr ⟨List.cons_ne_nil _ _, ?_⟩)
        rw [← hlL]
        exact hlim.trans (WithTop.coe_le_coe.mpr hforward)

theorem unplayedNs_take_le {q : List PbStep} (hq : Playable q) {i j : Nat} (hij : i ≤ j) :
    unplayedNs (q.take i) ≤ unplayedNs (q.take j) := by
  obtain ⟨e, rfl⟩ := Nat.exists_eq_add_of_le hij
  rw [List.take_add, unplayedNs_append]
  have hrest : Playable ((q.drop i).take e) := fun st hst =>
    hq st (List.mem_of_mem_drop (List.mem_of_mem_take hst))
  have := hrest.unplayedNs_nonneg
  linarith

theorem Progress.start (hprep : w.prepActive = false) (hq : PlayQueue w.pbQueue) :
    ∃ n, Progress w w w.pbQueue 0 n 0 := by
  have hview (m : Nat) (hm : w.begun m = []) : ∃ ts : List ℚ, ts.length = (w.begun m).length ∧
      w.toView = (w.beginAll (ts.zip (w.begun m))).toView := by
    rw [hm]
    exact ⟨[], rfl, rfl⟩
  have hcommon (m : Nat) (hm : w.begun m = [])
      (hqueue : (m = 0 ∧ (0 : ℚ) = 0 ∧ w.pbQueue = w.pbQueue.drop 0 ∧ ∀ st ∈ w.pbQueue, st.started = false) ∨
        (m = 0 + 1 ∧ ∃ st r, w.pbQueue.drop 0 = st :: r ∧ w.pbQueue = st.cut 0 :: r ∧ (0 : ℚ) ≤ 0 ∧
          0 ≤ st.unplayed ∧ ∀ st ∈ r, st.started = false)) : Progress w w w.pbQueue 0 m 0 := {
    prep := hprep
    scale := rfl
    queue := hqueue
    playback := by simp [startOf]
    flash := by simp
    effects := hview m hm
    drained := rfl
    fileOps := rfl }
  cases hpb : w.pbQueue with
  | nil => exact ⟨0, hpb ▸ hcommon 0 (by simp [begun]) (.inl ⟨rfl, rfl, rfl, by simp [hpb]⟩)⟩
  | cons st r =>
    have hfresh : ∀ s ∈ r, s.started = false := by
      have := hq.fresh
      rwa [hpb] at this
    cases hst : st.started with
    | false =>
      refine ⟨0, hpb ▸ hcommon 0 (by simp [begun]) (.inl ⟨rfl, rfl, rfl, ?_⟩)⟩
      rw [hpb]
      exact List.forall_mem_cons.mpr ⟨hst, hfresh⟩
    | true =>
      have hcut : st.cut 0 = st := by
        simp only [PbStep.cut, PbStep.unplayed, hst, if_true, sub_zero]
        rw [← hst]
      refine ⟨1, hpb ▸ hcommon 1 (by simp [begun, hpb, hst]) (.inr ⟨rfl, st, r, ?_, ?_, le_refl _,
        hq.nonneg st (hpb ▸ List.mem_cons_self), hfresh⟩)⟩
      · exact hpb
      · rw [hcut]
        exact hpb

theorem startOf_le (hq : Playable w₀.pbQueue) {i j : Nat} (hij : i ≤ j) :
    w₀.startOf i ≤ w₀.startOf j :=
  add_le_add (le_refl _) (unplayedNs_take_le hq hij)

/-- Where playback stands among the steps. -/
theorem Progress.position (h : Progress w₀ w rest d n x) :
    n ≤ d + 1 ∧ w₀.startOf d ≤ w.playbackNs ∧ w.playbackNs ≤ w₀.startOf n := by
  rw [h.playback]
  rcases h.queue with ⟨rfl, rfl, -⟩ | ⟨rfl, st, r, hdrop, -, hx, hle, -⟩
  · rw [add_zero]
    exact ⟨Nat.le_succ _, le_refl _, le_refl _⟩
  · refine ⟨le_refl _, by linarith, ?_⟩
    rw [startOf, startOf, (take_next hdrop).1, unplayedNs_append, unplayedNs_cons, unplayedNs_nil]
    linarith

theorem Progress.played (hq : Playable w₀.pbQueue) (h : Progress w₀ w rest d n x) :
    Played w₀ w d n := by
  obtain ⟨hn, hlow, hhigh⟩ := h.position
  exact {
    flash := h.flash
    effects := h.effects
    before := fun i _ hi => by
      by_contra hge
      exact absurd (hi.trans_le hhigh) (not_lt.mpr (startOf_le hq (Nat.le_of_not_lt hge)))
    after := fun i hi => (startOf_le hq (by omega)).trans hlow
    ended := fun i _ hi => by
      by_contra hge
      exact absurd (hi.trans_le hhigh) (not_lt.mpr (startOf_le hq (by omega)))
    drained := h.drained
    fileOps := h.fileOps }

theorem Progress.le_total (hq : Playable w₀.pbQueue) (h : Progress w₀ w rest d n x) :
    w.playbackNs ≤ w₀.playbackNs + unplayedNs w₀.pbQueue := by
  have hall : w₀.startOf (max n w₀.pbQueue.length) = w₀.playbackNs + unplayedNs w₀.pbQueue := by
    rw [startOf, List.take_of_length_le (le_max_right _ _)]
  rw [← hall]
  exact h.position.2.2.trans (startOf_le hq (le_max_left _ _))

/-- The indices of the markers of `q` ascend from `e` on. -/
def Ascends (e : Int) (q : List PbStep) : Prop :=
  (e :: (q.filter (·.last)).map fun st => (st.entryIndex : Int)).Pairwise (· ≤ ·)

theorem Ascends.tail {e : Int} {st : PbStep} {q : List PbStep} (h : Ascends e (st :: q)) :
    e ≤ drainedTo e [st] ∧ Ascends (drainedTo e [st]) q := by
  unfold Ascends at h ⊢
  cases hst : st.last with
  | false =>
    have he : drainedTo e [st] = e := by simp [drainedTo, hst]
    rw [List.filter_cons_of_neg (by simp [hst])] at h
    rw [he]
    exact ⟨le_refl e, h⟩
  | true =>
    have he : drainedTo e [st] = st.entryIndex := by simp [drainedTo, hst]
    rw [List.filter_cons_of_pos (by simp [hst]), List.map_cons] at h
    obtain ⟨hle, hrest⟩ := List.pairwise_cons.mp h
    rw [he]
    exact ⟨hle _ List.mem_cons_self, hrest⟩

theorem drainedTo_mono {e : Int} {q : List PbStep} (h : Ascends e q) {i j : Nat} (hij : i ≤ j) :
    drainedTo e (q.take i) ≤ drainedTo e (q.take j) := by
  induction q generalizing e i j with
  | nil => simp
  | cons st q ih =>
    obtain ⟨hle, hrest⟩ := h.tail
    cases j with
    | zero => exact (Nat.le_zero.mp hij) ▸ le_refl _
    | succ j =>
      cases i with
      | zero => exact hle.trans (ih hrest (Nat.zero_le j))
      | succ i => exact ih hrest (Nat.le_of_succ_le_succ hij)

/-- **Metered drain.** However the headroom is cut into limits up to `L`, with enough calls at `L`
playback ends at `min (max P L) (P + R)`.  After each call the queue is played as far as playback
stands, and no marker is credited before one in front of it. -/
theorem drain_any_cut {L : Limit} {pre post : List (ℚ × Limit)} (hprep : w.prepActive = false)
    (hq : PlayQueue w.pbQueue) (hpre : (pre.map Prod.snd ++ [L]).Pairwise (· ≤ ·))
    (hpost : ∀ c ∈ post, c.2 = L) (henough : w.pbQueue.length ≤ post.length) :
    ((run meterAt w (pre ++ post)).playbackNs : Limit) =
        min (max (w.playbackNs : Limit) L) ((w.playbackNs + unplayedNs w.pbQueue : ℚ) : Limit) ∧
      ∀ calls, calls <+: pre ++ post → ∃ d d' n n', d ≤ d' ∧ n ≤ n' ∧
        Played w (run meterAt w calls) d n ∧ Played w (run meterAt w (pre ++ post)) d' n' ∧
        (Ascends w.entriesDrained w.pbQueue →
          (run meterAt w calls).entriesDrained ≤ (run meterAt w (pre ++ post)).entriesDrained) := by
  have hpreL : ∀ c ∈ pre, c.2 ≤ L := fun c hc =>
    (List.pairwise_append.mp hpre).2.2 c.2 (List.mem_map_of_mem hc) L List.mem_cons_self
  have hpostL : ∀ c ∈ post, c.2 ≤ L := fun c hc => (hpost c hc).le
  have hallL : ∀ c ∈ pre ++ post, c.2 ≤ L := fun c hc =>
    (List.mem_append.mp hc).elim (hpreL c) (hpostL c)
  obtain ⟨n₀, hstart⟩ := Progress.start hprep hq
  constructor
  · obtain ⟨d₁, n₁, y₁, h₁, -, -, hforward₁, hwithin₁, -⟩ := run_progress hq.nonneg hpreL hstart
    obtain ⟨d, n, y, h, -, -, hforward, hwithin, hstops⟩ := run_progress hq.nonneg hpostL h₁
    rw [← run_append] at h hforward hwithin hstops
    have hmax : ((run meterAt w (pre ++ post)).playbackNs : Limit) ≤ max (w.playbackNs : Limit) L :=
      hwithin.trans (max_le hwithin₁ (le_max_right _ _))
    refine le_antisymm (le_min hmax (WithTop.coe_le_coe.mpr (h.le_total hq.nonneg))) ?_
    have hend : w.pbQueue.length ≤ d ∨ L ≤ (run meterAt w (pre ++ post)).playbackNs := by
      rcases hstops hpost with hend | hsteps | ⟨-, hlim⟩
      · exact .inl hend
      · exact .inl (henough.trans (le_trans (Nat.le_add_left _ _) hsteps))
      · exact .inr hlim
    rcases hend with hend | hlim
    · refine (min_le_right _ _).trans (WithTop.coe_le_coe.mpr ?_)
      have hlow := h.position.2.1
      rwa [startOf, List.take_of_length_le hend] at hlow
    · refine (min_le_left _ _).trans (max_le ?_ hlim)
      exact WithTop.coe_le_coe.mpr (hforward₁.trans hforward)
  · rintro calls ⟨more, hcalls⟩
    rw [← hcalls] at hallL ⊢
    obtain ⟨d, n, y, h, -⟩ := run_progress hq.nonneg
      (fun c hc => hallL c (List.mem_append_left _ hc)) hstart
    obtain ⟨d', n', y', h', hd, hn, -⟩ := run_progress hq.nonneg
      (fun c hc => hallL c (List.mem_append_right _ hc)) h
    rw [← run_append] at h'
    refine ⟨d, d', n, n', hd, hn, h.played hq.nonneg, h'.played hq.nonneg, fun hasc => ?_⟩
    rw [h.drained, h'.drained]
    exact drainedTo_mono hasc hd

/-- A queue with a partly played step, a step, the marker of their entry and one more step. -/
def shortQueue : List PbStep :=
  [{ entryIndex := 0, ns := 10, pstep := some (.read 10 0), fileOps := 0, last := false
     started := true, curRem := 4 },
   { entryIndex := 0, ns := 6, pstep := some (.read 6 1), fileOps := 0, last := false },
   { entryIndex := 0, ns := 0, pstep := none, fileOps := 1, last := true },
   { entryIndex := 1, ns := 8, pstep := some (.read 8 2), fileOps := 0, last := false }]

/-- Limits 3, 12 and then 15 to the end, from position 0. -/
theorem drain_any_cut_short :
    ((run meterAt { pbQueue := shortQueue } ([(0, 3), (1, 12)] ++ List.replicate 4 (2, 15)) :
        Worker Unit).playbackNs : Limit) = 15 := by
  have hq : PlayQueue ({ pbQueue := shortQueue } : Worker Unit).pbQueue :=
    ⟨by unfold Playable; decide +kernel, by decide +kernel⟩
  have hpre : ((([(0, 3), (1, 12)] : List (ℚ × Limit)).map Prod.snd) ++ [15]).Pairwise (· ≤ ·) := by
    decide +kernel
  have hpost : ∀ c ∈ (List.replicate 4 (2, 15) : List (ℚ × Limit)), c.2 = 15 := by decide +kernel
  rw [(drain_any_cut rfl hq hpre hpost (by decide +kernel)).1]
  decide +kernel

end Worker
end FlashVis
