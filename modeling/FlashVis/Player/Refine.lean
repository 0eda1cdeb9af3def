import FlashVis.Player.Calls

/-!
# A worker is a player

A task of a worker takes at most one message and makes moves of its player (`Worker.core`).  This
module has the moves as a relation and the functions of the worker that only touch the queue;
`FlashVis.Player.Tasks` goes on to whole tasks.

* `Moves ok p q`            `q` is reached from `p` by enabled moves that satisfy `ok`;
* `Worker.allows H w i p m` task `i` of worker `w` can make move `m` from `p`.
-/

namespace FlashVis

/-- Enabled moves, all of them satisfying `ok`. -/
def Moves (ok : Player → Move → Prop) : Player → Player → Prop :=
  Relation.ReflTransGen fun p q => ∃ m, ok p m ∧ p.Enabled m ∧ q = p.apply m

namespace Moves
variable {ok ok' : Player → Move → Prop} {p q r : Player}

theorem refl : Moves ok p p := Relation.ReflTransGen.refl

theorem trans (h : Moves ok p q) (h' : Moves ok q r) : Moves ok p r :=
  Relation.ReflTransGen.trans h h'

theorem one {m : Move} (hm : ok p m) (he : p.Enabled m) (hq : q = p.apply m) : Moves ok p q :=
  Relation.ReflTransGen.single ⟨m, hm, he, hq⟩

/-- **Invariant rule of the player.** -/
theorem inv {I : Player → Prop} (hI : ∀ p m, ok p m → p.Enabled m → I p → I (p.apply m))
    (h : Moves ok p q) (hp : I p) : I q := by
  induction h with
  | refl => exact hp
  | tail _ hs ih =>
    obtain ⟨m, ho, he, rfl⟩ := hs
    exact hI _ m ho he ih

end Moves

/-- Tasks that run the pump. -/
def WIn.pumps : WIn → Bool
  | .msg (.entries _ _) | .msg (.grant _ _) | .built _ _ | .cmd _ .timer => true
  | _ => false

/-- A runner of these modules throws on this call. -/
def RCall.throws {σ : Type} (H : Host σ) (c : RCall) : Prop :=
  ∃ (r : Runner σ) (e : String), (r.exec H.wasm c).val = .error e

/-- The moves of the pump. -/
def Move.ofPump {σ : Type} (H : Host σ) : Move → Prop
  | .exec _ _ _ _ | .start | .syntaxError | .openPrep | .closePrep _ | .commit _ _ => True
  | .fail call => call.throws H
  | _ => False

/-- The moves that task `i` can make in worker `w`, the player being `p` by then. -/
def Worker.allows {σ : Type} (H : Host σ) (w : Worker σ) (i : WIn) (p : Player) : Move → Prop
  | .exec _ _ _ _ | .start | .syntaxError | .openPrep | .closePrep _ | .commit _ _ | .meter | .ack =>
    i.pumps = true
  | .fail call => i.pumps = true ∧ call.throws H
  | .close _ _ => ∃ id, i = .cmd id .timer
  -- an operation is the only move of its task, so it meets the worker as the task found it
  | .op idx _ _ _ => p = w.core ∧ ∃ id j c, i = .cmd id (.task j) ∧ w.cmds[id]? = some c ∧
      c.gen = w.gen ∧ c.index = idx
  | .wipe => p = w.core ∧ ∃ id j c, i = .cmd id (.task j) ∧ w.cmds[id]? = some c ∧ c.gen = w.gen
  | .prep v => ∃ id, i = .cmd id (.call (.prep v))
  | .post _ => i = .telemetry ∨ ∃ e sel, i = .msg (.pull e sel)
  | .land b | .drop b => ∃ ok, i = .built b ok

namespace HeatPlayer

theorem foldl_geometry {α : Type} (f : HeatPlayer → α → HeatPlayer)
    (hf : ∀ h a, (f h a).geometry = h.geometry) (l : List α) (h : HeatPlayer) :
    (l.foldl f h).geometry = h.geometry := by
  induction l generalizing h with
  | nil => rfl
  | cons a l ih => rw [List.foldl_cons, ih, hf]

theorem applyEvent_geometry (now : ℚ) (ev : DevEvent) (h : HeatPlayer) :
    (h.applyEvent now ev).geometry = h.geometry := by
  cases ev with
  | reset => rfl
  | erase s off len ns => rfl
  | prog off len ns =>
    unfold applyEvent
    exact foldl_geometry (fun h p => h.progPage p off len) (fun _ _ => rfl) _ _
  | read off len ns =>
    unfold applyEvent
    exact foldl_geometry (fun h p => h.bumpRead p) (fun _ _ => rfl) _ _

theorem applyStep_geometry (now : ℚ) (ps : PStep) (h : HeatPlayer) :
    (h.applyStep now ps).geometry = h.geometry := by
  cases ps with
  | whole ev => exact applyEvent_geometry now ev h
  | erase _ _ | prog _ _ _ _ | read _ _ => rfl

theorem decayCell_geometry (k : ℚ) (p : Nat) (h : HeatPlayer) :
    (h.decayCell k p).geometry = h.geometry := by
  unfold decayCell
  dsimp only
  split <;> rfl

theorem snapshotHeat_geometry (pow : ℚ → ℚ) (now scale : ℚ) (h : HeatPlayer) :
    (h.snapshotHeat pow now scale).geometry = h.geometry := by
  unfold snapshotHeat
  dsimp only
  split
  · exact foldl_geometry _ (fun _ _ => decayCell_geometry _ _ _) _ _
  · rfl

theorem sum_map_share {α : Type} (ns : ℚ) (l : List α) (f : α → PStep)
    (hf : ∀ a, (f a).ns = ns / l.length) :
    ((l.map f).map PStep.ns).sum = if l.length = 0 then 0 else ns := by
  have h1 : ∀ k : List α, ((k.map f).map PStep.ns).sum = k.length * (ns / l.length) := by
    intro k
    induction k with
    | nil => simp
    | cons a k ih =>
      rw [List.map_cons, List.map_cons, List.sum_cons, ih, hf, List.length_cons]
      push_cast
      ring
  rw [h1]
  split
  · simp_all
  · have : (l.length : ℚ) ≠ 0 := Nat.cast_ne_zero.mpr ‹_›
    field_simp

/-- The per-page steps of an event carry its cost, unless it touches no page. -/
theorem stepsFor_sum (ev : DevEvent) (h : HeatPlayer) :
    ((h.stepsFor ev).map PStep.ns).sum = Player.splitNs (some h.geometry.pageSize) ev := by
  cases ev with
  | reset => rfl
  | erase s off len ns => simp [stepsFor, PStep.ns, Player.splitNs]
  | prog off len ns =>
    rw [stepsFor, sum_map_share ns _ _ fun _ => rfl]
    simp [Player.splitNs, pagesOf, pageOf]
  | read off len ns =>
    rw [stepsFor, sum_map_share ns _ _ fun _ => rfl]
    simp [Player.splitNs, pagesOf, pageOf]

theorem stepsFor_nonneg (ev : DevEvent) (hev : 0 ≤ ev.ns) (h : HeatPlayer) :
    ∀ ps ∈ h.stepsFor ev, 0 ≤ ps.ns := by
  intro ps hps
  cases ev with
  | reset => simp [stepsFor] at hps
  | erase s off len ns =>
    rw [stepsFor, List.mem_singleton] at hps
    exact hps ▸ hev
  | prog off len ns =>
    obtain ⟨p, _, rfl⟩ := List.mem_map.mp hps
    exact div_nonneg hev (Nat.cast_nonneg _)
  | read off len ns =>
    obtain ⟨p, _, rfl⟩ := List.mem_map.mp hps
    exact div_nonneg hev (Nat.cast_nonneg _)

end HeatPlayer

namespace Worker
variable {σ : Type}

/-! ## enqueueing and metering -/

theorem stepsOfBatch_for (w : Worker σ) (idx : Nat) (batch : List DevEvent)
    (hb : ∀ ev ∈ batch, 0 ≤ ev.ns) :
    Player.batchFor w.core.pageSize idx batch (w.stepsOfBatch idx batch) := by
  refine ⟨hb, ?_, ?_⟩
  · intro s hs
    obtain ⟨ev, hev, hs⟩ := List.mem_flatMap.mp hs
    obtain ⟨ps, hps, rfl⟩ := List.mem_map.mp hs
    refine ⟨rfl, rfl, rfl, ?_⟩
    unfold stepsOf at hps
    cases hh : w.heat with
    | some h => rw [hh] at hps; exact HeatPlayer.stepsFor_nonneg ev (hb ev hev) h ps hps
    | none => rw [hh, List.mem_singleton] at hps; subst hps; exact hb ev hev
  · induction batch with
    | nil => rfl
    | cons ev batch ih =>
      have ih' := ih fun e he => hb e (List.mem_cons_of_mem _ he)
      have hone : (((w.stepsOf ev).map (queued idx)).map (·.ns)).sum
          = Player.splitNs w.core.pageSize ev := by
        rw [List.map_map]
        show ((w.stepsOf ev).map PStep.ns).sum = _
        unfold stepsOf core
        cases w.heat with
        | some h => exact HeatPlayer.stepsFor_sum ev h
        | none => cases ev <;> simp [PStep.ns, Player.splitNs, DevEvent.ns]
      simp only [stepsOfBatch, List.flatMap_cons, List.map_append, List.sum_append, List.map_cons,
        List.sum_cons] at ih' ⊢
      rw [hone, ih']

theorem applyEager_core (w : Worker σ) (ev : DevEvent) :
    (w.applyEager ev).core = w.core.advance ev.ns := by
  have hg : (w.heat.map (HeatPlayer.applyEvent w.clock ev)).map (·.geometry.pageSize)
      = w.heat.map (·.geometry.pageSize) := by
    rw [Option.map_map]
    congr 1
    funext h
    exact congrArg Geometry.pageSize (HeatPlayer.applyEvent_geometry _ _ _)
  cases ev <;> simp only [applyEager, core, Player.advance, hg]

theorem foldEager_core (batch : List DevEvent) (w : Worker σ) :
    (batch.foldl applyEager w).core = w.core.advance (batch.map DevEvent.ns).sum := by
  induction batch generalizing w with
  | nil => simp [Player.advance]
  | cons ev batch ih =>
    rw [List.foldl_cons, ih, applyEager_core]
    simp [Player.advance, add_assoc]

theorem enqueueBatch_core (idx : Nat) (batch : List DevEvent) (last : Bool) (ops : Nat)
    (w : Worker σ) : (w.enqueueBatch idx batch last ops).core
      = w.core.enqueue idx batch (w.stepsOfBatch idx batch) last ops := by
  unfold enqueueBatch Player.enqueue
  dsimp only
  by_cases hp : w.prepActive = true
  · have hf := foldEager_core batch
      { w with hist := w.hist ++ [.enqueued idx batch w.prepActive] }
    rw [if_pos hp, if_pos (show w.core.prepActive = true from hp)]
    cases last with
    | true =>
      simp only [if_true]
      have h1 : ∀ v : Worker σ, ({ v with
          entriesDrained := (idx : Int), dispFileOps := v.dispFileOps + ops } : Worker σ).core
          = { v.core with entriesDrained := (idx : Int), fileOps := v.core.fileOps + ops } :=
        fun _ => rfl
      rw [h1, hf]
      rfl
    | false =>
      simp only [Bool.false_eq_true, if_false]
      rw [hf]
      rfl
  · rw [if_neg hp, if_neg (show ¬ w.core.prepActive = true from hp)]
    rfl

theorem beginStep_core (step : PbStep) (w : Worker σ) : (w.beginStep step).core = w.core := by
  unfold beginStep
  cases step.pstep with
  | none => rfl
  | some ps =>
    have hg : (w.heat.map (HeatPlayer.applyStep w.clock ps)).map (·.geometry.pageSize)
        = w.heat.map (·.geometry.pageSize) := by
      rw [Option.map_map]
      congr 1
      funext h
      exact congrArg Geometry.pageSize (HeatPlayer.applyStep_geometry _ _ _)
    dsimp only
    split <;> simp only [core, hg]

theorem advance_core (ns : ℚ) (w : Worker σ) : (w.advance ns).core = w.core.advance ns := rfl

theorem closeStep_core (step : PbStep) (w : Worker σ) :
    (w.closeStep step).core = w.core.closeStep step := by
  unfold closeStep Player.closeStep
  split <;> rfl

theorem drainLoop_core (q : List PbStep) (k : Nat) (b : Limit) (w : Worker σ) :
    (drainLoop q k b w).core = Player.playLoop q k b w.core := by
  induction q generalizing k b w with
  | nil => rfl
  | cons step rest ih =>
    cases k with
    | zero => rfl
    | succ k =>
      have hw : (if step.started = true then w else w.beginStep step).core = w.core := by
        split
        · rfl
        · exact beginStep_core step w
      unfold drainLoop Player.playLoop
      dsimp only
      induction b using WithTop.recTopCoe with
      | top => simp only [ih, closeStep_core, advance_core, hw]
      | coe b =>
        simp only
        split
        · simp only [ih, closeStep_core, advance_core, hw]
        · exact congrArg (fun p : Player => { p.advance b with
            queue := { step with started := true, curRem := step.unplayed - b } :: rest }) hw

theorem meter_core (w : Worker σ) : w.meter.1.core = w.core.meter := by
  unfold meter Player.meter
  by_cases hq : w.pbQueue = []
  · rw [if_pos hq, if_pos (show w.core.queue = [] from hq)]
  · rw [if_neg hq, if_neg (show ¬ w.core.queue = [] from hq)]
    by_cases hb : 0 < w.budget
    · rw [if_neg (not_not.mpr hb), if_neg (not_not.mpr (show 0 < w.core.budget from hb))]
      exact drainLoop_core _ _ _ _
    · rw [if_pos hb, if_pos (show ¬ 0 < w.core.budget from hb)]

/-! ## runner calls -/

theorem useRunner_core {H : Host σ} {c : RCall} (hc : c ≠ .format) (w : Worker σ)
    (hr : w.runner.isSome) :
    (useRunner H c w).2.core = w.core ∧ ∃ evs : List DevEvent, (∀ ev ∈ evs, 0 ≤ ev.ns) ∧
      (useRunner H c w).2.captureBatch = w.captureBatch.map (· ++ evs) := by
  obtain ⟨r, hr⟩ := Option.isSome_iff_exists.mp hr
  obtain ⟨val, v, r', evs, hv, hb, hns, heq⟩ := useRunner_tame H c hc w r hr
  rw [heq]
  refine ⟨?_, evs, hns, rfl⟩
  simp only [core, hv, hr, Option.map_some, hb]

/-- `format()` drops the queue and the running total. -/
theorem useRunner_format_core {H : Host σ} (w : Worker σ) (hr : w.runner.isSome) :
    (useRunner H .format w).2.core = w.core.wipe ∧ ∃ evs : List DevEvent,
      (∀ ev ∈ evs, 0 ≤ ev.ns) ∧
      (useRunner H .format w).2.captureBatch = w.captureBatch.map (· ++ evs) := by
  obtain ⟨r, hr⟩ := Option.isSome_iff_exists.mp hr
  obtain ⟨val, v, r', evs, hv, hb, hns, heq⟩ := useRunner_format H w r hr
  have hv' : v.heat.map (·.geometry.pageSize) = w.heat.map (·.geometry.pageSize) := by
    have h := congrArg (Option.map Geometry.pageSize) hv
    rw [Option.map_map, Option.map_map] at h
    exact h
  rw [heq]
  refine ⟨?_, evs, hns, rfl⟩
  simp only [core, hv', hr, Option.map_some, hb, Player.wipe]

theorem useRunner_val {H : Host σ} {c : RCall} {w : Worker σ} {r : Runner σ}
    (hr : w.runner = some r) : (useRunner H c w).1 = (r.exec H.wasm c).val := by
  simp only [useRunner, hr]

end Worker
end FlashVis
