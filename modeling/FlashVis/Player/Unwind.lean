import FlashVis.Player.History
import FlashVis.Player.Runs
import FlashVis.System

/-!
# A runner call that throws

The call of an event or gc entry throws out of `execRealEntry`, through the pump, the drain and the
handler: what comes after it is skipped, the ack and the closing of the capture sink included, and
the cursor still stands on the entry.

* `Holds H call w`      the capture sink of `w` still holds what the failed `call` emitted;
* `step_fail`           what a task in which a call throws leaves behind;
* `Contained H w x`     what it would mean for the throw in task `x` to be contained;
* `throw_uncontained`   every throw is reissued by the next such GRANT, blocks the entries after it,
  leaves the sink open and a GRANT unacked.
-/

namespace FlashVis
namespace Worker
variable {σ : Type} {H : Host σ} {call : RCall}

/-- The capture sink is open and holds the events of a failed call. -/
def Holds (H : Host σ) (call : RCall) (w : Worker σ) : Prop :=
  ∃ (r : Runner σ) (e : String), (r.exec H.wasm call).val = .error e ∧
    w.captureBatch = some ((r.exec H.wasm call).events.filter (· ≠ .reset))

theorem foldDevice_capture (evs batch : List DevEvent) (w : Worker σ)
    (h : w.captureBatch = some batch) :
    (evs.foldl onDevice w).captureBatch = some (batch ++ evs.filter (· ≠ .reset)) := by
  induction evs generalizing w batch with
  | nil => simpa using h
  | cons ev evs ih =>
    cases ev with
    | reset =>
      rw [List.foldl_cons, ih batch _ (show (w.onDevice .reset).captureBatch = _ from h)]
      simp
    | read a b c =>
      rw [List.foldl_cons, ih (batch ++ [.read a b c]) _ (by simp [onDevice, h])]
      simp
    | prog a b c =>
      rw [List.foldl_cons, ih (batch ++ [.prog a b c]) _ (by simp [onDevice, h])]
      simp
    | erase a b c d =>
      rw [List.foldl_cons, ih (batch ++ [.erase a b c d]) _ (by simp [onDevice, h])]
      simp

/-! ## from the entry out to the task -/

theorem execRealEntry_fail {w : Worker σ} {e : Entry} (hrun : w.runner.isSome)
    (h : w.execMove H w.cursor e = .fail call) :
    (w.execRealEntry H w.cursor e).thrown.isSome ∧ Holds H call (w.execRealEntry H w.cursor e).w := by
  unfold execMove at h
  unfold execRealEntry
  dsimp only at h ⊢
  have hb := openEntry_capture ((entryCall e).map Prod.fst) w
  have hr := openEntry_runner ((entryCall e).map Prod.fst) w
  generalize w.openEntry _ = w1 at h hb hr ⊢
  cases hc : entryCall e with
  | none =>
    rw [hc] at h
    exact absurd h (by simp)
  | some cl =>
    obtain ⟨c, label⟩ := cl
    rw [hc] at h
    dsimp only at h ⊢
    obtain ⟨r, hr⟩ := Option.isSome_iff_exists.mp (hr ▸ hrun)
    have hnote : w1.noteRan w.cursor c = { w1 with hist := w1.hist ++ [.ran r.build w.cursor c] } := by
      simp only [noteRan, hr]
    rcases hu : useRunner H c (w1.noteRan w.cursor c) with ⟨_ | val, w2⟩
    · rename_i err
      rw [hu] at h
      obtain rfl := Move.fail.inj h
      rw [hnote] at hu
      simp only [useRunner, hr] at hu
      obtain ⟨hval, hw2⟩ := Prod.mk.inj hu
      refine ⟨rfl, r, err, hval, ?_⟩
      have hcap := foldDevice_capture (r.exec H.wasm c).events []
        { w1 with hist := w1.hist ++ [.ran r.build w.cursor c], runner := some (r.exec H.wasm c).next } hb
      rw [List.nil_append] at hcap
      rw [← hw2]
      exact hcap
    · rw [hu] at h
      exact absurd h (by simp)

theorem realTurn_fail {w : Worker σ} {e : Entry}
    (h : .fail call ∈ (if w.runner.isNone then [] else if !w.prepActive && w.backpressured then []
      else [w.execMove H w.cursor e])) :
    (if w.runner.isNone then [] else if !w.prepActive && w.backpressured then []
      else [w.execMove H w.cursor e]) = [.fail call] ∧
    ∃ r : Ran σ, (if w.runner.isNone then ((⟨w, none⟩, false) : Ran σ × Bool)
        else if !w.prepActive && w.backpressured then (⟨w, none⟩, false)
        else (w.execRealEntry H w.cursor e, (w.execRealEntry H w.cursor e).thrown.isNone)) = (r, false) ∧
      r.thrown.isSome ∧ Holds H call r.w := by
  by_cases hrun : w.runner.isNone = true
  · rw [if_pos hrun] at h
    exact absurd h List.not_mem_nil
  rw [if_neg hrun] at h ⊢
  by_cases hbp : (!w.prepActive && w.backpressured) = true
  · rw [if_pos hbp] at h
    exact absurd h List.not_mem_nil
  rw [if_neg hbp] at h ⊢
  have hmove := (List.mem_singleton.mp h).symm
  obtain ⟨hthrown, hholds⟩ := execRealEntry_fail (by simpa [Option.isSome_iff_ne_none] using hrun) hmove
  refine ⟨by rw [hmove], w.execRealEntry H w.cursor e, ?_, hthrown, hholds⟩
  rw [if_neg hrun, if_neg hbp, Option.isNone_eq_false_iff.mpr hthrown]

/-- A turn that throws is the last one. -/
theorem turn_fail {w : Worker σ} {e : Entry} (h : .fail call ∈ w.turnMoves H e) :
    w.turnMoves H e = [.fail call] ∧
      ∃ r : Ran σ, w.turn H e = (r, false) ∧ r.thrown.isSome ∧ Holds H call r.w := by
  obtain ⟨index, kind, payload, seed⟩ := e
  have hcommand : ∀ e : Entry, .fail call ∉ w.commandMoves H e := by
    intro e
    unfold commandMoves
    split
    · exact List.not_mem_nil
    split
    · exact List.not_mem_nil
    split
    · exact List.not_mem_nil
    split <;> simp
  cases kind with
  | command =>
    cases payload with
    | synthetic costNs fileOps ticks prep =>
      unfold turnMoves at h
      dsimp only at h
      split at h
      · unfold syntheticMoves at h
        split at h
        · exact absurd h (by simp)
        · exact absurd h (by simp)
        · split at h
          · split at h <;> exact absurd h (by simp)
          · split at h <;> exact absurd h (by simp)
      · exact absurd h (hcommand _)
    | null | event _ | source _ => exact absurd h (hcommand _)
  | event | gc =>
    cases payload with
    | synthetic costNs fileOps ticks prep =>
      cases costNs with
      | none => exact realTurn_fail h
      | some cost =>
        unfold turnMoves at h
        dsimp only at h
        split at h <;> exact absurd h (by simp)
    | null | event _ | source _ => exact realTurn_fail h

theorem pumpLoop_fail (fuel : Nat) (w : Worker σ) (h : .fail call ∈ loopMoves H fuel w) :
    (∃ ms, loopMoves H fuel w = ms ++ [.fail call]) ∧ (pumpLoop H fuel w).thrown.isSome ∧
      Holds H call (pumpLoop H fuel w).w := by
  induction fuel generalizing w with
  | zero => exact absurd h List.not_mem_nil
  | succ fuel ih =>
    unfold loopMoves at h ⊢
    unfold pumpLoop
    by_cases hl : w.entryLimit ≤ w.cursor
    · rw [if_pos hl] at h
      exact absurd h List.not_mem_nil
    rw [if_neg hl] at h ⊢
    rw [if_neg hl]
    cases he : w.entries[w.cursor]? with
    | none =>
      rw [he] at h
      exact absurd h List.not_mem_nil
    | some e =>
      rw [he] at h
      dsimp only at h ⊢
      rcases hr : w.turn H e with ⟨r, _ | _⟩
      · rw [hr] at h
        obtain ⟨hms, r', hr', hthrown, hholds⟩ := turn_fail h
        obtain rfl := (Prod.mk.inj (hr.symm.trans hr')).1
        exact ⟨⟨[], hms⟩, hthrown, hholds⟩
      · rw [hr] at h
        rcases List.mem_append.mp h with h | h
        · obtain ⟨-, r', hr', -⟩ := turn_fail h
          exact absurd (hr.symm.trans hr') (by simp)
        · obtain ⟨⟨ms, hms⟩, hrest⟩ := ih r.w h
          have hmoves : w.turnMoves H e ++ loopMoves H fuel r.w
            = (w.turnMoves H e ++ ms) ++ [.fail call] := by rw [hms, List.append_assoc]
          exact ⟨⟨_, hmoves⟩, hrest⟩

theorem pump_fail {w : Worker σ} (h : .fail call ∈ w.pumpMoves H) :
    (∃ ms, w.pumpMoves H = ms ++ [.fail call]) ∧ (w.pump H).thrown.isSome ∧
      Holds H call (w.pump H).w := pumpLoop_fail _ w h

theorem drain_fail {w : Worker σ} (h : .fail call ∈ w.drainMoves H) :
    (∃ ms, w.drainMoves H = ms ++ [.fail call]) ∧ (w.drain H).thrown.isSome ∧
      Holds H call (w.drain H).w := by
  unfold drainMoves at h ⊢
  unfold drain
  rcases hw : w.meter with ⟨w', _ | _⟩ <;> rw [hw] at h <;> dsimp only at h ⊢
  · exact absurd h (by simp)
  · obtain ⟨⟨ms, hms⟩, hrest⟩ := pump_fail (List.mem_of_ne_of_mem (by simp) h)
    exact ⟨⟨.meter :: ms, by rw [hms]; rfl⟩, hrest⟩

/-- Neither the pump nor the drain posts anything. -/
theorem pump_port (w : Worker σ) : (w.pump H).w.port = w.port := by
  have h := (pump_path (H := H) w).moves
  refine h.inv (I := fun p => p.port = w.port) (fun p m hm _ hp => ?_) rfl
  rw [(Player.apply_frame p m).port, hp]
  cases m <;> first
    | exact List.append_nil _
    | exact absurd hm (by simp [Move.ofPump])

theorem drain_port (w : Worker σ) : (w.drain H).w.port = w.port := by
  have hmeter : w.meter.1.port = w.port := by
    have h := congrArg Player.port (meter_core w)
    obtain ⟨_, _, _, _, _, hm⟩ := Player.meter_eq w.core
    rw [hm] at h
    exact h
  unfold drain
  rcases hw : w.meter with ⟨w', _ | _⟩ <;> rw [hw] at hmeter
  · exact hmeter
  · exact (pump_port w').trans hmeter

/-- `pump(); drain(); ack();` when a call throws: no ack. -/
theorem pumpDrainAck_fail {w : Worker σ} (h : .fail call ∈ w.pumpDrainAckMoves H) :
    (∃ ms, w.pumpDrainAckMoves H = ms ++ [.fail call]) ∧ Holds H call (w.pumpDrainAck H).w ∧
      (w.pumpDrainAck H).w.port = w.port := by
  unfold pumpDrainAckMoves at h ⊢
  unfold pumpDrainAck
  have hpump := fun h : Move.fail call ∈ w.pumpMoves H => pump_fail h
  have hport := pump_port (H := H) w
  rcases hr1 : w.pump H with ⟨w1, _ | err⟩ <;> rw [hr1] at h hpump hport <;> dsimp only at h ⊢
  · have hdrain := fun h : Move.fail call ∈ w1.drainMoves H => drain_fail h
    have hport1 := drain_port (H := H) w1
    have hno : .fail call ∉ w.pumpMoves H := fun hm => absurd (hpump hm).2.1 (by simp)
    rcases hr2 : w1.drain H with ⟨w2, _ | err⟩ <;> rw [hr2] at h hdrain hport1 <;> dsimp only at h ⊢
    · have hm : .fail call ∈ w1.drainMoves H := by simpa [hno] using h
      exact absurd (hdrain hm).2.1 (by simp)
    · have hm : .fail call ∈ w1.drainMoves H := by simpa [hno] using h
      obtain ⟨⟨ms, hms⟩, -, hholds⟩ := hdrain hm
      exact ⟨⟨w.pumpMoves H ++ ms, by rw [hms, List.append_assoc]⟩, hholds, hport1.trans hport⟩
  · obtain ⟨hms, -, hholds⟩ := hpump h
    exact ⟨hms, hholds, hport⟩

theorem landBuild_fail {w : Worker σ} {g : Nat} {ok : Bool} (h : .fail call ∈ w.landMoves H g ok) :
    (∃ ms, w.landMoves H g ok = ms ++ [.fail call]) ∧ Holds H call (w.landBuild H g ok) ∧
      (w.landBuild H g ok).port = w.port := by
  unfold landMoves at h ⊢
  unfold landBuild
  cases hf : w.builds.find? (·.gen == g) with
  | none =>
    rw [hf] at h
    exact absurd h List.not_mem_nil
  | some b =>
    rw [hf] at h
    dsimp only at h ⊢
    cases ok with
    | false => exact absurd h (by simp)
    | true =>
      cases hg : b.geometry with
      | none =>
        rw [hg] at h
        exact absurd h (by simp)
      | some geo =>
        rw [hg] at h
        dsimp only at h ⊢
        by_cases hgen : b.gen = w.gen
        · rw [if_neg (not_not.mpr hgen)] at h ⊢
          rw [if_neg (not_not.mpr hgen)]
          obtain ⟨⟨ms, hms⟩, -, hholds⟩ := pump_fail (List.mem_of_ne_of_mem (by simp) h)
          exact ⟨⟨.land g :: ms, by rw [hms]; rfl⟩, hholds, pump_port _⟩
        · rw [if_pos hgen] at h
          exact absurd h (by simp)

theorem closeCommand_port (index : Nat) (w : Worker σ) : (w.closeCommand index).port = w.port := by
  have h := congrArg Player.port (enqueueBatch_core index [] true w.entryFileOps
    (w.log { entryIndex := index, kind := .done, text := "command" }))
  obtain ⟨_, _, _, _, _, _, he⟩ := Player.enqueue_eq index [] (stepsOfBatch (w.log
    { entryIndex := index, kind := .done, text := "command" }) index []) true w.entryFileOps
    (core (w.log { entryIndex := index, kind := .done, text := "command" }))
  rw [he] at h
  exact h

theorem timer_fail {w : Worker σ} {id : Nat} (h : .fail call ∈ w.timerMoves H id) :
    (∃ ms, w.timerMoves H id = ms ++ [.fail call]) ∧ Holds H call (w.timer H id) ∧
      (w.timer H id).port = w.port := by
  unfold timerMoves at h ⊢
  unfold timer
  cases hc : w.cmds[id]? with
  | none =>
    rw [hc] at h
    exact absurd h List.not_mem_nil
  | some c =>
    rw [hc] at h
    dsimp only at h ⊢
    by_cases ht : c.timers = 0
    · rw [if_pos ht] at h
      exact absurd h List.not_mem_nil
    rw [if_neg ht] at h ⊢
    rw [if_neg ht]
    split at h
    · exact absurd h List.not_mem_nil
    rename_i hs
    split at h
    · rename_i hd
      rw [if_neg hs, if_pos hd, if_neg hs, if_pos hd]
      obtain ⟨⟨ms, hms⟩, hholds, hp⟩ := pumpDrainAck_fail (List.mem_of_ne_of_mem (by simp) h)
      exact ⟨⟨_ :: ms, by rw [hms]; rfl⟩, hholds, hp.trans (closeCommand_port _ _)⟩
    · exact absurd h List.not_mem_nil

/-- An operation of a command catches what its call throws. -/
theorem opMoves_ne (c : Cmd) (call' : RCall) (w : Worker σ) : .fail call ∉ w.opMoves H c call' := by
  unfold opMoves
  split
  · exact List.not_mem_nil
  split
  · exact List.not_mem_nil
  split
  · split <;> simp
  · simp

theorem onMessage_fail {w : Worker σ} {m : C2W} (h : .fail call ∈ w.messageMoves H m) :
    (∃ ms, w.messageMoves H m = ms ++ [.fail call]) ∧ Holds H call (w.onMessage H m) ∧
      (w.onMessage H m).port = w.port := by
  unfold messageMoves at h ⊢
  unfold onMessage
  cases m with
  | init e f g => exact absurd h List.not_mem_nil
  | reset e => exact absurd h List.not_mem_nil
  | pull e sel =>
    dsimp only at h
    split at h
    · obtain ⟨_, _, hm⟩ := List.mem_map.mp h
      exact absurd hm (by simp)
    · exact absurd h List.not_mem_nil
  | entries e es =>
    dsimp only at h ⊢
    by_cases he : e = w.epoch
    · rw [if_pos he] at h ⊢
      rw [if_pos he]
      obtain ⟨hms, -, hholds⟩ := pump_fail h
      exact ⟨hms, hholds, pump_port _⟩
    · rw [if_neg he] at h
      exact absurd h List.not_mem_nil
  | grant e g =>
    dsimp only at h ⊢
    by_cases he : e = w.epoch
    · rw [if_pos he] at h ⊢
      rw [if_pos he]
      exact pumpDrainAck_fail h
    · rw [if_neg he] at h
      exact absurd h List.not_mem_nil

/-- A task in which a call throws: the throw is its last move, the sink stays open and nothing is
posted. -/
theorem step_fail {w : Worker σ} {now : ℚ} {i : WIn} (h : .fail call ∈ w.moves H now i) :
    (∃ ms, w.moves H now i = ms ++ [.fail call]) ∧ Holds H call (w.step H now i) ∧
      (w.step H now i).port = w.port := by
  have hport : ({ w with clock := now } : Worker σ).port = w.port := rfl
  unfold moves at h ⊢
  unfold step
  dsimp only at h ⊢
  rw [← hport]
  generalize ({ w with clock := now } : Worker σ) = v at h ⊢
  cases i with
  | telemetry =>
    obtain ⟨_, _, hm⟩ := List.mem_map.mp h
    exact absurd hm (by simp)
  | msg m => exact onMessage_fail h
  | built g ok => exact landBuild_fail h
  | cmd id a =>
    cases a with
    | settle err => exact absurd h List.not_mem_nil
    | call c =>
      dsimp only at h
      unfold callMoves prepMoves at h
      split at h
      · exact absurd h List.not_mem_nil
      · split at h <;> exact absurd h (by simp)
    | task j =>
      dsimp only at h
      unfold taskMoves at h
      split at h
      · exact absurd h List.not_mem_nil
      split at h
      · split at h
        · exact absurd h List.not_mem_nil
        · exact absurd h (opMoves_ne _ _ _)
      · exact absurd h List.not_mem_nil
    | timer => exact timer_fail h

end Worker

/-! ## what is left behind -/

namespace Player

/-- The cursor stands on an entry whose call has just thrown, with nothing in its way. -/
structure Stuck (call : RCall) (p : Player) : Prop where
  entry : ∃ e, p.due e ∧ isReal e ∧ (entryCall e).map Prod.fst = some call
  runner : p.runner.isSome
  room : p.room
  issued : ∃ b h, p.hist = h ++ [.ran b p.cursor call]

theorem apply_stuck {p : Player} {call : RCall} (he : p.Enabled (.fail call)) :
    (p.apply (.fail call)).Stuck call := by
  obtain ⟨e, hdue, hreal, hrun, hroom, hcall⟩ := he
  exact ⟨⟨e, hdue, hreal, hcall⟩, hrun, hroom, p.runner.getD 0, p.hist, rfl⟩

theorem run_hist (p : Player) (ms : List Move) : p.hist <+: (Machine.run apply p ms).hist := by
  induction ms generalizing p with
  | nil => exact List.prefix_refl _
  | cons m ms ih =>
    refine List.IsPrefix.trans ?_ (ih (p.apply m))
    rw [(apply_frame p m).hist]
    exact List.prefix_append _ _

end Player

namespace Worker
variable {σ : Type} {H : Host σ} {call : RCall}

/-- The moves of a task that makes any start where its message has arrived. -/
theorem step_run {w : Worker σ} {now : ℚ} {i : WIn} (h : w.moves H now i ≠ []) :
    (w.step H now i).core = Machine.run Player.apply (w.arrive i) (w.moves H now i) ∧
      Machine.Along Player.apply (fun p m => w.allows H i p m ∧ p.Enabled m) (w.arrive i)
        (w.moves H now i) := by
  obtain ⟨ps, hps, hpath⟩ := step_path (H := H) now i w
  obtain rfl := hps.resolve_left h
  cases i <;> exact ⟨hpath.ends, hpath.along⟩

theorem step_stuck {w : Worker σ} {now : ℚ} {i : WIn} (h : .fail call ∈ w.moves H now i) :
    (w.step H now i).core.Stuck call := by
  obtain ⟨⟨ms, hms⟩, -⟩ := step_fail h
  obtain ⟨hrun, halong⟩ := step_run (List.ne_nil_of_mem h)
  rw [hms, Machine.along_append] at halong
  rw [hrun, hms, Machine.run_concat]
  exact Player.apply_stuck halong.2.1.2

theorem turnMoves_real {w : Worker σ} {e : Entry} (hreal : Player.isReal e) (hrun : w.runner.isSome)
    (hroom : (!w.prepActive && w.backpressured) = false) :
    w.turnMoves H e = [w.execMove H w.cursor e] := by
  have hif : (if w.runner.isNone then [] else if !w.prepActive && w.backpressured then []
      else [w.execMove H w.cursor e]) = [w.execMove H w.cursor e] := by
    rw [if_neg (by simpa [Option.isSome_iff_ne_none] using hrun), if_neg (by simp [hroom])]
  obtain ⟨index, kind, payload, seed⟩ := e
  cases kind with
  | command => exact absurd rfl hreal.1
  | event | gc =>
    cases payload with
    | synthetic costNs fileOps ticks prep =>
      cases costNs with
      | none => exact hif
      | some cost => exact absurd hreal.2 (by simp [isSyntheticEvent])
    | null | event _ | source _ => exact hif

theorem pumpMoves_head {w : Worker σ} {e : Entry} (hlt : w.cursor < w.entryLimit)
    (he : w.entries[w.cursor]? = some e) : ∃ rest, w.pumpMoves H = w.turnMoves H e ++ rest := by
  unfold pumpMoves
  obtain ⟨k, hk⟩ := Nat.exists_eq_succ_of_ne_zero (Nat.sub_ne_zero_of_lt hlt)
  rw [hk]
  unfold loopMoves
  rw [if_neg (not_le.mpr hlt), he]
  dsimp only
  rcases w.turn H e with ⟨r, _ | _⟩
  · exact ⟨[], (List.append_nil _).symm⟩
  · exact ⟨_, rfl⟩

theorem pumpDrainAckMoves_head (w : Worker σ) :
    ∃ rest, w.pumpDrainAckMoves H = w.pumpMoves H ++ rest := by
  unfold pumpDrainAckMoves
  rcases w.pump H with ⟨w1, _ | _⟩
  · dsimp only
    rcases w1.drain H with ⟨w2, _ | _⟩
    · exact ⟨_, rfl⟩
    · exact ⟨_, rfl⟩
  · exact ⟨[], (List.append_nil _).symm⟩

theorem execMove_acts {w : Worker σ} {e : Entry} (hcall : (entryCall e).map Prod.fst = some call)
    (p : Player) : ∃ acts, (w.execMove H w.cursor e).acts p
      = .ran (p.runner.getD 0) p.cursor call :: acts := by
  obtain ⟨⟨c, label⟩, hc, rfl⟩ := Option.map_eq_some_iff.mp hcall
  unfold execMove
  rw [hc]
  dsimp only
  rcases useRunner H c _ with ⟨_ | _, w2⟩
  · exact ⟨[], rfl⟩
  · exact ⟨_, rfl⟩

/-- **The next GRANT issues the call again**, when it authorizes as much at the same speed. -/
theorem grant_reissues {w : Worker σ} (hs : w.core.Stuck call) {g : Grant} (now : ℚ)
    (hlim : w.entryLimit ≤ g.entryLimit) (hscale : g.scale = w.scale) :
    ∃ b, w.hist ++ [.granted g, .ran b w.cursor call]
      <+: (w.step H now (.msg (.grant w.epoch g))).hist := by
  obtain ⟨e, ⟨hlt, hent⟩, hreal, hcall⟩ := hs.entry
  have hlt' : w.cursor < w.entryLimit := hlt
  have hent' : w.entries[w.cursor]? = some e := hent
  have hrun : w.runner.isSome := by simpa [core] using hs.runner
  have hroom : (!w.prepActive && w.backpressured) = false := by
    rcases hs.room with hp | ⟨hcap, hlen⟩
    · rw [show w.prepActive = true from hp]
      rfl
    · have h1 : ¬ w.tapeCapNs ≤ w.executedTapeNs - w.playbackNs := not_le.mpr hcap
      have h2 : ¬ BACKLOG_CAP ≤ w.pbQueue.length := not_le.mpr hlen
      simp [backpressured, h1, h2]
  -- the worker that the pump of this GRANT starts from
  obtain ⟨v, hv⟩ : ∃ v : Worker σ, v = ({ w with clock := now } : Worker σ).takeGrant g := ⟨_, rfl⟩
  have hvroom : (!v.prepActive && v.backpressured) = false := by
    rw [hv]
    unfold takeGrant backpressured tapeCapNs at *
    dsimp only
    rw [hscale]
    exact hroom
  obtain ⟨rest, hrest⟩ := pumpMoves_head (H := H) (w := v) (e := e)
    (by rw [hv]; exact lt_of_lt_of_le hlt' hlim) (by rw [hv]; exact hent')
  obtain ⟨rest', hrest'⟩ := pumpDrainAckMoves_head (H := H) v
  rw [turnMoves_real hreal (by rw [hv]; exact hrun) hvroom] at hrest
  have hmoves : w.moves H now (.msg (.grant w.epoch g))
      = v.execMove H v.cursor e :: (rest ++ rest') := by
    unfold moves messageMoves
    dsimp only
    rw [if_pos rfl, ← hv, hrest', hrest]
    rfl
  have hsome : w.moves H now (.msg (.grant w.epoch g)) ≠ [] := by
    rw [hmoves]
    simp
  obtain ⟨hstep, -⟩ := step_run hsome
  have harr : w.arrive (.msg (.grant w.epoch g)) = w.core.grant g := if_pos rfl
  rw [hmoves, harr] at hstep
  obtain ⟨acts, hacts⟩ := execMove_acts (H := H) (w := v) hcall (w.core.grant g)
  refine ⟨w.core.runner.getD 0, ?_⟩
  have hhist : (w.step H now (.msg (.grant w.epoch g))).hist = (Machine.run Player.apply
      ((w.core.grant g).apply (v.execMove H v.cursor e)) (rest ++ rest')).hist :=
    congrArg Player.hist hstep
  rw [hhist]
  refine List.IsPrefix.trans ?_ (Player.run_hist _ _)
  rw [(Player.apply_frame _ _).hist, hacts]
  exact ⟨acts, by simp [Player.grant, core]⟩

end Worker
/-! ## after the throw -/

/-- How often entry `k` has called the runner. -/
def issues (k : Nat) (h : List Act) : Nat := h.countP fun
  | .ran _ j _ => j == k
  | _ => false

theorem issues_append (k : Nat) (h h' : List Act) : issues k (h ++ h') = issues k h + issues k h' :=
  List.countP_append ..

theorem issues_mono {h h' : List Act} (hp : h <+: h') (k : Nat) : issues k h ≤ issues k h' := by
  obtain ⟨t, rfl⟩ := hp
  rw [issues_append]
  exact Nat.le_add_right _ _

namespace Player

/-- The cursor stands on entry `k`, or its call was issued more than `c` times. -/
structure Blocked (k : Nat) (e : Entry) (c : Nat) (p : Player) : Prop where
  standing : p.Standing
  entry : p.entries[k]? = some e
  stands : p.cursor = k ∧ issues k p.hist = c ∨ c < issues k p.hist

namespace Blocked
variable {k : Nat} {e : Entry} {c : Nat} {p : Player}

theorem receive (h : Blocked k e c p) (ps : Option Nat) {m : C2W} (hm : m.transition = false) :
    Blocked k e c (p.receive ps m) := by
  refine ⟨h.standing.receive ps m, ?_, ?_⟩
  · cases m with
    | init _ _ _ | reset _ => exact absurd hm (by simp [C2W.transition])
    | pull e' sel => exact h.entry
    | entries e' es =>
      unfold Player.receive
      dsimp only
      split
      · obtain ⟨l', hl⟩ := takeEntries_append p.entries es
        rw [show (p.feed es).entries = p.entries ++ l' from hl,
          List.getElem?_append_left (List.getElem?_eq_some_iff.mp h.entry).1]
        exact h.entry
      · exact h.entry
    | grant e' g =>
      unfold Player.receive
      dsimp only
      split <;> exact h.entry
  · cases m with
    | init _ _ _ | reset _ => exact absurd hm (by simp [C2W.transition])
    | pull e' sel => exact h.stands
    | entries e' es =>
      unfold Player.receive
      dsimp only
      split <;> exact h.stands
    | grant e' g =>
      unfold Player.receive
      dsimp only
      split
      · have hsame : issues k (p.hist ++ [.granted g]) = issues k p.hist := by
          rw [issues_append]
          rfl
        show p.cursor = k ∧ issues k (p.hist ++ [.granted g]) = c ∨ c < issues k (p.hist ++ [.granted g])
        rw [hsame]
        exact h.stands
      · exact h.stands

theorem apply (h : Blocked k e c p) (hreal : isReal e) {call : RCall}
    (hcall : (entryCall e).map Prod.fst = some call) {m : Move} (he : p.Enabled m) :
    Blocked k e c (p.apply m) := by
  have hf := apply_frame p m
  refine ⟨h.standing.apply he, by rw [hf.entries]; exact h.entry, ?_⟩
  have hgrow : issues k (p.apply m).hist = issues k p.hist + issues k (m.acts p) := by
    rw [hf.hist, issues_append]
  rcases h.stands with ⟨hcur, hc⟩ | hc
  swap
  · exact .inr (lt_of_lt_of_le hc (by omega))
  -- the entry at the cursor is the blocked one, so no command is in flight
  have hat : ∀ e', p.due e' → e' = e := by
    intro e' hdue
    have := hdue.2
    rw [hcur, h.entry] at this
    exact (Option.some.inj this).symm
  have hidle : p.realCmd = none := by
    cases hr : p.realCmd with
    | none => rfl
    | some j =>
      obtain ⟨rfl, e', he', hk, -⟩ := h.standing.cmd j hr
      rw [hcur, h.entry, Option.some.injEq] at he'
      exact absurd (he' ▸ hk) hreal.1
  have stay : m.cursor p = p.cursor → issues k (m.acts p) = 0 →
      (p.apply m).cursor = k ∧ issues k (p.apply m).hist = c ∨ c < issues k (p.apply m).hist := by
    intro h1 h2
    exact .inl ⟨by rw [hf.cursor, h1, hcur], by omega⟩
  have hran : ∀ b acts, issues k (.ran b p.cursor call :: acts) = issues k acts + 1 := by
    intro b acts
    unfold issues
    rw [List.countP_cons_of_pos (by simp [hcur])]
  cases m with
  | exec call' batch steps ops =>
    obtain ⟨e', hdue, -, -, -, hcall', -⟩ := he
    rw [hat e' hdue, hcall] at hcall'
    subst hcall'
    refine .inr ?_
    rw [hgrow, show Move.acts p (.exec (some call) batch steps ops) = .ran (p.runner.getD 0) p.cursor call
      :: [.enqueued p.cursor batch p.prepActive] from rfl, hran]
    omega
  | fail call' =>
    obtain ⟨e', hdue, -, -, -, hcall'⟩ := he
    rw [hat e' hdue, hcall, Option.some.injEq] at hcall'
    subst hcall'
    refine .inr ?_
    rw [hgrow, show Move.acts p (.fail call) = .ran (p.runner.getD 0) p.cursor call :: [] from rfl, hran]
    omega
  | start | syntaxError =>
    obtain ⟨e', hdue, hk, -⟩ := he
    exact absurd (hat e' hdue ▸ hk) hreal.1
  | close idx ops => exact absurd (hidle.symm.trans he) (by simp)
  | openPrep | closePrep _ =>
    obtain ⟨e', hdue, hk, -⟩ := he
    exact absurd (hat e' hdue ▸ hk) hreal.1
  | commit cost ops =>
    obtain ⟨e', hdue, ⟨hk, -⟩ | ⟨-, hs⟩⟩ := he
    · exact absurd (hat e' hdue ▸ hk) hreal.1
    · exact absurd ((hat e' hdue ▸ hs).symm.trans hreal.2) (by simp)
  | op idx w batch steps => cases w <;> exact stay rfl rfl
  | wipe | prep _ | meter | ack | post _ | land _ | drop _ => exact stay rfl rfl

end Blocked
end Player

namespace Worker
variable {σ : Type} {H : Host σ}

/-- Tasks that start no new life. -/
def SameLife (js : List (ℚ × WIn)) : Prop := ∀ x ∈ js, ∀ m, x.2 = .msg m → m.transition = false

/-- Entry `k` never calls the runner again in this life. -/
def IssuedOnce (H : Host σ) (k : Nat) (w : Worker σ) : Prop :=
  ∀ js, SameLife js → issues k (Machine.run (next H) w js).hist = issues k w.hist

/-- The cursor can pass entry `k` without calling the runner again. -/
def Passable (H : Host σ) (k : Nat) (w : Worker σ) : Prop :=
  ∃ js, SameLife js ∧ k < (Machine.run (next H) w js).cursor ∧
    issues k (Machine.run (next H) w js).hist = issues k w.hist

/-- The task from `w` to `w'` has acked. -/
def Acked (w w' : Worker σ) : Prop := ∃ a, W2C.grantAck w.epoch a ∈ w'.port.drop w.port.length

/-- A blocked cursor stays blocked. -/
theorem run_blocked {k : Nat} {e : Entry} {c : Nat} (hreal : Player.isReal e) {call : RCall}
    (hcall : (entryCall e).map Prod.fst = some call) {w : Worker σ} (h : w.core.Blocked k e c)
    {js : List (ℚ × WIn)} (hjs : SameLife js) : (Machine.run (next H) w js).core.Blocked k e c := by
  have hguard : Machine.Along (next H) (fun _ x => ∀ m, x.2 = .msg m → m.transition = false) w js :=
    Machine.Along.of_forall hjs w
  refine Machine.run_inv (P := fun w : Worker σ => w.core.Blocked k e c) (fun v x hx hv => ?_) hguard h
  exact step_inv x.1 x.2 v (fun ps m hm hb => hb.receive ps (hx m hm))
    (fun p m _ he hb => hb.apply hreal hcall he) hv

end Worker

/-- The throw of entry `k` in task `x` is contained. -/
structure Contained {σ : Type} (H : Host σ) (w : Worker σ) (x : ℚ × WIn) (k : Nat) : Prop where
  once : Worker.IssuedOnce H k (Worker.next H w x)
  acked : ∀ g, x.2 = .msg (.grant w.epoch g) → Worker.Acked w (Worker.next H w x)
  released : (Worker.next H w x).captureBatch = none
  later : Worker.Passable H k (Worker.next H w x)

/-- **No throw is contained**: in every reachable state and for every task, when the call of an
entry throws, it will be issued again, the entries after it are blocked until it is, a GRANT stays
unacked and the events of the call stay in the sink. -/
theorem throw_uncontained {σ : Type} (H : Host σ) (is : List (ℚ × WIn)) (x : ℚ × WIn)
    (hthrow : ¬ (Worker.after H is).heeds (fun _ m => m.returns = true) H x.1 x.2) :
    let w := Worker.after H is
    let w' := Worker.next H w x
    ∃ h b k call, w'.hist = h ++ [.ran b k call] ∧ ¬ Worker.IssuedOnce H k w' ∧
      ¬ Worker.Passable H k w' ∧ Worker.Holds H call w' ∧
      ∀ g, x.2 = .msg (.grant w.epoch g) → ¬ Worker.Acked w w' := by
  intro w w'
  obtain ⟨call, hfail⟩ : ∃ call, .fail call ∈ w.moves H x.1 x.2 := by
    by_contra hno
    refine hthrow (Machine.Along.of_forall (g := fun m : Move => m.returns = true) (fun m hm => ?_) _)
    cases m with
    | fail call => exact absurd ⟨call, hm⟩ hno
    | _ => rfl
  obtain ⟨-, hholds, hport⟩ := Worker.step_fail hfail
  have hstuck : w'.core.Stuck call := Worker.step_stuck hfail
  have hstanding : w'.core.Standing := by
    have h := Worker.standing H (is ++ [x])
    rwa [Worker.after_concat] at h
  obtain ⟨b, h, hhist⟩ := hstuck.issued
  obtain ⟨e, hdue, hreal, hcall⟩ := hstuck.entry
  refine ⟨h, b, w'.cursor, call, hhist, fun honce => ?_, ?_, hholds, ?_⟩
  · -- the same GRANT once more
    obtain ⟨b', hagain⟩ := Worker.grant_reissues (H := H) hstuck
      (g := ⟨w'.round, w'.entryLimit, w'.playLimitNs, w'.scale⟩) x.1 (le_refl _) rfl
    have hsame := honce [(x.1, .msg (.grant w'.epoch ⟨w'.round, w'.entryLimit, w'.playLimitNs, w'.scale⟩))]
      (by
        intro y hy m hm
        rw [List.mem_singleton.mp hy, WIn.msg.injEq] at hm
        rw [← hm]
        rfl)
    have hmore := issues_mono hagain w'.cursor
    rw [issues_append] at hmore
    have hone : issues w'.cursor [.granted ⟨w'.round, w'.entryLimit, w'.playLimitNs, w'.scale⟩,
        .ran b' w'.cursor call] = 1 := by simp [issues]
    rw [hone] at hmore
    exact absurd (hmore.trans (le_of_eq hsame)) (by omega)
  · rintro ⟨js, hjs, hpass, hsame⟩
    have hblocked : w'.core.Blocked w'.cursor e (issues w'.cursor w'.hist) :=
      ⟨hstanding, hdue.2, .inl ⟨rfl, rfl⟩⟩
    rcases (Worker.run_blocked (H := H) hreal hcall hblocked hjs).stands with ⟨hcur, -⟩ | hlt
    · exact absurd hcur (Nat.ne_of_gt hpass)
    · exact absurd hsame (Nat.ne_of_gt hlt)
  · rintro g - ⟨a, ha⟩
    have hnil : w'.port.drop w.port.length = [] := by
      rw [show w'.port = w.port from hport, List.drop_length]
    rw [hnil] at ha
    exact absurd ha List.not_mem_nil

/-- A session whose module refuses the write of entry 0. -/
def failedWrite : List (ℚ × WIn) :=
  [(0, .msg (.init 0 "fs" plainGeometry)), (0, .built 1 true),
    (0, .msg (.entries 0 [⟨0, .event, .event { type := .write, name := "f", size := 8 }, 0⟩]))]

theorem throw_uncontained_write :
    let H := (plainWorld fun _ => -1).host
    let x : ℚ × WIn := (0, .msg (.grant 0 ⟨0, 1, (0 : ℚ), 20000⟩))
    let w := Worker.after H failedWrite
    let w' := Worker.next H w x
    ∃ h b k call, w'.hist = h ++ [.ran b k call] ∧ ¬ Worker.IssuedOnce H k w' ∧
      ¬ Worker.Passable H k w' ∧ Worker.Holds H call w' ∧
      ∀ g, x.2 = .msg (.grant w.epoch g) → ¬ Worker.Acked w w' :=
  throw_uncontained (plainWorld fun _ => -1).host failedWrite
    (0, .msg (.grant 0 ⟨0, 1, (0 : ℚ), 20000⟩)) (by
      unfold Worker.heeds
      decide +kernel)

theorem contained_write_fails : ¬ Contained (plainWorld fun _ => -1).host
    (Worker.after (plainWorld fun _ => -1).host failedWrite)
    (0, .msg (.grant 0 ⟨0, 1, (0 : ℚ), 20000⟩)) 0 := by
  intro h
  have hreleased := h.released
  revert hreleased
  decide +kernel

end FlashVis
