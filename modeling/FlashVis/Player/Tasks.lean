import FlashVis.Player.Script

/-!
# Every task of a worker as moves of its player

One lemma for each function of the worker, from the runner call of a single entry up to
`Worker.step_path`; `Worker.step_inv` and `Worker.heeds_inv` are the rules that invariants of a
worker are proved with.
-/

namespace FlashVis
namespace Worker
variable {σ : Type} {H : Host σ}

/-! ## the turns of the pump -/

theorem not_backpressured {w : Worker σ} (h : (!w.prepActive && w.backpressured) = false) :
    w.core.room := by
  unfold Player.room
  cases hp : w.prepActive with
  | true => exact .inl hp
  | false =>
    rw [hp] at h
    simp only [Bool.not_false, Bool.true_and, backpressured, Bool.or_eq_false_iff,
      decide_eq_false_iff_not, not_le] at h
    exact .inr h

theorem entryCall_ne_format {e : Entry} {call : RCall} {label : String}
    (h : entryCall e = some (call, label)) : call ≠ .format := by
  rintro rfl
  unfold entryCall at h
  split at h
  · simp at h
  · split at h <;> simp at h
  · simp at h

theorem openEntry_core (call : Option RCall) (w : Worker σ) : (w.openEntry call).core = w.core := by
  unfold openEntry
  dsimp only
  split <;> rfl

theorem openEntry_runner (call : Option RCall) (w : Worker σ) :
    (w.openEntry call).runner = w.runner := by
  unfold openEntry
  dsimp only
  split <;> rfl

theorem openEntry_capture (call : Option RCall) (w : Worker σ) :
    (w.openEntry call).captureBatch = some [] := by
  unfold openEntry
  dsimp only
  split <;> rfl

theorem noteRan_core (index : Nat) (call : RCall) (w : Worker σ) (hr : w.runner.isSome) :
    (w.noteRan index call).core =
      { w.core with hist := w.core.hist ++ [.ran (w.core.runner.getD 0) index call] } := by
  obtain ⟨r, hr⟩ := Option.isSome_iff_exists.mp hr
  simp only [noteRan, core, hr, Option.map_some, Option.getD_some]

theorem logBatch_core (index : Nat) (label : Option String) (batch : List DevEvent) (w : Worker σ) :
    (w.logBatch index label batch).core = w.core ∧
      (w.logBatch index label batch).entryFileOps = w.entryFileOps ∧
      (w.logBatch index label batch).heat = w.heat := by
  unfold logBatch
  cases label with
  | none => exact ⟨rfl, rfl, rfl⟩
  | some l => dsimp only; split <;> exact ⟨rfl, rfl, rfl⟩

theorem stepsOfBatch_congr {w w' : Worker σ} (h : w'.heat = w.heat) (index : Nat)
    (batch : List DevEvent) : w'.stepsOfBatch index batch = w.stepsOfBatch index batch := by
  unfold stepsOfBatch stepsOf
  rw [h]

theorem closeEntry_core (index : Nat) (label : Option String) (w : Worker σ) :
    (w.closeEntry index label).core =
      { w.core.enqueue index (w.captureBatch.getD [])
          (w.stepsOfBatch index (w.captureBatch.getD [])) true w.entryFileOps with
        cursor := index + 1 } := by
  unfold closeEntry
  dsimp only
  obtain ⟨h1, h2, h3⟩ := logBatch_core index label (w.captureBatch.getD [])
    { w with captureBatch := none }
  generalize Worker.logBatch index label _ _ = w1 at h1 h2 h3 ⊢
  have he := enqueueBatch_core index (w.captureBatch.getD []) true w1.entryFileOps w1
  rw [h1, stepsOfBatch_congr h3, h2] at he
  rw [h2]
  exact congrArg (fun p : Player => { p with cursor := index + 1 }) he

/-- One real event or gc entry: it runs and the cursor passes it, or its call throws. -/
theorem execRealEntry_path (w : Worker σ) (e : Entry) (hdue : w.core.due e)
    (hreal : Player.isReal e) (hrun : w.runner.isSome) (hroom : w.core.room) :
    Path (fun _ => Move.ofPump H) w.core [w.execMove H w.cursor e] (w.execRealEntry H w.cursor e).w.core := by
  have hrun' : w.core.runner.isSome := by simpa [core] using hrun
  unfold execRealEntry execMove
  dsimp only
  generalize hw1 : w.openEntry ((entryCall e).map Prod.fst) = w1
  have h1c : w1.core = w.core := hw1 ▸ openEntry_core _ w
  have h1r : w1.runner = w.runner := hw1 ▸ openEntry_runner _ w
  have h1b : w1.captureBatch = some [] := hw1 ▸ openEntry_capture _ w
  cases hc : entryCall e with
  | none =>
    have heq := closeEntry_core w.cursor none w1
    rw [h1c, h1b] at heq
    exact .one (m := .exec none [] [] w1.entryFileOps) trivial
      ⟨e, hdue, hreal, hrun', hroom, by rw [hc]; rfl, by rintro _ ⟨⟩, by rintro _ ⟨⟩, rfl⟩ heq
  | some cl =>
    obtain ⟨call, label⟩ := cl
    have hcall : (entryCall e).map Prod.fst = some call := by rw [hc]; rfl
    have h1s : w1.runner.isSome := h1r ▸ hrun
    generalize hw2 : w1.noteRan w.cursor call = w2
    have h2c : w2.core = { w.core with
        hist := w.core.hist ++ [.ran (w.core.runner.getD 0) w.core.cursor call] } := by
      rw [← hw2, noteRan_core _ _ _ h1s, h1c]
      rfl
    have h2r : w2.runner = w1.runner := by
      rw [← hw2]; unfold noteRan; split <;> rfl
    have h2b : w2.captureBatch = some [] := by
      rw [← hw2]; unfold noteRan; split <;> exact h1b
    obtain ⟨r, hr⟩ := Option.isSome_iff_exists.mp (h2r ▸ h1s)
    obtain ⟨h3c, evs, hns, h3b⟩ := useRunner_core (H := H) (entryCall_ne_format hc) w2
      (Option.isSome_iff_exists.mpr ⟨r, hr⟩)
    have hval := useRunner_val (H := H) (c := call) hr
    rw [h2b, Option.map_some, List.nil_append] at h3b
    dsimp only
    rw [hw2]
    rcases hu : useRunner H call w2 with ⟨_ | val, w3⟩
    · rw [hu] at h3c hval
      exact .one (m := .fail call) ⟨r, _, hval.symm⟩ ⟨e, hdue, hreal, hrun', hroom, hcall⟩
        (h3c.trans h2c)
    · rw [hu] at h3c h3b
      dsimp only at h3c h3b ⊢
      have heq := closeEntry_core w.cursor (some label) w3
      have hb := stepsOfBatch_for w3 w.cursor evs hns
      rw [h3b, h3c, h2c] at heq
      rw [h3c, h2c] at hb
      rw [h3b]
      exact .one (m := .exec (some call) evs (w3.stepsOfBatch w.cursor evs) w3.entryFileOps) trivial
        ⟨e, hdue, hreal, hrun', hroom, hcall, hb⟩ heq

theorem realCommand_path (w : Worker σ) (e : Entry) (hdue : w.core.due e)
    (hk : e.kind = .command) (hs : isSyntheticCommand e.payload = false) :
    Path (fun _ => Move.ofPump H) w.core (w.commandMoves H e) (w.realCommand H e).core := by
  unfold realCommand commandMoves
  split
  · exact .refl
  rename_i hcmd
  split
  · exact .refl
  rename_i hrun
  split
  · exact .refl
  rename_i hbp
  have hrun' : w.core.runner.isSome := by
    simpa [core, Option.isSome_iff_ne_none] using hrun
  have hroom := not_backpressured (Bool.eq_false_iff.mpr hbp)
  have h1 : (w.openCommand w.cursor e).core = w.core.apply .start := by
    unfold openCommand
    dsimp only
    cases e.payload <;> rfl
  unfold startRealCommand
  dsimp only
  cases H.compileError (sourceOf e.payload) with
  | none => exact .one (m := .start) trivial ⟨e, hdue, hk, hs, hcmd, hrun', hroom⟩ h1
  | some err =>
    refine .one (m := .syntaxError) trivial ⟨e, hdue, hk, hs, hcmd, hrun', hroom⟩ ?_
    have := enqueueBatch_core w.cursor [] true 0 ((w.openCommand w.cursor e).log
      { entryIndex := w.cursor, kind := .done, text := "command compile error: " ++ err })
    rw [show ((w.openCommand w.cursor e).log _).core = _ from h1] at this
    exact congrArg (fun p : Player => { p with realCmd := none, cursor := w.cursor + 1 }) this

theorem syntheticCommand_path (w : Worker σ) (e : Entry) (hdue : w.core.due e)
    (hk : e.kind = .command) (hs : isSyntheticCommand e.payload = true)
    (costNs : Option ℚ) (fileOps ticks : Option Nat) (prep : Option Bool) :
    Path (fun _ => Move.ofPump H) w.core (w.syntheticMoves costNs fileOps ticks prep)
      (w.syntheticCommand costNs fileOps ticks prep).1.core := by
  have hcommit : ∀ w' : Worker σ, w'.core = w.core →
      Path (fun _ => Move.ofPump H) w.core [.commit (costNs.getD 0) (fileOps.getD 1)]
        (w'.commit w.cursor (costNs.getD 0) (fileOps.getD 1)).core := by
    intro w' hw'
    refine .one trivial ⟨e, hdue, .inl ⟨hk, hs⟩⟩ ?_
    rw [← hw']
    have hcur : w.cursor = w'.cursor := (congrArg Player.cursor hw').symm
    rw [hcur]
    rfl
  unfold syntheticCommand syntheticMoves
  dsimp only
  split
  · exact .one (m := .openPrep) trivial ⟨e, hdue, hk, hs⟩ rfl
  · exact .one (m := .closePrep (costNs.getD 0)) trivial ⟨e, hdue, hk, hs⟩ rfl
  · split
    · split
      · exact .of_eq rfl
      · exact hcommit _ rfl
    · split
      · exact .refl
      · exact hcommit _ rfl

theorem realTurn_path (w : Worker σ) (e : Entry) (hdue : w.core.due e) (hreal : Player.isReal e) :
    Path (fun _ => Move.ofPump H) w.core
      (if w.runner.isNone then [] else if !w.prepActive && w.backpressured then []
        else [w.execMove H w.cursor e])
      (if w.runner.isNone then ((⟨w, none⟩, false) : Ran σ × Bool)
        else if !w.prepActive && w.backpressured then (⟨w, none⟩, false)
        else (w.execRealEntry H w.cursor e, (w.execRealEntry H w.cursor e).thrown.isNone)).1.w.core := by
  by_cases hrun : w.runner.isNone = true
  · rw [if_pos hrun, if_pos hrun]
    exact .refl
  rw [if_neg hrun, if_neg hrun]
  by_cases hbp : (!w.prepActive && w.backpressured) = true
  · rw [if_pos hbp, if_pos hbp]
    exact .refl
  rw [if_neg hbp, if_neg hbp]
  exact execRealEntry_path w e hdue hreal (by simpa [Option.isSome_iff_ne_none] using hrun)
    (not_backpressured (Bool.eq_false_iff.mpr hbp))

theorem declaredTurn_path (w : Worker σ) (e : Entry) (hdue : w.core.due e) (hk : e.kind ≠ .command)
    (hs : isSyntheticEvent e.payload = true) (cost : ℚ) (ops : Nat) :
    Path (fun _ => Move.ofPump H) w.core (if w.gated then [] else [.commit cost ops])
      (if w.gated then ((⟨w, none⟩, false) : Ran σ × Bool)
        else (⟨w.commit w.cursor cost ops, none⟩, true)).1.w.core := by
  by_cases hg : w.gated = true
  · rw [if_pos hg, if_pos hg]
    exact .refl
  · rw [if_neg hg, if_neg hg]
    exact .one (m := .commit cost ops) trivial ⟨e, hdue, .inr ⟨hk, hs⟩⟩ rfl

theorem turn_path (w : Worker σ) (e : Entry) (hdue : w.core.due e) :
    Path (fun _ => Move.ofPump H) w.core (w.turnMoves H e) (w.turn H e).1.w.core := by
  obtain ⟨index, kind, payload, seed⟩ := e
  cases kind with
  | command =>
    cases payload with
    | synthetic costNs fileOps ticks prep =>
      unfold turn turnMoves
      dsimp only
      by_cases hs : isSyntheticCommand (.synthetic costNs fileOps ticks prep) = true
      · rw [if_pos hs, if_pos hs]
        exact syntheticCommand_path w _ hdue rfl hs _ _ _ _
      · rw [if_neg hs, if_neg hs]
        exact realCommand_path w _ hdue rfl (by simpa using hs)
    | null | event _ | source _ => exact realCommand_path w _ hdue rfl rfl
  | event | gc =>
    cases payload with
    | synthetic costNs fileOps ticks prep =>
      cases costNs with
      | none => exact realTurn_path w _ hdue ⟨by simp, rfl⟩
      | some cost => exact declaredTurn_path w _ hdue (by simp) rfl cost _
    | null | event _ | source _ => exact realTurn_path w _ hdue ⟨by simp, rfl⟩

/-- The loop of `pump`, by induction on its turns. -/
theorem pumpLoop_path (fuel : Nat) (w : Worker σ) :
    Path (fun _ => Move.ofPump H) w.core (loopMoves H fuel w) (pumpLoop H fuel w).w.core := by
  induction fuel generalizing w with
  | zero => exact .refl
  | succ fuel ih =>
    unfold pumpLoop loopMoves
    by_cases hl : w.entryLimit ≤ w.cursor
    · rw [if_pos hl, if_pos hl]
      exact .refl
    rw [if_neg hl, if_neg hl]
    cases he : w.entries[w.cursor]? with
    | none => exact .refl
    | some e =>
      have ht := turn_path (H := H) w e ⟨Nat.lt_of_not_le hl, he⟩
      dsimp only
      rcases hr : w.turn H e with ⟨r, _ | _⟩ <;> rw [hr] at ht
      · exact ht
      · exact ht.trans (ih r.w)

theorem pump_path (w : Worker σ) :
    Path (fun _ => Move.ofPump H) w.core (w.pumpMoves H) (w.pump H).w.core := pumpLoop_path _ w

/-! ## pump, drain, ack -/

section
variable {ok : Player → Move → Prop} (hp : ∀ p m, Move.ofPump H m → ok p m)
  (hm : ∀ p, ok p .meter)
include hp hm

theorem drain_path (w : Worker σ) : Path ok w.core (w.drainMoves H) (w.drain H).w.core := by
  have hmeter : Path ok w.core [.meter] w.meter.1.core := .one (hm _) trivial (meter_core w)
  unfold drain drainMoves
  rcases hw : w.meter with ⟨w', _ | _⟩ <;> rw [hw] at hmeter
  · exact hmeter
  · exact hmeter.trans ((pump_path w').mono hp)

theorem pumpDrainAck_path (ha : ∀ p, ok p .ack) (w : Worker σ) :
    Path ok w.core (w.pumpDrainAckMoves H) (w.pumpDrainAck H).w.core := by
  have h1 := (pump_path (H := H) w).mono hp
  unfold pumpDrainAck pumpDrainAckMoves
  rcases hr1 : w.pump H with ⟨w1, _ | _⟩ <;> rw [hr1] at h1
  · have h2 := drain_path hp hm w1
    dsimp only
    rcases hr2 : w1.drain H with ⟨w2, _ | _⟩ <;> rw [hr2] at h2
    · exact h1.trans (h2.trans (.one (ha _) trivial rfl))
    · exact h1.trans h2
  · exact h1

end

/-! ## commands -/

theorem closeOp_core (idx : Nat) (label : String) (evs : List DevEvent) (w : Worker σ)
    (hb : w.captureBatch = some evs) :
    (w.closeOp idx label).core = w.core.enqueue idx evs (w.stepsOfBatch idx evs) false 0 := by
  have h := enqueueBatch_core idx evs false 0
    ({ w with captureBatch := none }.log (opLogFields idx label evs))
  unfold closeOp
  rw [hb]
  exact h

/-- An operation enqueues what it captured; it changes nothing when it throws, but for the chip
reset of a `format`. -/
theorem op_path {ok : Player → Move → Prop} (c : Cmd) (label : String) (call : RCall) (w : Worker σ)
    (hop : c.gen = w.gen → ok w.core .wipe ∧
      ∀ wipe batch steps, ok w.core (.op c.index wipe batch steps)) :
    Path ok w.core (w.opMoves H c call) (w.op H c label call).2.core := by
  unfold op opMoves
  by_cases hg : c.gen = w.gen
  swap
  · rw [if_pos hg, if_pos hg]
    exact .refl
  rw [if_neg (not_not.mpr hg), if_neg (not_not.mpr hg)]
  cases hr : w.runner with
  | none => exact .refl
  | some r =>
    have hs : ({ w with captureBatch := some [] } : Worker σ).runner.isSome := by simp [hr]
    dsimp only [Option.isNone_some]
    rw [if_neg Bool.false_ne_true, if_neg Bool.false_ne_true]
    -- the player after the runner call, wiped by a format
    have key : ∃ evs : List DevEvent, (∀ ev ∈ evs, 0 ≤ ev.ns) ∧
        (useRunner H call { w with captureBatch := some [] }).2.captureBatch = some evs ∧
        (useRunner H call { w with captureBatch := some [] }).2.core =
          if call = .format then w.core.wipe else w.core := by
      by_cases hf : call = .format
      · subst hf
        obtain ⟨hc, evs, hns, hb⟩ := useRunner_format_core (H := H) _ hs
        exact ⟨evs, hns, hb, hc⟩
      · obtain ⟨hc, evs, hns, hb⟩ := useRunner_core (H := H) hf _ hs
        exact ⟨evs, hns, hb, by rw [hc, if_neg hf]; rfl⟩
    obtain ⟨evs, hns, hb, hc⟩ := key
    rw [hr] at hb hc
    rcases hu : useRunner H call { w with captureBatch := some [], runner := some r } with
      ⟨_ | val, w1⟩ <;> rw [hu] at hb hc <;> dsimp only at hb hc ⊢
    · have hlog : ∀ it : JournalItem, ({ w1 with captureBatch := none }.log it).core
          = if call = .format then w.core.wipe else w.core := fun _ => hc
      rw [hlog]
      split
      · exact .one (hop hg).1 trivial rfl
      · exact .refl
    · rw [hb]
      refine .one ((hop hg).2 _ _ _) ?_ ?_
      · have h := stepsOfBatch_for w1 c.index evs hns
        rw [hc] at h
        by_cases hf : call = .format
        · rw [if_pos hf] at h
          exact h
        · rw [if_neg hf] at h
          exact h
      · rw [closeOp_core c.index label evs w1 hb, hc]
        simp only [Player.apply, decide_eq_true_eq, Option.getD_some]

theorem callApi_path {ok : Player → Move → Prop} (id : Nat) (call : ApiCall) (w : Worker σ)
    (hprep : ∀ p v, call = .prep v → ok p (.prep v)) :
    Path ok w.core (w.callMoves id call) (w.callApi id call).core := by
  unfold callApi callMoves
  cases w.cmds[id]? with
  | none => exact .refl
  | some c =>
    have h1 : ∀ counts, (w.enterEffects c call counts).core
        = ((w.logAll (call.lines c.index)).applyPrep call).core := by
      intro counts
      unfold enterEffects
      dsimp only
      split <;> rfl
    have h2 : ∀ w' : Worker σ, w'.core = ((w.logAll (call.lines c.index)).applyPrep call).core →
        Path ok w.core (prepMoves call) w'.core := by
      intro w' hw'
      rw [hw']
      cases call with
      | prep v =>
        refine .one (hprep _ v rfl) trivial ?_
        show (Worker.setPrep v _).core = w.core.setPrep v
        unfold Worker.setPrep Player.setPrep
        split <;> rfl
      | _ => exact .refl
    dsimp only
    cases (call.enter (w.runner.map (·.tracked)) c).1 <;> exact h2 _ (h1 _)

theorem runTask_path {ok : Player → Move → Prop} (id j : Nat) (w : Worker σ)
    (hop : ∀ c, w.cmds[id]? = some c → c.gen = w.gen → ok w.core .wipe ∧
      ∀ wipe batch steps, ok w.core (.op c.index wipe batch steps)) :
    Path ok w.core (w.taskMoves H id j) (w.runTask H id j).core := by
  unfold runTask taskMoves
  cases hc : w.cmds[id]? with
  | none => exact .refl
  | some c =>
    dsimp only
    cases ht : c.tasks[j]? with
    | none => exact .refl
    | some ot =>
      cases ot with
      | none => exact .refl
      | some t =>
        dsimp only
        cases t.op with
        | none => exact .refl
        | some lc =>
          obtain ⟨label, call⟩ := lc
          have h1 := op_path (H := H) c label call w (hop c hc)
          dsimp only
          rcases hu : w.op H c label call with ⟨_ | v, w1⟩ <;> rw [hu] at h1
          · exact h1
          · have h2 : ∀ b : Bool, ((if b = true then (w1.logAll (t.continue c.index v).lines).bumpFileOp
                else w1.logAll (t.continue c.index v).lines : Worker σ)).core = w1.core := by
              intro b
              cases b <;> rfl
            have h3 : ∀ w' : Worker σ, w'.core = w1.core → Path ok w.core (w.opMoves H c call) w'.core := by
              intro w' hw'
              rw [hw']
              exact h1
            dsimp only
            cases (t.continue c.index v).next with
            | inl t' => exact h3 _ (h2 _)
            | inr v' => exact h3 _ (h2 _)

theorem settleCmd_core (id : Nat) (err : Option String) (w : Worker σ) :
    (w.settleCmd id err).core = w.core := by
  unfold settleCmd
  cases w.cmds[id]? with
  | none => rfl
  | some c => cases err <;> rfl

theorem timer_path {ok : Player → Move → Prop} (hp : ∀ p m, Move.ofPump H m → ok p m)
    (hm : ∀ p, ok p .meter) (ha : ∀ p, ok p .ack) (hc : ∀ p idx ops, ok p (.close idx ops)) (id : Nat)
    (w : Worker σ) : Path ok w.core (w.timerMoves H id) (w.timer H id).core := by
  unfold timer timerMoves
  cases w.cmds[id]? with
  | none => exact .refl
  | some c =>
    dsimp only
    split
    · exact .refl
    split
    · exact .refl
    split
    · rename_i hdone
      have hcmd : w.core.realCmd = some c.index := by
        simp only [Bool.and_eq_true, decide_eq_true_eq] at hdone
        exact hdone.2
      refine .cons (hc _ _ _) hcmd ?_ (pumpDrainAck_path hp hm ha _)
      exact congrArg (fun p : Player => { p with realCmd := none, cursor := c.index + 1 })
        (enqueueBatch_core c.index [] true w.entryFileOps _)
    · exact .refl

/-! ## telemetry, pulls -/

theorem ensureLiveness_core (w : Worker σ) : (w.ensureLiveness H).w.core = w.core := by
  unfold ensureLiveness
  split
  · rfl
  split
  · rfl
  rename_i hmap _
  have hr : w.runner.isSome := by
    cases hr : w.runner with
    | none => simp [hr] at hmap
    | some r => rfl
  obtain ⟨hc, -⟩ := useRunner_core (H := H) (c := .liveMap) (by simp)
    { w with mapDirty := false, lastLivenessWalk := w.clock, livenessGen := w.livenessGen + 1 } hr
  dsimp only
  split <;> rename_i hu <;> rw [hu] at hc <;> exact hc

theorem post_path {ok : Player → Move → Prop} (hpost : ∀ p m, ok p (.post m)) (w w' : Worker σ)
    (h : w'.core = w.core ∨ ∃ m : W2C, m.epoch = w.epoch ∧ (∀ e a, m ≠ .grantAck e a) ∧
      w'.core = w.core.post m) : Path ok w.core (w.postMoves w') w'.core := by
  unfold postMoves
  rcases h with h | ⟨m, he, hm, h⟩
  · have hport : w'.port = w.port := congrArg Player.port h
    rw [hport, List.drop_length, List.map_nil]
    exact .of_eq h
  · have hport : w'.port = w.port ++ [m] := congrArg Player.port h
    rw [hport, List.drop_left, List.map_singleton]
    exact .one (hpost _ _) ⟨he, hm⟩ h

theorem sendTelemetry_path {ok : Player → Move → Prop} (hpost : ∀ p m, ok p (.post m)) (w : Worker σ) :
    Path ok w.core (w.postMoves (w.sendTelemetry H)) (w.sendTelemetry H).core := by
  refine post_path hpost w _ ?_
  have h1 := ensureLiveness_core (H := H) w
  unfold sendTelemetry
  split
  · exact .inl rfl
  rcases hl : w.ensureLiveness H with ⟨w1, _ | _⟩ <;> rw [hl] at h1 <;> dsimp only at h1 ⊢
  swap
  · exact .inl h1
  have hposted : ∀ w2 : Worker σ, w2.core = w.core → ∀ t, ∃ m : W2C, m.epoch = w.epoch ∧
      (∀ e a, m ≠ .grantAck e a) ∧ (w2.post (.telemetry w2.epoch t)).core = w.core.post m := by
    intro w2 hw2 t
    refine ⟨.telemetry w2.epoch t, congrArg Player.epoch hw2, fun _ _ => by simp, ?_⟩
    exact congrArg (Player.post (.telemetry w2.epoch t)) hw2
  cases hr : w1.runner with
  | none => exact .inr (hposted w1 h1 _)
  | some r =>
    obtain ⟨h2, -⟩ := useRunner_core (H := H) (c := .fsinfo) (by simp) w1 (by simp [hr])
    dsimp only
    rcases hu : useRunner H .fsinfo w1 with ⟨_ | v, w2⟩ <;> rw [hu] at h2 <;> dsimp only at h2 ⊢
    · exact .inl (h2.trans h1)
    · split
      · exact .inl (h2.trans h1)
      · exact .inr (hposted w2 (h2.trans h1) _)

theorem handlePull_path {ok : Player → Move → Prop} (hpost : ∀ p m, ok p (.post m)) (sel : PullSel)
    (w : Worker σ) : Path ok w.core (w.postMoves (w.handlePull H sel)) (w.handlePull H sel).core := by
  refine post_path hpost w _ ?_
  have hg : (w.heat.map (HeatPlayer.snapshotHeat H.pow w.clock w.scale)).map (·.geometry.pageSize)
      = w.heat.map (·.geometry.pageSize) := by
    rw [Option.map_map]
    congr 1
    funext h
    exact congrArg Geometry.pageSize (HeatPlayer.snapshotHeat_geometry _ _ _ _)
  unfold handlePull
  dsimp only
  generalize hw1 : ({ w with
    heat := w.heat.map (HeatPlayer.snapshotHeat H.pow w.clock w.scale) } : Worker σ) = w1
  have h1 : w1.core = w.core := by
    subst hw1
    simp only [core, hg]
  have h2 : (if sel.liveMap.isSome = true then w1.ensureLiveness H else ⟨w1, none⟩ : Ran σ).w.core
      = w.core := by
    split
    · rw [ensureLiveness_core, h1]
    · exact h1
  generalize (if sel.liveMap.isSome = true then w1.ensureLiveness H else ⟨w1, none⟩ : Ran σ) = rn at h2 ⊢
  obtain ⟨w2, _ | _⟩ := rn <;> dsimp only at h2 ⊢
  · exact .inr ⟨.frame w2.epoch _, congrArg Player.epoch h2, fun _ _ => by simp,
      congrArg (Player.post _) h2⟩
  · exact .inl h2

/-! ## INIT, RESET, runner builds -/

theorem buildFresh_core (e : Int) (fsId : String) (g : Option Geometry) (w : Worker σ) :
    (w.buildFresh e fsId g).core = { w.core.fresh e false (g.map (·.pageSize)) with
      gen := w.gen, builds := w.builds.map (·.gen) ++ [w.gen]
      runner := w.runner.map (·.build) } := by
  simp only [buildFresh, resetLocalState, core, Player.fresh, List.map_append, List.map_cons,
    List.map_nil, Option.map_map]
  rfl

theorem handleInit_core (e : Int) (fsId : String) (g : Geometry) (w : Worker σ) :
    (w.handleInit e fsId g).core = w.core.fresh e false (some g.pageSize) := by
  unfold handleInit
  rw [buildFresh_core]
  simp [Player.fresh, core]

theorem resetLocalState_core (e : Int) (w : Worker σ) : ∃ ps, (w.resetLocalState e).core =
    { w.core.fresh e false ps with
      gen := w.gen, builds := w.builds.map (·.gen), runner := w.runner.map (·.build) } :=
  ⟨_, rfl⟩

theorem handleReset_core (e : Int) (w : Worker σ) :
    ∃ ps, (w.handleReset H e).core = w.core.fresh e true ps := by
  unfold handleReset
  dsimp only
  cases hr : w.runner with
  | none =>
    refine ⟨w.geometry.map (·.pageSize), ?_⟩
    dsimp only
    rw [buildFresh_core]
    simp [Player.fresh, core, hr]
  | some r =>
    dsimp only
    have ht := Runner.exec_tame H.wasm .unmount (by simp) r
    generalize r.exec H.wasm .unmount = st at ht ⊢
    have hst : st.next.build = r.build := ht.build
    obtain ⟨v, -, hfold⟩ := foldDevice_tame st.events
      { w with gen := w.gen + 1, runner := some { st.next with device := st.next.device.reset } }
      fun ev he => (ht.events ev he).1
    rw [hfold]
    obtain ⟨ps, hps⟩ := resetLocalState_core e (Worker.onDevice _ .reset)
    refine ⟨ps, ?_⟩
    rw [hps]
    simp [Player.fresh, core, onDevice, hr, hst]

theorem landBuild_path {ok : Player → Move → Prop} (hp : ∀ p m, Move.ofPump H m → ok p m) (g : Nat)
    (hland : ∀ p, ok p (.land g)) (hdrop : ∀ p, ok p (.drop g)) (b : Bool) (w : Worker σ) :
    Path ok w.core (w.landMoves H g b) (w.landBuild H g b).core := by
  unfold landBuild landMoves
  cases hf : w.builds.find? (·.gen == g) with
  | none => exact .refl
  | some bd =>
    have hg : bd.gen = g := by simpa using List.find?_some hf
    have hmem : bd ∈ w.builds := List.mem_of_find?_eq_some hf
    have hfilter : (w.builds.filter (·.gen != g)).map (·.gen)
        = (w.builds.map (·.gen)).filter (· != g) := by
      rw [List.filter_map]
      rfl
    have hdropped : Path ok w.core [.drop g]
        ({ w with builds := w.builds.filter (·.gen != g) } : Worker σ).core := by
      refine .one (hdrop _) trivial ?_
      simp only [core, hfilter, Player.apply]
    dsimp only
    cases b with
    | false => exact hdropped
    | true =>
      cases bd.geometry with
      | none => exact hdropped
      | some geo =>
        dsimp only
        by_cases hgen : bd.gen = w.gen
        · rw [if_neg (not_not.mpr hgen), if_neg (not_not.mpr hgen)]
          refine .cons (hland _) ⟨?_, hg.symm.trans hgen⟩ ?_ ((pump_path _).mono hp)
          · exact List.mem_map.mpr ⟨bd, hmem, hg⟩
          · simp only [core, hfilter, Player.apply, Option.map_some, createRunner, hg]
        · rw [if_pos hgen, if_pos hgen]
          exact hdropped

/-! ## one task -/

theorem allows_ofPump {w : Worker σ} {i : WIn} (h : i.pumps = true) (p : Player) (m : Move)
    (hm : Move.ofPump H m) : w.allows H i p m := by
  cases m <;> first
    | exact h
    | exact ⟨h, hm⟩
    | exact absurd hm (by simp [Move.ofPump])

theorem onMessage_path (m : C2W) (w : Worker σ) : ∃ ps, (w.messageMoves H m = [] ∨ ps = none) ∧
    Path (w.allows H (.msg m)) (w.core.receive ps m) (w.messageMoves H m) (w.onMessage H m).core := by
  unfold onMessage Player.receive messageMoves
  cases m with
  | init e fsId g => exact ⟨_, .inl rfl, .of_eq (handleInit_core e fsId g w)⟩
  | reset e =>
    obtain ⟨ps, hps⟩ := handleReset_core (H := H) e w
    exact ⟨ps, .inl rfl, .of_eq hps⟩
  | entries e es =>
    refine ⟨none, .inr rfl, ?_⟩
    dsimp only
    by_cases he : e = w.epoch
    · rw [if_pos he, if_pos he, if_pos (show e = w.core.epoch from he)]
      exact (pump_path { w with entries := takeEntries w.entries es }).mono (allows_ofPump rfl)
    · rw [if_neg he, if_neg he, if_neg (show ¬ e = w.core.epoch from he)]
      exact .refl
  | grant e g =>
    refine ⟨none, .inr rfl, ?_⟩
    dsimp only
    by_cases he : e = w.epoch
    · rw [if_pos he, if_pos he, if_pos (show e = w.core.epoch from he)]
      refine pumpDrainAck_path (allows_ofPump (i := .msg (.grant e g)) rfl) ?_ ?_ (w.takeGrant g)
      · exact fun _ => rfl
      · exact fun _ => rfl
    · rw [if_neg he, if_neg he, if_neg (show ¬ e = w.core.epoch from he)]
      exact .refl
  | pull e sel =>
    refine ⟨none, .inr rfl, ?_⟩
    dsimp only
    split
    · exact handlePull_path (fun p m => .inr ⟨e, sel, rfl⟩) sel w
    · exact .refl

/-- **A task of a worker is its message and the moves of its player**, each one enabled and allowed
to the task. -/
theorem step_path (now : ℚ) (i : WIn) (w : Worker σ) : ∃ ps, (w.moves H now i = [] ∨ ps = none) ∧
    Path (w.allows H i) (match i with | .msg m => w.core.receive ps m | _ => w.core)
      (w.moves H now i) (w.step H now i).core := by
  have hallows : ({ w with clock := now } : Worker σ).allows H i = w.allows H i := rfl
  have hcore : ({ w with clock := now } : Worker σ).core = w.core := rfl
  unfold step moves
  dsimp only
  rw [← hallows, ← hcore]
  generalize ({ w with clock := now } : Worker σ) = w'
  cases i with
  | msg m => exact onMessage_path m w'
  | built g ok =>
    exact ⟨none, .inr rfl, landBuild_path (allows_ofPump (i := .built g ok) rfl) g
      (fun _ => ⟨ok, rfl⟩) (fun _ => ⟨ok, rfl⟩) ok w'⟩
  | telemetry => exact ⟨none, .inr rfl, sendTelemetry_path (fun p m => .inl rfl) w'⟩
  | cmd id a =>
    refine ⟨none, .inr rfl, ?_⟩
    cases a with
    | call c => exact callApi_path id c w' fun p v hv => ⟨id, by rw [hv]⟩
    | task j =>
      refine runTask_path id j w' fun c hc hg => ⟨?_, fun _ _ _ => ?_⟩
      · exact ⟨rfl, id, j, c, rfl, hc, hg⟩
      · exact ⟨rfl, id, j, c, rfl, hc, hg, rfl⟩
    | settle err => exact .of_eq (settleCmd_core id err w')
    | timer =>
      refine timer_path (allows_ofPump (i := .cmd id .timer) rfl) ?_ ?_ (fun _ _ _ => ⟨id, rfl⟩) id w'
      · exact fun _ => rfl
      · exact fun _ => rfl

/-- A task is its message and some moves of its player. -/
theorem step_moves (now : ℚ) (i : WIn) (w : Worker σ) : ∃ ps,
    Moves (w.allows H i) (match i with | .msg m => w.core.receive ps m | _ => w.core)
      (w.step H now i).core := by
  obtain ⟨ps, -, h⟩ := step_path (H := H) now i w
  exact ⟨ps, h.moves⟩

/-- **Invariant rule of a worker**: what a message and the allowed moves preserve, the task
preserves. -/
theorem step_inv {I : Player → Prop} (now : ℚ) (i : WIn) (w : Worker σ)
    (hr : ∀ ps m, i = .msg m → I w.core → I (w.core.receive ps m))
    (hI : ∀ p m, w.allows H i p m → p.Enabled m → I p → I (p.apply m)) (hp : I w.core) :
    I (w.step H now i).core := by
  obtain ⟨ps, h⟩ := step_moves (H := H) now i w
  refine h.inv hI ?_
  cases i with
  | msg m => exact hr ps m rfl hp
  | built _ _ | telemetry | cmd _ _ => exact hp

/-- A player once the message of a task has been taken. -/
def taken (ps : Option Nat) (i : WIn) (p : Player) : Player :=
  match i with
  | .msg m => p.receive ps m
  | _ => p

/-- From what holds once the message has arrived to what holds after the task, under a condition on
its moves. -/
theorem heeds_from {I : Player → Prop} {T : Player → Move → Prop} {now : ℚ} {i : WIn} {w : Worker σ}
    (hT : w.heeds T H now i)
    (hr : ∀ ps, I (taken ps i w.core))
    (hI : ∀ p m, w.allows H i p m → p.Enabled m → T p m → I p → I (p.apply m)) :
    I (w.step H now i).core := by
  obtain ⟨ps, hps, h⟩ := step_path (H := H) now i w
  unfold heeds arrive at hT
  rcases hps with hnil | rfl
  · rw [hnil] at h
    have he := h.ends
    have hps := hr ps
    cases i <;> exact he ▸ hps
  · have hn := hr none
    cases i <;> exact h.inv hT hI hn

/-- **Invariant rule of a worker under a condition on its moves.** -/
theorem heeds_inv {I : Player → Prop} {T : Player → Move → Prop} {now : ℚ} {i : WIn} {w : Worker σ}
    (hT : w.heeds T H now i) (hr : ∀ ps m, i = .msg m → I w.core → I (w.core.receive ps m))
    (hI : ∀ p m, w.allows H i p m → p.Enabled m → T p m → I p → I (p.apply m)) (hp : I w.core) :
    I (w.step H now i).core := by
  refine heeds_from hT (fun ps => ?_) hI
  cases i with
  | msg m => exact hr ps m rfl hp
  | built _ _ | telemetry | cmd _ _ => exact hp

end Worker
end FlashVis
