import FlashVis.Player.Refine
import FlashVis.Lib.Machine

/-!
# The moves of a task

`Worker.moves` lists the moves of the player that one task of a worker makes, function by function
as the worker runs.  What can go wrong in a task is a condition on one of its moves, in the player
that makes it (`Worker.heeds`).

* `Path ok p ms q`          `ms` are enabled moves from `p` to `q`, all of them satisfying `ok`;
* `Worker.moves H now i w`  the moves of task `i`, after its message has arrived (`Worker.arrive`);
* `Worker.heeds T H now i w` every move of the task meets `T` in the player that makes it.
-/

namespace FlashVis

/-- The moves `ms`, enabled and all of them satisfying `ok`, lead from `p` to `q`. -/
structure Path (ok : Player → Move → Prop) (p : Player) (ms : List Move) (q : Player) : Prop where
  along : Machine.Along Player.apply (fun p m => ok p m ∧ p.Enabled m) p ms
  ends : q = Machine.run Player.apply p ms

namespace Path
variable {ok ok' : Player → Move → Prop} {p q r : Player} {ms ms' : List Move}

theorem refl : Path ok p [] p := ⟨trivial, rfl⟩

theorem of_eq (h : q = p) : Path ok p [] q := ⟨trivial, h⟩

theorem one {m : Move} (hm : ok p m) (he : p.Enabled m) (hq : q = p.apply m) : Path ok p [m] q :=
  ⟨⟨⟨hm, he⟩, trivial⟩, hq⟩

theorem trans (h : Path ok p ms q) (h' : Path ok q ms' r) : Path ok p (ms ++ ms') r := by
  obtain ⟨ha, rfl⟩ := h
  obtain ⟨ha', rfl⟩ := h'
  exact ⟨Machine.along_append.mpr ⟨ha, ha'⟩, (Machine.run_append _ _ _ _).symm⟩

theorem cons {m : Move} (hm : ok p m) (he : p.Enabled m) (hq : q = p.apply m)
    (h : Path ok q ms r) : Path ok p (m :: ms) r := (one hm he hq).trans h

theorem mono (h : ∀ p m, ok p m → ok' p m) (hm : Path ok p ms q) : Path ok' p ms q :=
  ⟨hm.along.mono fun p m hpm => ⟨h p m hpm.1, hpm.2⟩, hm.ends⟩

theorem moves (h : Path ok p ms q) : Moves ok p q := by
  obtain ⟨ha, rfl⟩ := h
  induction ms generalizing p with
  | nil => exact .refl
  | cons m ms ih => exact (Moves.one ha.1.1 ha.1.2 rfl).trans (ih ha.2)

/-- **Invariant rule of a path** whose moves meet `T` as well. -/
theorem inv {I : Player → Prop} {T : Player → Move → Prop} (h : Path ok p ms q)
    (hT : Machine.Along Player.apply T p ms)
    (hI : ∀ p m, ok p m → p.Enabled m → T p m → I p → I (p.apply m)) (hp : I p) : I q := by
  rw [h.ends]
  exact Machine.run_inv (fun p m hg => hI p m hg.1.1 hg.1.2 hg.2) (h.along.and hT) hp

end Path

namespace Worker
variable {σ : Type}

/-! ## the pump -/

/-- `execRealEntry` -/
def execMove (H : Host σ) (index : Nat) (entry : Entry) (w : Worker σ) : Move :=
  let w := w.openEntry ((entryCall entry).map Prod.fst)
  match entryCall entry with
  | none => .exec none [] [] w.entryFileOps
  | some (call, _) =>
    match useRunner H call (w.noteRan index call) with
    | (.error _, _) => .fail call
    | (.ok _, w) =>
      let batch := w.captureBatch.getD []
      .exec (some call) batch (w.stepsOfBatch index batch) w.entryFileOps

/-- `realCommand` -/
def commandMoves (H : Host σ) (entry : Entry) (w : Worker σ) : List Move :=
  if w.realCmd = some w.cursor then []
  else if w.runner.isNone then []
  else if !w.prepActive && w.backpressured then []
  else
    match H.compileError (sourceOf entry.payload) with
    | some _ => [.syntaxError]
    | none => [.start]

/-- `syntheticCommand` -/
def syntheticMoves (costNs : Option ℚ) (fileOps ticks : Option Nat) (prep : Option Bool)
    (w : Worker σ) : List Move :=
  match prep with
  | some true => [.openPrep]
  | some false => [.closePrep (costNs.getD 0)]
  | none =>
    if 1 < ticks.getD 0 then
      if 0 < w.ticksLeft (ticks.getD 0) - 1 then []
      else [.commit (costNs.getD 0) (fileOps.getD 1)]
    else if w.gated then []
    else [.commit (costNs.getD 0) (fileOps.getD 1)]

/-- `turn` -/
def turnMoves (H : Host σ) (entry : Entry) (w : Worker σ) : List Move :=
  match entry.kind, entry.payload with
  | .command, .synthetic costNs fileOps ticks prep =>
    if isSyntheticCommand entry.payload then w.syntheticMoves costNs fileOps ticks prep
    else w.commandMoves H entry
  | .command, _ => w.commandMoves H entry
  | kind, .synthetic (some cost) fileOps _ _ =>
    if w.gated then [] else [.commit cost (fileOps.getD (if kind = .gc then 0 else 1))]
  | _, _ =>
    if w.runner.isNone then []
    else if !w.prepActive && w.backpressured then []
    else [w.execMove H w.cursor entry]

/-- `pumpLoop` -/
def loopMoves (H : Host σ) : Nat → Worker σ → List Move
  | 0, _ => []
  | fuel + 1, w =>
    if w.entryLimit ≤ w.cursor then []
    else
      match w.entries[w.cursor]? with
      | none => []
      | some entry =>
        match w.turn H entry with
        | (r, true) => w.turnMoves H entry ++ loopMoves H fuel r.w
        | (_, false) => w.turnMoves H entry

/-- `pump` -/
def pumpMoves (H : Host σ) (w : Worker σ) : List Move := loopMoves H (w.entryLimit - w.cursor) w

/-- `drain` -/
def drainMoves (H : Host σ) (w : Worker σ) : List Move :=
  match w.meter with
  | (w', true) => .meter :: w'.pumpMoves H
  | (_, false) => [.meter]

/-- `pumpDrainAck` -/
def pumpDrainAckMoves (H : Host σ) (w : Worker σ) : List Move :=
  match w.pump H with
  | ⟨w', none⟩ =>
    match w'.drain H with
    | ⟨_, none⟩ => w.pumpMoves H ++ (w'.drainMoves H ++ [.ack])
    | ⟨_, some _⟩ => w.pumpMoves H ++ w'.drainMoves H
  | ⟨_, some _⟩ => w.pumpMoves H

/-! ## commands -/

/-- `op` -/
def opMoves (H : Host σ) (c : Cmd) (call : RCall) (w : Worker σ) : List Move :=
  if c.gen ≠ w.gen then []
  else if w.runner.isNone then []
  else
    match useRunner H call { w with captureBatch := some [] } with
    | (.error _, _) => if call = .format then [.wipe] else []
    | (.ok _, w) =>
      let batch := w.captureBatch.getD []
      [.op c.index (decide (call = .format)) batch (w.stepsOfBatch c.index batch)]

/-- `applyPrep` -/
def prepMoves : ApiCall → List Move
  | .prep v => [.prep v]
  | _ => []

/-- `callApi` -/
def callMoves (id : Nat) (call : ApiCall) (w : Worker σ) : List Move :=
  match w.cmds[id]? with
  | none => []
  | some _ => prepMoves call

/-- `runTask` -/
def taskMoves (H : Host σ) (id j : Nat) (w : Worker σ) : List Move :=
  match w.cmds[id]? with
  | none => []
  | some c =>
    match c.tasks[j]? with
    | some (some t) =>
      match t.op with
      | none => []
      | some (_, call) => w.opMoves H c call
    | _ => []

/-- `timer` -/
def timerMoves (H : Host σ) (id : Nat) (w : Worker σ) : List Move :=
  match w.cmds[id]? with
  | none => []
  | some c =>
    if c.timers = 0 then []
    else
      let w := w.setCmd id { c with timers := c.timers - 1 }
      if c.settled || c.gen != w.gen then []
      else if c.fnDone && c.inFlight = 0 && w.realCmd = some c.index then
        let w := w.setCmd id { c with timers := c.timers - 1, settled := true }
        .close c.index w.entryFileOps :: (w.closeCommand c.index).pumpDrainAckMoves H
      else []

/-! ## telemetry, pulls, builds -/

/-- The messages that a task posts, when posting is all it does. -/
def postMoves (w w' : Worker σ) : List Move := (w'.port.drop w.port.length).map .post

/-- `landBuild` -/
def landMoves (H : Host σ) (gen : Nat) (ok : Bool) (w : Worker σ) : List Move :=
  match w.builds.find? (·.gen == gen) with
  | none => []
  | some b =>
    let w := { w with builds := w.builds.filter (·.gen != gen) }
    match ok, b.geometry with
    | true, some g =>
      if b.gen ≠ w.gen then [.drop gen]
      else .land gen :: pumpMoves H { w with runner := some (createRunner H.wasm b.fsId g b.gen) }
    | _, _ => [.drop gen]

/-! ## one task -/

/-- `onMessage`, after the message has arrived -/
def messageMoves (H : Host σ) (m : C2W) (w : Worker σ) : List Move :=
  match m with
  | .init _ _ _ | .reset _ => []
  | .entries e es =>
    if e = w.epoch then pumpMoves H { w with entries := takeEntries w.entries es } else []
  | .grant e g => if e = w.epoch then (w.takeGrant g).pumpDrainAckMoves H else []
  | .pull e sel => if e = w.epoch then w.postMoves (w.handlePull H sel) else []

/-- The player once the message of a task has arrived. -/
def arrive (i : WIn) (w : Worker σ) : Player :=
  match i with
  | .msg m => w.core.receive none m
  | _ => w.core

/-- The moves of a task. -/
def moves (H : Host σ) (now : ℚ) (i : WIn) (w : Worker σ) : List Move :=
  let w := { w with clock := now }
  match i with
  | .msg m => w.messageMoves H m
  | .built gen ok => w.landMoves H gen ok
  | .telemetry => w.postMoves (w.sendTelemetry H)
  | .cmd id (.call c) => w.callMoves id c
  | .cmd id (.task j) => w.taskMoves H id j
  | .cmd _ (.settle _) => []
  | .cmd id .timer => w.timerMoves H id

/-- Every move of the task meets `T` in the player that makes it. -/
def heeds (T : Player → Move → Prop) (H : Host σ) (now : ℚ) (i : WIn) (w : Worker σ) : Prop :=
  Machine.Along Player.apply T (w.arrive i) (w.moves H now i)

end Worker
end FlashVis
