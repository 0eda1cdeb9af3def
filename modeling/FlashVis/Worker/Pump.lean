import FlashVis.Worker.Command

/-!
# The execution pump and the drain that re-enters it (session-worker.js: pump, drain)

`pumpLoop` is the loop of `pump`, `execRealEntry` and `startRealCommand` are its real turns and
`syntheticCommand` the declared-cost ones.  A runner call that throws unwinds through all of them:
`Ran.thrown` carries the error.
-/

namespace FlashVis

/-- The runner call of a real event or gc entry with its tape label; `none` for DONE and
NO_SLOT. -/
def entryCall (entry : Entry) : Option (RCall × String) :=
  match entry.kind, entry.payload with
  | .gc, _ => some (.gcStep 1, "gc()")
  | _, .event ev =>
    match ev.type with
    | .write => some (.write ev.name (deterministicBytes ev.writeSeed ev.size),
        s!"write({ev.name}, {ev.size} B)")
    | .delete => some (.remove ev.name, s!"delete({ev.name})")
    | _ => none
  | _, _ => none

/-- WRITE and DELETE entries count as a file operation, a gc step does not. -/
def callBumps : RCall → Bool
  | .gcStep _ => false
  | _ => true

namespace Worker
variable {σ : Type}

/-- `commit`: a declared-cost entry executes and drains at once. -/
def commit (index : Nat) (cost : ℚ) (fileOps : Nat) (w : Worker σ) : Worker σ :=
  { w with
    playbackNs := w.playbackNs + cost
    dispFlashNs := w.dispFlashNs + cost
    dispFileOps := w.dispFileOps + fileOps
    execFileOps := w.execFileOps + fileOps
    entriesDrained := index
    cursor := index + 1 }

/-- The declared-cost gate: `!prepActive && playbackNs >= playLimitNs`. -/
def gated (w : Worker σ) : Bool := !w.prepActive && decide (w.playLimitNs ≤ (w.playbackNs : Limit))

/-- Ticks that the multi-tick command at the cursor has left. -/
def ticksLeft (n : Nat) (w : Worker σ) : Nat :=
  match w.pendingTick with
  | some (i, rem) => if i = w.cursor then rem else n
  | none => n

/-- A synthetic command at the cursor; `false` when the pump stops here. -/
def syntheticCommand (costNs : Option ℚ) (fileOps ticks : Option Nat) (prep : Option Bool)
    (w : Worker σ) : Worker σ × Bool :=
  let cost := costNs.getD 0
  match prep with
  | some true => ((w.setPrep true).commit w.cursor 0 0, true)
  | some false =>
    let w' := { w with playbackNs := w.playbackNs + cost, dispFlashNs := w.dispFlashNs + cost }
    ({ w'.setPrep false with entriesDrained := w.cursor, cursor := w.cursor + 1 }, true)
  | none =>
    let n := ticks.getD 0
    if 1 < n then
      let rem := w.ticksLeft n - 1
      if 0 < rem then ({ w with pendingTick := some (w.cursor, rem) }, false)
      else ({ w with pendingTick := none }.commit w.cursor cost (fileOps.getD 1), true)
    else if w.gated then (w, false)
    else (w.commit w.cursor cost (fileOps.getD 1), true)

/-- `execRealEntry` up to the runner call: the capture sink is opened, the file operation
counted. -/
def openEntry (call : Option RCall) (w : Worker σ) : Worker σ :=
  let w := { w with captureBatch := some [], entryFileOps := 0 }
  if call.any callBumps then w.bumpFileOp else w

/-- History: entry `index` calls the runner. -/
def noteRan (index : Nat) (call : RCall) (w : Worker σ) : Worker σ :=
  match w.runner with
  | some r => { w with hist := w.hist ++ [.ran r.build index call] }
  | none => w

/-- `label && batch.length`: the tape line of an executed entry. -/
def logBatch (index : Nat) (label : Option String) (batch : List DevEvent) (w : Worker σ) :
    Worker σ :=
  match label with
  | some l => if batch = [] then w else w.log (opLogFields index l batch)
  | none => w

/-- `execRealEntry` after the runner call: the captured events are logged and queued, the cursor
moves. -/
def closeEntry (index : Nat) (label : Option String) (w : Worker σ) : Worker σ :=
  let batch := w.captureBatch.getD []
  let w := { w with captureBatch := none }.logBatch index label batch
  { w.enqueueBatch index batch true w.entryFileOps with cursor := index + 1 }

/-- `execRealEntry`: one event or gc entry runs in the module, its device events captured. When
the call throws, everything after it is skipped. -/
def execRealEntry (H : Host σ) (index : Nat) (entry : Entry) (w : Worker σ) : Ran σ :=
  let w := w.openEntry ((entryCall entry).map Prod.fst)
  match entryCall entry with
  | none => ⟨w.closeEntry index none, none⟩
  | some (call, label) =>
    match useRunner H call (w.noteRan index call) with
    | (.error e, w) => ⟨w, some e⟩
    | (.ok _, w) => ⟨w.closeEntry index (some label), none⟩

/-- The text that `compileSource` is given. -/
def sourceOf : Payload → String
  | .source src => src
  | .null => "null"
  | _ => "[object Object]"

/-- `startRealCommand` up to the compile: the echo and the started marker are journalled. -/
def openCommand (index : Nat) (entry : Entry) (w : Worker σ) : Worker σ :=
  let w := { w with realCmd := some index, entryFileOps := 0, hist := w.hist ++ [Act.started index] }
  let w := match entry.payload with
    | .source src => w.log { entryIndex := index, kind := .echo, text := "› " ++ src }
    | _ => w
  w.log { entryIndex := index, kind := .started, text := "command" }

/-- `startRealCommand`: the closure of the command is set up; a syntax error closes the entry at
once. -/
def startRealCommand (H : Host σ) (index : Nat) (entry : Entry) (w : Worker σ) : Worker σ :=
  let w := w.openCommand index entry
  match H.compileError (sourceOf entry.payload) with
  | some e =>
    let w := w.log { entryIndex := index, kind := .done, text := "command compile error: " ++ e }
    { w.enqueueBatch index [] true 0 with realCmd := none, cursor := index + 1 }
  | none =>
    let c : Cmd := { index := index, gen := w.gen, rng := entry.seed }
    { w with cmds := w.cmds ++ [c] }

/-- A real command at the cursor: in flight, parked, or started. -/
def realCommand (H : Host σ) (entry : Entry) (w : Worker σ) : Worker σ :=
  if w.realCmd = some w.cursor then w
  else if w.runner.isNone then w
  else if !w.prepActive && w.backpressured then w
  else w.startRealCommand H w.cursor entry

/-- One turn of the loop of `pump` on the entry at the cursor, and whether the loop goes on. -/
def turn (H : Host σ) (entry : Entry) (w : Worker σ) : Ran σ × Bool :=
  match entry.kind, entry.payload with
  | .command, .synthetic costNs fileOps ticks prep =>
    if isSyntheticCommand entry.payload then
      let (w', more) := w.syntheticCommand costNs fileOps ticks prep
      (⟨w', none⟩, more)
    else (⟨w.realCommand H entry, none⟩, false)
  | .command, _ => (⟨w.realCommand H entry, none⟩, false)
  | kind, .synthetic (some cost) fileOps _ _ =>
    if w.gated then (⟨w, none⟩, false)
    else (⟨w.commit w.cursor cost (fileOps.getD (if kind = .gc then 0 else 1)), none⟩, true)
  | _, _ =>
    if w.runner.isNone then (⟨w, none⟩, false)
    else if !w.prepActive && w.backpressured then (⟨w, none⟩, false)
    else
      let r := w.execRealEntry H w.cursor entry
      (r, r.thrown.isNone)

/-- The loop of `pump`, one turn a step of fuel. -/
def pumpLoop (H : Host σ) : Nat → Worker σ → Ran σ
  | 0, w => ⟨w, none⟩
  | fuel + 1, w =>
    if w.entryLimit ≤ w.cursor then ⟨w, none⟩
    else
      match w.entries[w.cursor]? with
      | none => ⟨w, none⟩
      | some entry =>
        match w.turn H entry with
        | (r, true) => pumpLoop H fuel r.w
        | (r, false) => r

/-- `pump`: every turn that goes on advances the cursor, so `entryLimit - cursor` turns do. -/
def pump (H : Host σ) (w : Worker σ) : Ran σ := pumpLoop H (w.entryLimit - w.cursor) w

/-- `drain`: the metered queue, then the pump when playback moved. -/
def drain (H : Host σ) (w : Worker σ) : Ran σ :=
  match w.meter with
  | (w', true) => w'.pump H
  | (w', false) => ⟨w', none⟩

/-- `pump(); drain(); ack();`, each skipped when the one before threw. -/
def pumpDrainAck (H : Host σ) (w : Worker σ) : Ran σ :=
  match w.pump H with
  | ⟨w, none⟩ =>
    match w.drain H with
    | ⟨w, none⟩ => ⟨w.ack, none⟩
    | r => r
  | r => r

/-- `finish` up to its pump: the command's terminal marker is queued and the cursor moves. -/
def closeCommand (index : Nat) (w : Worker σ) : Worker σ :=
  let w := w.log { entryIndex := index, kind := .done, text := "command" }
  { w.enqueueBatch index [] true w.entryFileOps with realCmd := none, cursor := index + 1 }

/-- A `setTimeout(check)` callback of command `id`. -/
def timer (H : Host σ) (id : Nat) (w : Worker σ) : Worker σ :=
  match w.cmds[id]? with
  | none => w
  | some c =>
    if c.timers = 0 then w
    else
      let w := w.setCmd id { c with timers := c.timers - 1 }
      if c.settled || c.gen != w.gen then w
      else if c.fnDone && c.inFlight = 0 && w.realCmd = some c.index then
        let w := w.setCmd id { c with timers := c.timers - 1, settled := true }
        ((w.closeCommand c.index).pumpDrainAck H).w
      else w

end Worker
end FlashVis
