import FlashVis.Worker.Host
import Mathlib.Logic.Relation

/-!
# The player: an abstract machine for one worker

What a worker is for, without the filesystem behind it: entries arrive, are executed in order
below the granted index, put flash time of an arbitrary amount on a queue, and the queue is played
up to the granted watermark.  It takes messages and makes moves; the flash time that an execution
causes, and whether a runner call fails, are the move's own data.

* `Player`            the state: the part of a worker that grants, acks and invariants speak of;
* `Player.receive`    a message arrives;
* `Move`, `Enabled`, `Player.apply`   the moves, when each is possible and what it does;
* `Player.meter`      the metered queue (the arithmetic of `drain`, no heat);
* `Worker.core`       the player inside a worker.

`FlashVis.Player.Refine` shows that every task of a worker is a sequence of moves.
-/

namespace FlashVis

structure Player where
  epoch : Int
  gen : Nat
  builds : List Nat
  entries : List Entry
  entryLimit : Nat
  playLimitNs : Limit
  scale : ℚ
  round : Int
  cursor : Nat
  entriesDrained : Int
  playbackNs : ℚ
  fileOps : Nat
  flashNs : ℚ
  prepActive : Bool
  realCmd : Option Nat
  queue : List PbStep
  executedTapeNs : ℚ
  runner : Option Nat
  pageSize : Option Nat
  port : List W2C
  hist : List Act

/-- A move of the player. -/
inductive Move where
  /-- a real event or gc entry at the cursor runs and its device events are enqueued -/
  | exec (call : Option RCall) (batch : List DevEvent) (steps : List PbStep) (ops : Nat)
  /-- its runner call throws -/
  | fail (call : RCall)
  /-- a command at the cursor starts -/
  | start
  /-- a command at the cursor does not compile -/
  | syntaxError
  /-- an operation of a command: the chip may be reset first -/
  | op (index : Nat) (wipe : Bool) (batch : List DevEvent) (steps : List PbStep)
  /-- an operation that throws after a chip reset -/
  | wipe
  /-- the command in flight has quiesced -/
  | close (index ops : Nat)
  /-- a console `prep(v)` -/
  | prep (v : Bool)
  /-- declared-cost entries -/
  | openPrep
  | closePrep (cost : ℚ)
  | commit (cost : ℚ) (ops : Nat)
  /-- the queue is metered against the granted watermark -/
  | meter
  | ack
  /-- a frame or telemetry message -/
  | post (m : W2C)
  /-- a runner build lands, or is dropped: superseded, or failed -/
  | land (build : Nat)
  | drop (build : Nat)

namespace Player

/-- `enqueueBatch` -/
def enqueue (idx : Nat) (batch : List DevEvent) (steps : List PbStep) (last : Bool) (ops : Nat)
    (p : Player) : Player :=
  let cost := (batch.map DevEvent.ns).sum
  let p := { p with hist := p.hist ++ [Act.enqueued idx batch p.prepActive] }
  if p.prepActive then
    { p with
      playbackNs := p.playbackNs + cost, flashNs := p.flashNs + cost
      entriesDrained := if last then (idx : Int) else p.entriesDrained
      fileOps := if last then p.fileOps + ops else p.fileOps }
  else
    { p with
      executedTapeNs := p.executedTapeNs + cost
      queue := p.queue ++ steps ++ (if last then [Worker.marker idx ops] else []) }

/-- Flash time played. -/
def advance (ns : ℚ) (p : Player) : Player :=
  { p with playbackNs := p.playbackNs + ns, flashNs := p.flashNs + ns }

/-- A step leaves the queue. -/
def closeStep (step : PbStep) (p : Player) : Player :=
  if step.last then { p with entriesDrained := step.entryIndex, fileOps := p.fileOps + step.fileOps }
  else p

/-- The loop of the metered queue. -/
def playLoop : List PbStep → Nat → Limit → Player → Player
  | [], _, _, p => { p with queue := [] }
  | step :: rest, 0, _, p => { p with queue := step :: rest }
  | step :: rest, k + 1, budget, p =>
    let k := if step.started then k + 1 else k
    match budget with
    | ⊤ => playLoop rest k ⊤ ((p.advance step.unplayed).closeStep step)
    | (b : ℚ) =>
      if step.unplayed ≤ b then
        playLoop rest k ((b - step.unplayed : ℚ) : Limit) ((p.advance step.unplayed).closeStep step)
      else
        { p.advance b with
          queue := { step with started := true, curRem := step.unplayed - b } :: rest }

def budget (p : Player) : Limit := if p.prepActive then ⊤ else headroom p.playLimitNs p.playbackNs

/-- `drain` without its closing pump. -/
def meter (p : Player) : Player :=
  if p.queue = [] then p
  else if ¬ (0 < p.budget) then p
  else playLoop p.queue MAX_OPS_PER_FRAME p.budget p

def ackOf (p : Player) : GrantAck where
  round := p.round
  playbackNs := p.playbackNs
  cursor := p.cursor
  entriesDrained := p.entriesDrained
  fileOpCount := p.fileOps
  flashTimeNs := p.flashNs

def post (m : W2C) (p : Player) : Player :=
  { p with port := p.port ++ [m], hist := p.hist ++ [.posted m] }

/-- `executedTapeNs` and the queue are dropped when the chip is reset. -/
def wipe (p : Player) : Player :=
  { p with queue := [], executedTapeNs := 0, hist := p.hist ++ [.wiped p.playbackNs] }

def setPrep (v : Bool) (p : Player) : Player :=
  if v then { p with prepActive := true }
  else { p with prepActive := false, fileOps := 0, flashNs := 0 }

def commit (cost : ℚ) (ops : Nat) (p : Player) : Player :=
  { p with
    playbackNs := p.playbackNs + cost, flashNs := p.flashNs + cost, fileOps := p.fileOps + ops
    entriesDrained := p.cursor, cursor := p.cursor + 1 }

/-- ENTRIES -/
def feed (es : List Entry) (p : Player) : Player :=
  { p with entries := Worker.takeEntries p.entries es }

/-- GRANT -/
def grant (g : Grant) (p : Player) : Player :=
  { p with
    round := g.round, entryLimit := g.entryLimit, playLimitNs := g.playLimitNs, scale := g.scale
    hist := p.hist ++ [.granted g] }

/-- The player of a new life: INIT or RESET. A built runner survives a RESET (`keep`). -/
def fresh (e : Int) (keep : Bool) (pageSize : Option Nat) (p : Player) : Player where
  epoch := e
  gen := p.gen + 1
  builds := if keep && p.runner.isSome then p.builds else p.builds ++ [p.gen + 1]
  entries := []
  entryLimit := 0
  playLimitNs := (0 : ℚ)
  scale := 20000
  round := -1
  cursor := 0
  entriesDrained := -1
  playbackNs := 0
  fileOps := 0
  flashNs := 0
  prepActive := false
  realCmd := none
  queue := []
  executedTapeNs := 0
  runner := if keep then p.runner else none
  pageSize := pageSize
  port := p.port
  hist := []

/-- A message arrives. INIT and RESET carry the epoch they transition to, every other message is
dropped on an epoch mismatch. `pageSize` is the geometry's, after an INIT or RESET. -/
def receive (pageSize : Option Nat) (m : C2W) (p : Player) : Player :=
  match m with
  | .init e _ _ => p.fresh e false pageSize
  | .reset e => p.fresh e true pageSize
  | .entries e es => if e = p.epoch then p.feed es else p
  | .grant e g => if e = p.epoch then p.grant g else p
  | .pull _ _ => p

/-- What a move does. -/
def apply (p : Player) : Move → Player
  | .exec call batch steps ops =>
    let p' := match call with
      | some c => { p with hist := p.hist ++ [Act.ran (p.runner.getD 0) p.cursor c] }
      | none => p
    { p'.enqueue p.cursor batch steps true ops with cursor := p.cursor + 1 }
  | .fail call => { p with hist := p.hist ++ [Act.ran (p.runner.getD 0) p.cursor call] }
  | .start => { p with realCmd := some p.cursor, hist := p.hist ++ [Act.started p.cursor] }
  | .syntaxError =>
    let p' := { p with realCmd := some p.cursor, hist := p.hist ++ [Act.started p.cursor] }
    { p'.enqueue p.cursor [] [] true 0 with realCmd := none, cursor := p.cursor + 1 }
  | .op idx wipe batch steps => (if wipe then p.wipe else p).enqueue idx batch steps false 0
  | .wipe => p.wipe
  | .close idx ops => { p.enqueue idx [] [] true ops with realCmd := none, cursor := idx + 1 }
  | .prep v => p.setPrep v
  | .openPrep => (p.setPrep true).commit 0 0
  | .closePrep cost =>
    { (p.advance cost).setPrep false with entriesDrained := p.cursor, cursor := p.cursor + 1 }
  | .commit cost ops => p.commit cost ops
  | .meter => p.meter
  | .ack => p.post (.grantAck p.epoch p.ackOf)
  | .post m => p.post m
  | .land b => { p with runner := some b, builds := p.builds.filter (· != b) }
  | .drop b => { p with builds := p.builds.filter (· != b) }

def tapeCapNs (p : Player) : ℚ := TAPE_CAP_FRAMES * p.scale * MS_PER_FRAME

/-- I3: a real entry is started only when the backlog is below its caps. -/
def room (p : Player) : Prop :=
  p.prepActive = true ∨
    (p.executedTapeNs - p.playbackNs < p.tapeCapNs ∧ p.queue.length < BACKLOG_CAP)

/-- A real event or gc entry. -/
def isReal (e : Entry) : Prop := e.kind ≠ .command ∧ isSyntheticEvent e.payload = false

/-- The cursor stands on an authorized entry that has arrived. -/
def due (p : Player) (e : Entry) : Prop := p.cursor < p.entryLimit ∧ p.entries[p.cursor]? = some e

/-- The steps of a batch enqueued under `idx`: per-page steps, not started, of nonnegative cost. -/
def stepsFor (idx : Nat) (steps : List PbStep) : Prop :=
  ∀ s ∈ steps, s.entryIndex = idx ∧ s.last = false ∧ s.started = false ∧ 0 ≤ s.ns

/-- The flash time of an event that its per-page steps carry: all of it, unless the event touches
no page at all (a zero length at a page boundary). -/
def splitNs (pageSize : Option Nat) : DevEvent → ℚ
  | .reset => 0
  | .erase _ _ _ ns => ns
  | .read off len ns | .prog off len ns =>
    match pageSize with
    | some ps => if Device.spanCount ps off len = 0 then 0 else ns
    | none => ns

/-- Device events have nonnegative cost, and the queue part is a split of the batch. -/
def batchFor (pageSize : Option Nat) (idx : Nat) (batch : List DevEvent) (steps : List PbStep) :
    Prop :=
  (∀ ev ∈ batch, 0 ≤ ev.ns) ∧ stepsFor idx steps ∧
    (steps.map (·.ns)).sum = (batch.map (splitNs pageSize)).sum

/-- When a move is possible. -/
def Enabled (p : Player) : Move → Prop
  | .exec call batch steps _ =>
    ∃ e, p.due e ∧ isReal e ∧ p.runner.isSome ∧ p.room ∧ (entryCall e).map Prod.fst = call ∧
      batchFor p.pageSize p.cursor batch steps
  | .fail call =>
    ∃ e, p.due e ∧ isReal e ∧ p.runner.isSome ∧ p.room ∧ (entryCall e).map Prod.fst = some call
  | .start | .syntaxError =>
    ∃ e, p.due e ∧ e.kind = .command ∧ isSyntheticCommand e.payload = false ∧
      p.realCmd ≠ some p.cursor ∧ p.runner.isSome ∧ p.room
  | .op idx _ batch steps => batchFor p.pageSize idx batch steps
  | .close idx _ => p.realCmd = some idx
  | .openPrep | .closePrep _ =>
    ∃ e, p.due e ∧ e.kind = .command ∧ isSyntheticCommand e.payload = true
  | .commit _ _ => ∃ e, p.due e ∧
      (e.kind = .command ∧ isSyntheticCommand e.payload = true ∨
        e.kind ≠ .command ∧ isSyntheticEvent e.payload = true)
  | .post m => m.epoch = p.epoch ∧ ∀ e a, m ≠ .grantAck e a
  | .land b => b ∈ p.builds ∧ b = p.gen
  | .wipe | .prep _ | .meter | .ack | .drop _ => True

end Player

/-- The player inside a worker. -/
def Worker.core {σ : Type} (w : Worker σ) : Player where
  epoch := w.epoch
  gen := w.gen
  builds := w.builds.map (·.gen)
  entries := w.entries
  entryLimit := w.entryLimit
  playLimitNs := w.playLimitNs
  scale := w.scale
  round := w.round
  cursor := w.cursor
  entriesDrained := w.entriesDrained
  playbackNs := w.playbackNs
  fileOps := w.dispFileOps
  flashNs := w.dispFlashNs
  prepActive := w.prepActive
  realCmd := w.realCmd
  queue := w.pbQueue
  executedTapeNs := w.executedTapeNs
  runner := w.runner.map (·.build)
  pageSize := w.heat.map (·.geometry.pageSize)
  port := w.port
  hist := w.hist

end FlashVis
