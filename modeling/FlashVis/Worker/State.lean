import FlashVis.Model.Heat
import FlashVis.Model.Rings
import FlashVis.Model.Runner

/-!
# The state of one session worker (session-worker.js)

`Worker` is the closure of `installWorkerHost`: its variables under their own names, in three
groups that are written by different code.

* `Ctl`    what only message handlers write: epoch, entries list, the last grant;
* `Play`   execution and playback: cursor, playback queue, the running totals, the command;
* `View`   what is only shown: heat, journal, viz events, the liveness walk.

The runner sits beside them, with the closures of every command ever started (`cmds`, a command
can resume after its epoch is over), the messages posted and not yet delivered (`port`), and a
history of the current life (`hist`, cleared by INIT and RESET) that no code reads.
-/

namespace FlashVis

/-- What the worker gets from outside: the loaded modules, `Math.pow(0.5, ·)`, and the compiler's
verdict on a command's source (the message of its syntax error, if any). -/
structure Host (σ : Type) where
  wasm : Wasm σ
  pow : ℚ → ℚ
  compileError : String → Option String

def MIN_ANIM : ℚ := 110
def MAX_ANIM : ℚ := 9000
def MAX_OPS_PER_FRAME : Nat := 500
def TAPE_CAP_FRAMES : ℚ := 4
def BACKLOG_CAP : Nat := 100000

/-- A step of the playback queue: a per-page step of a device event, or the terminal marker
(`last`) that closes an entry and carries its file operations. -/
structure PbStep where
  entryIndex : Nat
  ns : ℚ
  pstep : Option PStep
  fileOps : Nat
  last : Bool
  started : Bool := false
  curRem : ℚ := 0
  deriving DecidableEq, Repr

/-- Nanoseconds of a step that have not been played. -/
def PbStep.unplayed (s : PbStep) : ℚ := if s.started then s.curRem else s.ns

/-- A runner build that has not landed yet. -/
structure Build where
  gen : Nat
  fsId : String
  geometry : Option Geometry
  deriving DecidableEq, Repr

/-- An API call of a command whose promise has not settled: what it still has to run. -/
inductive Task where
  | one (label : String) (call : RCall)
  | value (v : Val)
  | mkdir (cur : String) (parts : List String)
  | scanOpen (pre : String) (printEach sorted : Bool)
  | scanRead (dir : Nat) (files : List (String × Int)) (printEach sorted : Bool)
  | scanClose (dir : Nat) (files : List (String × Int)) (printEach sorted : Bool)
  | formatMount
  deriving DecidableEq, Repr

/-- The closure of one `startRealCommand`: its entry, the generation it belongs to, its seeded
draws, the in-flight calls, and the `setTimeout(check)` callbacks that are due. -/
structure Cmd where
  index : Nat
  gen : Nat
  rng : UInt32
  nameSeq : Nat := 0
  inFlight : Int := 0
  tasks : List (Option Task) := []
  replies : List (Except String Val) := []
  fnDone : Bool := false
  settled : Bool := false
  timers : Nat := 0

/-- An action of the current life, in the order taken: grants handled, messages posted, runner
calls of event and gc entries (with the build of the runner), command starts, batches enqueued
(inside a prep bracket or not), and device resets at a playback position. -/
inductive Act where
  | granted (g : Grant)
  | posted (m : W2C)
  | ran (build index : Nat) (call : RCall)
  | started (index : Nat)
  | enqueued (index : Nat) (batch : List DevEvent) (prep : Bool)
  | wiped (playbackNs : ℚ)
  deriving DecidableEq

structure Ctl where
  epoch : Int := -1
  gen : Nat := 0
  fsId : String := ""
  geometry : Option Geometry := none
  builds : List Build := []
  entries : List Entry := []
  entryLimit : Nat := 0
  playLimitNs : Limit := (0 : ℚ)
  scale : ℚ := 20000
  round : Int := -1
  telemetryTimer : Bool := false

structure Play where
  cursor : Nat := 0
  entriesDrained : Int := -1
  playbackNs : ℚ := 0
  dispFileOps : Nat := 0
  dispFlashNs : ℚ := 0
  execFileOps : Nat := 0
  prepActive : Bool := false
  pendingTick : Option (Nat × Nat) := none
  realCmd : Option Nat := none
  pbQueue : List PbStep := []
  executedTapeNs : ℚ := 0
  captureBatch : Option (List DevEvent) := none
  entryFileOps : Nat := 0

structure View where
  heat : Option HeatPlayer := none
  journal : Ring JournalItem := createRing JOURNAL_MAX
  events : Ring VizEvent := createRing JOURNAL_MAX
  mapDirty : Bool := true
  cachedMap : Option (List Nat) := none
  cachedCounts : LivenessCounts := {}
  livenessGen : Nat := 0
  lastLivenessWalk : ℚ := 0

/-- The worker. `clock` is the wall-clock time of the macrotask that runs. -/
structure Worker (σ : Type) extends Ctl, Play, View where
  runner : Option (Runner σ) := none
  cmds : List Cmd := []
  port : List W2C := []
  hist : List Act := []
  clock : ℚ := 0

/-- A piece of worker code that may throw: the worker afterwards, and the error in flight. -/
structure Ran (σ : Type) where
  w : Worker σ
  thrown : Option String := none

namespace Worker
variable {σ : Type}

/-- `tapeCapNs` -/
def tapeCapNs (w : Worker σ) : ℚ := TAPE_CAP_FRAMES * w.scale * MS_PER_FRAME

/-- `backpressured` (I3) -/
def backpressured (w : Worker σ) : Bool :=
  decide (w.tapeCapNs ≤ w.executedTapeNs - w.playbackNs) || decide (BACKLOG_CAP ≤ w.pbQueue.length)

/-- `eraseMs`; the quotient is `Infinity` at scale `0`. -/
def eraseMs (ns : ℚ) (w : Worker σ) : ℚ :=
  if w.scale = 0 then MAX_ANIM else max MIN_ANIM (min MAX_ANIM (ns / w.scale))

/-- `send`: the message, stamped with the worker's epoch by the caller, goes to the port. -/
def post (m : W2C) (w : Worker σ) : Worker σ :=
  { w with port := w.port ++ [m], hist := w.hist ++ [.posted m] }

def ackOf (w : Worker σ) : GrantAck where
  round := w.round
  playbackNs := w.playbackNs
  cursor := w.cursor
  entriesDrained := w.entriesDrained
  fileOpCount := w.dispFileOps
  flashTimeNs := w.dispFlashNs

/-- `ack` -/
def ack (w : Worker σ) : Worker σ := w.post (.grantAck w.epoch w.ackOf)

/-- A journal line. -/
def log (it : JournalItem) (w : Worker σ) : Worker σ := { w with journal := w.journal.push it }

/-- `bumpFileOp` -/
def bumpFileOp (w : Worker σ) : Worker σ :=
  { w with execFileOps := w.execFileOps + 1, entryFileOps := w.entryFileOps + 1 }

/-- `setPrep`: closing the bracket zeroes the displayed counters. -/
def setPrep (v : Bool) (w : Worker σ) : Worker σ :=
  if v then { w with prepActive := true }
  else { w with prepActive := false, dispFileOps := 0, dispFlashNs := 0 }

/-- The device listener of `subscribeDevice`. -/
def onDevice (w : Worker σ) (ev : DevEvent) : Worker σ :=
  match ev with
  | .reset =>
    { w with mapDirty := true, pbQueue := [], executedTapeNs := 0
             heat := w.heat.map (HeatPlayer.reset w.clock), events := w.events.push .reset
             hist := w.hist ++ [.wiped w.playbackNs] }
  | .read _ _ _ => { w with captureBatch := w.captureBatch.map (· ++ [ev]) }
  | .prog _ _ _ | .erase _ _ _ _ =>
    { w with mapDirty := true, captureBatch := w.captureBatch.map (· ++ [ev]) }

/-- A call on the worker's runner; the device events it causes reach the listener in order. -/
def useRunner (H : Host σ) (c : RCall) (w : Worker σ) : Except String Val × Worker σ :=
  match w.runner with
  | none => (.error "no runner", w)
  | some r =>
    let st := r.exec H.wasm c
    (st.val, st.events.foldl onDevice { w with runner := some st.next })

end Worker

end FlashVis
