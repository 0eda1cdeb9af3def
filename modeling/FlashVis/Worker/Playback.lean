import FlashVis.Worker.State

/-!
# Enqueueing and metering (session-worker.js: enqueueBatch, drain)

`enqueueBatch` queues the device events of one entry or op for paced playback, or applies them at
once inside a prep bracket.  `drainLoop` is the loop of `drain`: it plays the queue up to the
granted headroom, at most `MAX_OPS_PER_FRAME` new steps at a time.
-/

namespace FlashVis
namespace Worker
variable {σ : Type}

/-- The steps one device event is split into. -/
def stepsOf (w : Worker σ) (ev : DevEvent) : List PStep :=
  match w.heat with
  | some h => h.stepsFor ev
  | none => [.whole ev]

/-- A queued step. -/
def queued (entryIndex : Nat) (ps : PStep) : PbStep where
  entryIndex := entryIndex
  ns := ps.ns
  pstep := some ps
  fileOps := 0
  last := false

/-- The terminal marker of an entry. -/
def marker (entryIndex fileOps : Nat) : PbStep where
  entryIndex := entryIndex
  ns := 0
  pstep := none
  fileOps := fileOps
  last := true

/-- One event of `enqueueBatch` inside a prep bracket. -/
def applyEager (w : Worker σ) (ev : DevEvent) : Worker σ :=
  let w := { w with heat := w.heat.map (HeatPlayer.applyEvent w.clock ev) }
  let w := match ev with
    | .erase sector _ _ ns => { w with events := w.events.push (.erase sector (w.eraseMs ns)) }
    | _ => w
  { w with playbackNs := w.playbackNs + ev.ns, dispFlashNs := w.dispFlashNs + ev.ns }

/-- The queue that a batch adds. -/
def stepsOfBatch (w : Worker σ) (entryIndex : Nat) (batch : List DevEvent) : List PbStep :=
  batch.flatMap fun ev => (w.stepsOf ev).map (queued entryIndex)

/-- `enqueueBatch` -/
def enqueueBatch (entryIndex : Nat) (batch : List DevEvent) (last : Bool) (fileOps : Nat)
    (w : Worker σ) : Worker σ :=
  let w := { w with hist := w.hist ++ [.enqueued entryIndex batch w.prepActive] }
  if w.prepActive then
    let w := batch.foldl applyEager w
    if last then { w with entriesDrained := entryIndex, dispFileOps := w.dispFileOps + fileOps }
    else w
  else
    { w with
      executedTapeNs := w.executedTapeNs + (batch.map DevEvent.ns).sum
      pbQueue := w.pbQueue ++ w.stepsOfBatch entryIndex batch
        ++ (if last then [marker entryIndex fileOps] else []) }

/-- A step takes its heat and sweep effect at the start of its slot. -/
def beginStep (step : PbStep) (w : Worker σ) : Worker σ :=
  match step.pstep with
  | none => w
  | some ps =>
    let w := { w with heat := w.heat.map (HeatPlayer.applyStep w.clock ps) }
    match ps with
    | .erase ns sector => { w with events := w.events.push (.erase sector (w.eraseMs ns)) }
    | .whole (.erase sector _ _ ns) =>
      { w with events := w.events.push (.erase sector (w.eraseMs ns)) }
    | _ => w

/-- Flash time played. -/
def advance (ns : ℚ) (w : Worker σ) : Worker σ :=
  { w with playbackNs := w.playbackNs + ns, dispFlashNs := w.dispFlashNs + ns }

/-- A step leaves the queue; a terminal marker closes its entry. -/
def closeStep (step : PbStep) (w : Worker σ) : Worker σ :=
  if step.last then
    { w with entriesDrained := step.entryIndex, dispFileOps := w.dispFileOps + step.fileOps }
  else w

/-- The loop of `drain` over the queue, with `stepBudget` new steps and `budget` nanoseconds. A
step that has already started does not count against `stepBudget`. -/
def drainLoop : List PbStep → Nat → Limit → Worker σ → Worker σ
  | [], _, _, w => { w with pbQueue := [] }
  | step :: rest, 0, _, w => { w with pbQueue := step :: rest }
  | step :: rest, k + 1, budget, w =>
    let w := if step.started then w else w.beginStep step
    let k := if step.started then k + 1 else k
    let curRem := step.unplayed
    match budget with
    | ⊤ => drainLoop rest k ⊤ ((w.advance curRem).closeStep step)
    | (b : ℚ) =>
      if curRem ≤ b then
        drainLoop rest k ((b - curRem : ℚ) : Limit) ((w.advance curRem).closeStep step)
      else
        { w.advance b with pbQueue := { step with started := true, curRem := curRem - b } :: rest }

/-- `prepActive ? Infinity : playLimitNs - playbackNs` -/
def budget (w : Worker σ) : Limit :=
  if w.prepActive then ⊤ else headroom w.playLimitNs w.playbackNs

/-- `drain` up to its closing `pump()`: the worker after the loop, and whether playback or
`entriesDrained` moved. -/
def meter (w : Worker σ) : Worker σ × Bool :=
  if w.pbQueue = [] then (w, false)
  else if ¬ (0 < w.budget) then (w, false)
  else
    let w' := drainLoop w.pbQueue MAX_OPS_PER_FRAME w.budget w
    (w', w'.playbackNs ≠ w.playbackNs || w'.entriesDrained ≠ w.entriesDrained)

end Worker
end FlashVis
