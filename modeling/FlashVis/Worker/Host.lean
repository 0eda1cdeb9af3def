import FlashVis.Worker.Pump

/-!
# Message handlers and timers of the worker (session-worker.js)

`Worker.step` is one macrotask or microtask of the worker: a message, a runner build that lands,
a telemetry tick, or an action of a command's code.
-/

namespace FlashVis

/-- What a command's code, or a timer it left, does next. -/
inductive CmdAct where
  | call (c : ApiCall)
  | task (j : Nat)
  | settle (err : Option String)
  | timer
  deriving DecidableEq, Repr

/-- What can happen to a worker. -/
inductive WIn where
  | msg (m : C2W)
  | built (gen : Nat) (ok : Bool)
  | telemetry
  | cmd (id : Nat) (a : CmdAct)
  deriving DecidableEq

/-- Page classes counted as `ensureLiveness` does; `pps` pages make a sector. -/
def countClasses (pps : Nat) (map : List Nat) : LivenessCounts where
  live := map.countP (· == 3)
  obsolete := map.countP (· == 2)
  metadata := map.countP fun c => c == 1 || decide (4 ≤ c)
  liveSectors := (List.range ((map.length + pps - 1) / pps)).countP fun s =>
    ((map.drop (s * pps)).take pps).any (· == 3)

namespace Worker
variable {σ : Type}

/-- `ensureLiveness`: one walk per flash change, at most one in 250 ms. -/
def ensureLiveness (H : Host σ) (w : Worker σ) : Ran σ :=
  if !w.mapDirty || w.runner.isNone then ⟨w, none⟩
  else if w.clock - w.lastLivenessWalk < 250 then ⟨w, none⟩
  else
    let w := { w with mapDirty := false, lastLivenessWalk := w.clock, livenessGen := w.livenessGen + 1 }
    match useRunner H .liveMap w with
    | (.error e, w) => ⟨w, some e⟩
    | (.ok (.bytes b), w) =>
      let map := b.map UInt8.toNat
      let pps := match w.geometry with
        | some g => max 1 (g.sectorSize / g.pageSize)
        | none => 1
      ⟨{ w with cachedMap := some map, cachedCounts := countClasses pps map }, none⟩
    | (.ok _, w) => ⟨{ w with cachedMap := none, cachedCounts := {} }, none⟩

/-- `sendTelemetry`, on the 250 ms timer. -/
def sendTelemetry (H : Host σ) (w : Worker σ) : Worker σ :=
  if !w.telemetryTimer then w
  else
    match w.ensureLiveness H with
    | ⟨w, some _⟩ => w
    | ⟨w, none⟩ =>
      match w.runner with
      | none => w.post (.telemetry w.epoch
          { fsinfo := {}, livenessCounts := w.cachedCounts, exec_fileOpCount := w.execFileOps
            exec_simNs := 0, programBytes := 0, hostBytes := 0, caps := 0 })
      | some _ =>
        match useRunner H .fsinfo w with
        | (.error _, w) => w
        | (.ok v, w) =>
          let info := match v with | .info i => i | _ => {}
          match w.runner with
          | none => w
          | some r => w.post (.telemetry w.epoch
              { fsinfo := info, livenessCounts := w.cachedCounts, exec_fileOpCount := w.execFileOps
                exec_simNs := r.device.stats.simNs, programBytes := r.device.stats.programBytes
                hostBytes := r.hostBytes, caps := H.wasm.caps r.fsId })

/-- `resetLocalState`. Every caller has set a geometry by now. -/
def resetLocalState (newEpoch : Int) (w : Worker σ) : Worker σ :=
  { w with
    telemetryTimer := true
    epoch := newEpoch
    heat := match w.heat with
      | some h => some (h.reset w.clock)
      | none => w.geometry.map fun g => createHeatPlayer g w.clock
    journal := w.journal.clear
    events := w.events.clear
    entries := [], entryLimit := 0, playLimitNs := (0 : ℚ), round := -1, scale := 20000
    toPlay := {}
    mapDirty := true, cachedMap := none, cachedCounts := {}, livenessGen := 0, lastLivenessWalk := 0
    hist := [] }

/-- `buildFresh` up to its `await`: the build is under way. -/
def buildFresh (newEpoch : Int) (fsId : String) (g : Option Geometry) (w : Worker σ) : Worker σ :=
  let w := { w with
    fsId := fsId, geometry := g, heat := none, journal := createRing JOURNAL_MAX
    events := createRing JOURNAL_MAX }
  let w := w.resetLocalState newEpoch
  { w with builds := w.builds ++ [⟨w.gen, fsId, g⟩] }

/-- `buildFresh` after its `await`: the runner is installed unless an INIT or RESET came in
between; what the pump throws is swallowed. -/
def landBuild (H : Host σ) (gen : Nat) (ok : Bool) (w : Worker σ) : Worker σ :=
  match w.builds.find? (·.gen == gen) with
  | none => w
  | some b =>
    let w := { w with builds := w.builds.filter (·.gen != gen) }
    match ok, b.geometry with
    | true, some g =>
      if b.gen ≠ w.gen then w
      else ({ w with runner := some (createRunner H.wasm b.fsId g b.gen) }.pump H).w
    | _, _ => w

/-- `handleInit` -/
def handleInit (epoch : Int) (fsId : String) (g : Geometry) (w : Worker σ) : Worker σ :=
  { w with gen := w.gen + 1, runner := none }.buildFresh epoch fsId (some g)

/-- The filter of `handleEntries`: an entry is taken only at the next index. -/
def takeEntries (l : List Entry) (es : List Entry) : List Entry :=
  es.foldl (fun l e => if e.index = l.length then l ++ [e] else l) l

/-- `handleEntries` -/
def handleEntries (H : Host σ) (es : List Entry) (w : Worker σ) : Worker σ :=
  ({ w with entries := takeEntries w.entries es }.pump H).w

/-- The first line of `handleGrant`. -/
def takeGrant (g : Grant) (w : Worker σ) : Worker σ :=
  { w with
    round := g.round, entryLimit := g.entryLimit, playLimitNs := g.playLimitNs, scale := g.scale
    hist := w.hist ++ [.granted g] }

/-- `handleGrant` -/
def handleGrant (H : Host σ) (g : Grant) (w : Worker σ) : Worker σ :=
  ((w.takeGrant g).pumpDrainAck H).w

def ringSince (s : Option Int) : Int := s.getD 0 - 1

/-- A ring's part of a frame: the newest items, or those from the reported head on. -/
def selectRing {α : Type} (sel : Option RingSel) (r : Ring α) : List (Nat × α) :=
  match sel with
  | none => []
  | some s => if s.newest then r.newest s.limit else r.since (ringSince s.since) s.limit

/-- `handlePull`.  Before the first INIT the source has no rings and throws here; the coordinator
posts the INIT of a session before any PULL. -/
def handlePull (H : Host σ) (sel : PullSel) (w : Worker σ) : Worker σ :=
  let w := { w with heat := w.heat.map (HeatPlayer.snapshotHeat H.pow w.clock w.scale) }
  let wear := match w.runner with | some r => r.device.wear | none => []
  let shown (f : HeatPlayer → List Nat) := match w.heat with | some h => f h | none => []
  let heat (f : HeatPlayer → List ℚ) := match w.heat with | some h => f h | none => []
  let walked : Ran σ := if sel.liveMap.isSome then w.ensureLiveness H else ⟨w, none⟩
  match walked with
  | ⟨w', some _⟩ => w'
  | ⟨w', none⟩ =>
    let liveMap := match sel.liveMap, w'.cachedMap with
      | some since, some map =>
        if since.getD (-1) < (w'.livenessGen : Int) then some (w'.livenessGen, map) else none
      | _, _ => none
    w'.post (.frame w'.epoch
      { readHeat := heat (·.readHeat), progHeat := heat (·.progHeat), pages := shown (·.shown)
        wear := wear, liveMap := liveMap
        journal := selectRing sel.journal w'.journal, events := selectRing sel.events w'.events
        journalHead := w'.journal.head, eventHead := w'.events.head })

/-- `handleReset`: the built runner is reused over a wiped chip; without one, it is rebuilt. -/
def handleReset (H : Host σ) (epoch : Int) (w : Worker σ) : Worker σ :=
  let w := { w with gen := w.gen + 1 }
  match w.runner with
  | some r =>
    let st := r.exec H.wasm .unmount
    let w := st.events.foldl onDevice { w with
      runner := some { st.next with device := st.next.device.reset } }
    (w.onDevice .reset).resetLocalState epoch
  | none => w.buildFresh epoch w.fsId w.geometry

/-- `port.onmessage`: INIT and RESET carry the epoch they transition to, every other message is
dropped on an epoch mismatch (I5). -/
def onMessage (H : Host σ) (m : C2W) (w : Worker σ) : Worker σ :=
  match m with
  | .init e fsId g => w.handleInit e fsId g
  | .reset e => w.handleReset H e
  | .entries e es => if e = w.epoch then w.handleEntries H es else w
  | .grant e g => if e = w.epoch then w.handleGrant H g else w
  | .pull e sel => if e = w.epoch then w.handlePull H sel else w

/-- An action of command `id`. -/
def cmdStep (H : Host σ) (id : Nat) (a : CmdAct) (w : Worker σ) : Worker σ :=
  match a with
  | .call c => w.callApi id c
  | .task j => w.runTask H id j
  | .settle err => w.settleCmd id err
  | .timer => w.timer H id

/-- One task of the worker at wall-clock time `now`. -/
def step (H : Host σ) (now : ℚ) (i : WIn) (w : Worker σ) : Worker σ :=
  let w := { w with clock := now }
  match i with
  | .msg m => w.onMessage H m
  | .built gen ok => w.landBuild H gen ok
  | .telemetry => w.sendTelemetry H
  | .cmd id a => w.cmdStep H id a

end Worker
end FlashVis
