import FlashVis.Coord.Lockstep
import FlashVis.Worker.Host
import FlashVis.Lib.Machine

/-!
# The coordinator, its proxies and the workers over FIFO channels

`Sys.step` is one event of the whole system: a call of the coordinator's API, the delivery of the
oldest message of a channel, or something a worker does on its own.  Channels delay arbitrarily
and keep order: the two ports of a session are lists, delivered from the front.
-/

namespace FlashVis

structure Sys (σ γ : Type) (n : Nat) where
  c : Lockstep γ n
  w : Fin n → Worker σ

/-- An event of the system. -/
inductive Input (n : Nat) where
  | frame
  | broadcast (payload : Payload)
  | setMode (m : Mode)
  | setSpeed (v : ℚ)
  | setGcRatio (v : ℚ)
  | start
  | stop
  | step
  | reset
  | rejoin (s : Fin n)
  | pull (s : Fin n) (sel : PullSel)
  | toWorker (s : Fin n) (now : ℚ)
  | toProxy (s : Fin n)
  | built (s : Fin n) (gen : Nat) (ok : Bool) (now : ℚ)
  | telemetry (s : Fin n) (now : ℚ)
  | cmd (s : Fin n) (id : Nat) (a : CmdAct) (now : ℚ)
  deriving DecidableEq

/-- What the system is built from: the modules behind the workers and the churn model. -/
structure World (σ γ : Type) where
  host : Host σ
  churn : Churn γ

namespace Sys
variable {σ γ : Type} {n : Nat}

/-- The start: every session was given to the coordinator and its INIT is in flight. -/
def init (churn : γ) (ratio : ℚ) (info : Fin n → String × Geometry) : Sys σ γ n where
  c := Lockstep.create churn ratio info
  w := fun _ => {}

/-- The coordinator moves, the workers do not. -/
def onC (f : Lockstep γ n → Lockstep γ n) (S : Sys σ γ n) : Sys σ γ n := { S with c := f S.c }

/-- Proxy `s` changes. -/
def onProxy (s : Fin n) (f : Proxy → Proxy) (c : Lockstep γ n) : Lockstep γ n :=
  { c with proxies := Function.update c.proxies s (f (c.proxies s)) }

/-- Worker `s` takes a step. -/
def onWorker (V : World σ γ) (s : Fin n) (now : ℚ) (i : WIn) (S : Sys σ γ n) : Sys σ γ n :=
  { S with w := Function.update S.w s ((S.w s).step V.host now i) }

/-- The oldest message to worker `s` is delivered. -/
def toWorker (V : World σ γ) (s : Fin n) (now : ℚ) (S : Sys σ γ n) : Sys σ γ n :=
  match (S.c.proxies s).port with
  | [] => S
  | m :: ms => (S.onC (onProxy s fun p => { p with port := ms })).onWorker V s now (.msg m)

/-- The oldest message of worker `s` is delivered. -/
def toProxy (s : Fin n) (S : Sys σ γ n) : Sys σ γ n :=
  match (S.w s).port with
  | [] => S
  | m :: ms =>
    { c := onProxy s (·.handle m) S.c
      w := Function.update S.w s { S.w s with port := ms } }

/-- One event. -/
def step (V : World σ γ) (S : Sys σ γ n) (i : Input n) : Sys σ γ n :=
  match i with
  | .frame => S.onC (·.frame V.churn)
  | .broadcast payload => S.onC (·.broadcast payload)
  | .setMode m => S.onC (·.setMode m)
  | .setSpeed v => S.onC (·.setSpeed v)
  | .setGcRatio v => S.onC fun c => { c with ratio := v }
  | .start => S.onC fun c => { c with running := true }
  | .stop => S.onC fun c => { c with running := false }
  | .step => S.onC (·.step V.churn)
  | .reset => S.onC (·.reset V.churn)
  | .rejoin s => S.onC (·.rejoin s)
  | .pull s sel => S.onC (onProxy s (·.pull sel))
  | .toWorker s now => S.toWorker V s now
  | .toProxy s => S.toProxy s
  | .built s gen ok now => S.onWorker V s now (.built gen ok)
  | .telemetry s now => S.onWorker V s now .telemetry
  | .cmd s id a now => S.onWorker V s now (.cmd id a)

/-- The state after a run from the start. -/
abbrev after (V : World σ γ) (churn : γ) (ratio : ℚ) (info : Fin n → String × Geometry)
    (is : List (Input n)) : Sys σ γ n :=
  Machine.run (step V) (init churn ratio info) is

end Sys

/-- A module without files, for concrete runs: every call returns `rc name`, where `name` is the
id it was loaded under, and a write programs its data at address 0. -/
def plainWasm (rc : String → Int) : Wasm String where
  load fsId _ := fsId
  caps _ := 0
  hasExport _ _ := false
  call c fsId _ := match c with
    | .write _ data => ⟨.ok ⟨rc fsId, []⟩, fsId, [.prog 0 data]⟩
    | _ => ⟨.ok ⟨rc fsId, []⟩, fsId, []⟩

/-- A world over `plainWasm` in which every source compiles and churn has nothing to do. -/
def plainWorld (rc : String → Int) : World String Unit where
  host := { wasm := plainWasm rc, pow := fun _ => 1, compileError := fun _ => none }
  churn := { next := fun _ => ({ type := .done }, ()), apply := fun _ g => g, reset := fun g => g }

/-- Four sectors of sixteen pages. -/
def plainGeometry : Geometry := ⟨4096, 4, 256, 1⟩

/-- A world in which churn writes one file over and over; the module loaded as `"slow"` programs every
write four times. -/
def writingWorld : World String Unit where
  host := {
    wasm := { plainWasm fun _ => 0 with
      call := fun c fsId _ => match c with
        | .write _ data =>
          ⟨.ok ⟨0, []⟩, fsId, List.replicate (if fsId = "slow" then 4 else 1) (.prog 0 data)⟩
        | _ => ⟨.ok ⟨0, []⟩, fsId, []⟩ }
    pow := fun _ => 1, compileError := fun _ => none }
  churn := {
    next := fun _ => ({ type := .write, name := "f", size := 8 }, ())
    apply := fun _ g => g, reset := fun g => g }

/-- A fast and a slow session. -/
def fastAndSlow (s : Fin 2) : String × Geometry := (if s = 0 then "fast" else "slow", plainGeometry)

end FlashVis
