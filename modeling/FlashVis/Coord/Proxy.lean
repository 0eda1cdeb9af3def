import FlashVis.Model.Protocol

/-!
# The coordinator's view of one worker (session-proxy.js)

A proxy stamps what it sends with its epoch, drops what it receives from another epoch, and merges
grant acks by maximum.
-/

namespace FlashVis

structure Acked where
  round : Int := -1
  playbackNs : ℚ := 0
  cursor : Nat := 0
  entriesDrained : Int := -1
  fileOpCount : Nat := 0
  flashTimeNs : ℚ := 0
  deriving DecidableEq, Repr

structure Telemetry where
  simNs : ℚ := 0
  exec_fileOpCount : Nat := 0
  fsinfo : FsInfo := {}
  livenessCounts : LivenessCounts := {}
  programBytes : Nat := 0
  hostBytes : Nat := 0
  wa : ℚ := 1
  caps : Option Nat := none
  deriving DecidableEq, Repr

/-- A proxy; `port` holds the messages posted to the worker and not yet delivered. -/
structure Proxy where
  fsId : String
  geometry : Geometry
  epoch : Int := 0
  acked : Acked := {}
  telemetry : Telemetry := {}
  frame : Option FrameMsg := none
  port : List C2W := []

/-- GRANT_ACK: the coordinator keeps the maximum of every field. -/
def Acked.merge (a : Acked) (m : GrantAck) : Acked where
  round := max a.round m.round
  playbackNs := max a.playbackNs m.playbackNs
  cursor := max a.cursor m.cursor
  entriesDrained := max a.entriesDrained m.entriesDrained
  fileOpCount := max a.fileOpCount m.fileOpCount
  flashTimeNs := max a.flashTimeNs m.flashTimeNs

/-- TELEMETRY -/
def Telemetry.merge (_ : Telemetry) (m : TelemetryMsg) : Telemetry where
  simNs := m.exec_simNs
  exec_fileOpCount := m.exec_fileOpCount
  fsinfo := m.fsinfo
  livenessCounts := m.livenessCounts
  programBytes := m.programBytes
  hostBytes := m.hostBytes
  wa := if 0 < m.hostBytes then (m.programBytes : ℚ) / m.hostBytes else 1
  caps := some m.caps

namespace Proxy

/-- `port.postMessage` -/
def send (m : C2W) (p : Proxy) : Proxy := { p with port := p.port ++ [m] }

/-- `resetState`: `telemetry.caps` belongs to the module, not to the epoch. -/
def resetState (p : Proxy) : Proxy :=
  { p with acked := {}, telemetry := { caps := p.telemetry.caps }, frame := none }

/-- `handle` -/
def handle (m : W2C) (p : Proxy) : Proxy :=
  if m.epoch ≠ p.epoch then p
  else
    match m with
    | .grantAck _ a => { p with acked := p.acked.merge a }
    | .telemetry _ t => { p with telemetry := p.telemetry.merge t }
    | .frame _ f => { p with frame := some f }

def setEpoch (e : Int) (p : Proxy) : Proxy := { p with epoch := e }

def init (p : Proxy) : Proxy := p.send (.init p.epoch p.fsId p.geometry)

/-- `entries(list)`: no message for an empty list. -/
def entries (l : List Entry) (p : Proxy) : Proxy := if l = [] then p else p.send (.entries p.epoch l)

def grant (g : Grant) (p : Proxy) : Proxy := p.send (.grant p.epoch g)

def pull (sel : PullSel) (p : Proxy) : Proxy := p.send (.pull p.epoch sel)

def reset (e : Int) (p : Proxy) : Proxy := (p.setEpoch e).resetState.send (.reset e)

end Proxy

end FlashVis
