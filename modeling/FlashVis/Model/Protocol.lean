import Mathlib.Algebra.Order.Field.Rat
import Mathlib.Order.WithBot
import Mathlib.Tactic

/-!
# The worker-per-session wire (protocol.js)

Entries of the canonical sequence and the messages that cross the port.  Times are exact
rationals in nanoseconds; a granted watermark is a rational or `⊤` (`Infinity`, the one-shot Race
step).  Epochs, rounds and `entriesDrained` start at `-1`, so they are integers.
-/

namespace FlashVis

structure Geometry where
  sectorSize : Nat
  sectorCount : Nat
  pageSize : Nat
  granule : Nat
  deriving DecidableEq, Repr

/-- `CHURN_EVENT`. -/
inductive ChurnType where
  | done | delete | write | noSlot
  deriving DecidableEq, Repr

/-- `CHURN_CLASS`. -/
inductive ChurnClass where
  | small | medium | large
  deriving DecidableEq, Repr

/-- An event object of churn.js. -/
structure ChurnEvent where
  type : ChurnType
  slot : Int := -1
  cls : ChurnClass := .small
  size : Nat := 0
  oldSize : Nat := 0
  writeSeed : UInt32 := 0
  replacing : Bool := false
  name : String := ""
  deriving DecidableEq, Repr

/-- The payload of an entry: a churn event object, command source text, `null` (gc), or one of
the declared-cost objects that the worker commits without a runner. -/
inductive Payload where
  | null
  | event (ev : ChurnEvent)
  | source (src : String)
  | synthetic (costNs : Option ℚ) (fileOps : Option Nat) (ticks : Option Nat) (prep : Option Bool)
  deriving DecidableEq, Repr

inductive Kind where
  | event | gc | command
  deriving DecidableEq, Repr

/-- An entry as it is shipped in ENTRIES. -/
structure Entry where
  index : Nat
  kind : Kind
  payload : Payload
  seed : UInt32
  deriving DecidableEq, Repr

/-- `p && typeof p === 'object' && typeof p.costNs === 'number'` -/
def isSyntheticEvent : Payload → Bool
  | .synthetic (some _) _ _ _ => true
  | _ => false

/-- `typeof p.costNs === 'number' || 'prep' in p || 'ticks' in p` -/
def isSyntheticCommand : Payload → Bool
  | .synthetic costNs _ ticks prep => costNs.isSome || prep.isSome || ticks.isSome
  | _ => false

/-- An entry that the worker commits at its declared cost, without a runner. -/
def Entry.synthetic (e : Entry) : Bool :=
  match e.kind with
  | .command => isSyntheticCommand e.payload
  | .event | .gc => isSyntheticEvent e.payload

/-- A granted watermark. -/
abbrev Limit := WithTop ℚ

/-- `limit - playbackNs`, infinite when the limit is. -/
def headroom (limit : Limit) (playbackNs : ℚ) : Limit := limit.map (· - playbackNs)

@[simp] theorem headroom_coe (l p : ℚ) : headroom (l : Limit) p = ((l - p : ℚ) : Limit) := rfl

structure Grant where
  round : Int
  entryLimit : Nat
  playLimitNs : Limit
  scale : ℚ
  deriving DecidableEq

/-- `{ since, limit, newest }` of a PULL. -/
structure RingSel where
  since : Option Int := none
  limit : Option Nat := none
  newest : Bool := false
  deriving DecidableEq, Repr

/-- The selection a PULL carries. -/
structure PullSel where
  liveMap : Option (Option Int) := none
  journal : Option RingSel := none
  events : Option RingSel := none
  deriving DecidableEq, Repr

/-- Coordinator to worker. -/
inductive C2W where
  | init (epoch : Int) (fsId : String) (geometry : Geometry)
  | entries (epoch : Int) (entries : List Entry)
  | grant (epoch : Int) (grant : Grant)
  | pull (epoch : Int) (sel : PullSel)
  | reset (epoch : Int)
  deriving DecidableEq

def C2W.epoch : C2W → Int
  | .init e _ _ | .entries e _ | .grant e _ | .pull e _ | .reset e => e

/-- INIT and RESET carry the epoch they transition to. -/
def C2W.transition : C2W → Bool
  | .init _ _ _ | .reset _ => true
  | _ => false

structure GrantAck where
  round : Int
  playbackNs : ℚ
  cursor : Nat
  entriesDrained : Int
  fileOpCount : Nat
  flashTimeNs : ℚ
  deriving DecidableEq, Repr

structure FsInfo where
  files : Nat := 0
  bytes : Nat := 0
  deriving DecidableEq, Repr

structure LivenessCounts where
  live : Nat := 0
  obsolete : Nat := 0
  metadata : Nat := 0
  liveSectors : Nat := 0
  deriving DecidableEq, Repr

structure TelemetryMsg where
  fsinfo : FsInfo
  livenessCounts : LivenessCounts
  exec_fileOpCount : Nat
  exec_simNs : ℚ
  programBytes : Nat
  hostBytes : Nat
  caps : Nat
  deriving DecidableEq, Repr

inductive JournalKind where
  | op | echo | started | done
  deriving DecidableEq, Repr

/-- Device operations of an op line, counted by kind. -/
structure FlashOps where
  read : Nat := 0
  prog : Nat := 0
  erase : Nat := 0
  deriving DecidableEq, Repr

/-- A line of the tape; op lines carry their cost and the device operations behind it. -/
structure JournalItem where
  entryIndex : Nat
  kind : JournalKind
  text : String
  cost : Option (ℚ × FlashOps) := none
  deriving DecidableEq, Repr

inductive VizEvent where
  | erase (sector : Nat) (ms : ℚ)
  | reset
  deriving DecidableEq, Repr

structure FrameMsg where
  readHeat : List ℚ
  progHeat : List ℚ
  pages : List Nat
  wear : List Nat
  liveMap : Option (Nat × List Nat)
  journal : List (Nat × JournalItem)
  events : List (Nat × VizEvent)
  journalHead : Nat
  eventHead : Nat
  deriving DecidableEq, Repr

/-- Worker to coordinator. -/
inductive W2C where
  | grantAck (epoch : Int) (ack : GrantAck)
  | telemetry (epoch : Int) (t : TelemetryMsg)
  | frame (epoch : Int) (f : FrameMsg)
  deriving DecidableEq, Repr

def W2C.epoch : W2C → Int
  | .grantAck e _ | .telemetry e _ | .frame e _ => e

/-- Milliseconds in a frame at 60 frames a second (`1000 / 60`). -/
def MS_PER_FRAME : ℚ := 1000 / 60

theorem MS_PER_FRAME_pos : 0 < MS_PER_FRAME := by norm_num [MS_PER_FRAME]

/-- The journal and event rings keep this many items. -/
def JOURNAL_MAX : Nat := 2000

end FlashVis
