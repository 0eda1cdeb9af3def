import FlashVis.Model.Prng
import FlashVis.Model.Protocol

/-!
# The churn generator (churn.js)

`ChurnModel` is the resumable state machine behind the automatic workload: `next` computes one
event, `apply` commits it.  A pending write survives the DELETEs that make room for it.  Slot
indices that are `-1` in the source are `none`; the targets are 32-bit words, everything else is
exact.
-/

namespace FlashVis

structure SizeClass where
  key : ChurnClass
  weight : Nat
  minSize : Nat
  maxSize : Nat
  deriving DecidableEq, Repr

structure Profile where
  namePrefix : String
  replacePercent : ℚ
  protectFirstLarge : Bool
  classes : List SizeClass
  deriving DecidableEq, Repr

/-- `defaultProfile` -/
def defaultProfile : Profile where
  namePrefix := "w"
  replacePercent := 25
  protectFirstLarge := true
  classes := [
    { key := .small, weight := 800, minSize := 10 * 1024, maxSize := 20 * 1024 },
    { key := .medium, weight := 150, minSize := 20 * 1024, maxSize := 60 * 1024 },
    { key := .large, weight := 50, minSize := 350 * 1024, maxSize := 350 * 1024 }]

def FORCED_LARGE_SIZE : Nat := 350 * 1024

structure ChurnOptions where
  seed : Nat
  targetLiveBytes : Nat
  targetWrittenBytes : Nat
  targetSlackBytes : Nat
  forceLargeAfterBytes : Nat
  profile : Profile := defaultProfile
  slotCount : Nat := 256
  deriving DecidableEq, Repr

/-- A row of the slot table. -/
structure Slot where
  live : Bool := false
  cls : ChurnClass := .small
  size : Nat := 0
  writeSeed : UInt32 := 0
  name : String := ""
  deriving DecidableEq, Repr

structure ChurnModel where
  opts : ChurnOptions
  state : UInt32
  targetLiveBytes : Nat
  targetWrittenBytes : Nat
  targetSlackBytes : Nat
  forceLargeAfterBytes : Nat
  totalWritten : Nat := 0
  liveBytes : Int := 0
  opCount : Nat := 0
  createCount : Nat := 0
  replaceCount : Nat := 0
  deleteCount : Nat := 0
  forcedLargeWritten : Bool := false
  liveFileCount : Nat := 0
  pendingWrite : Bool := false
  optionalDeleteChecked : Bool := false
  slotChosen : Bool := false
  pendingReplacing : Bool := false
  pendingSlot : Option Nat := none
  protectedLargeSlot : Option Nat := none
  pendingCls : ChurnClass := .small
  pendingSize : Nat := 0
  slots : List Slot

/-- `n >>> 0` -/
def toU32 (n : Nat) : Nat := n % 4294967296

namespace ChurnModel

/-- The constructor: `reset()` on the options. -/
def create (o : ChurnOptions) : ChurnModel where
  opts := o
  state := UInt32.ofNat o.seed
  targetLiveBytes := toU32 o.targetLiveBytes
  targetWrittenBytes := toU32 o.targetWrittenBytes
  targetSlackBytes := toU32 o.targetSlackBytes
  forceLargeAfterBytes := toU32 o.forceLargeAfterBytes
  slots := List.replicate o.slotCount {}

/-- `reset` -/
def reset (m : ChurnModel) : ChurnModel := create m.opts

/-- `_prng` -/
def prng (m : ChurnModel) : Nat × ChurnModel :=
  let s := m.state * 1664525 + 1013904223
  (s.toNat, { m with state := s })

/-- The loop of `_chooseChurnSize` over the classes, with `r` of the draw left. -/
def pickSize (m : ChurnModel) : List SizeClass → Nat → (ChurnClass × Nat) × ChurnModel
  | [], _ => ((.small, (m.opts.profile.classes.head?.map (·.minSize)).getD 0), m)
  | c :: cs, r =>
    if c.weight ≤ r then pickSize m cs (r - c.weight)
    else if c.maxSize ≤ c.minSize then ((c.key, c.minSize), m)
    else
      let (u, m) := m.prng
      ((c.key, c.minSize + u % (c.maxSize - c.minSize + 1)), m)

/-- `_chooseChurnSize` -/
def chooseChurnSize (m : ChurnModel) : (ChurnClass × Nat) × ChurnModel :=
  let totalWeight := (m.opts.profile.classes.map (·.weight)).sum
  if totalWeight = 0 then ((.small, 0), m)
  else
    let (u, m) := m.prng
    m.pickSize m.opts.profile.classes (u % totalWeight)

/-- `_findFreeSlot` -/
def findFreeSlot (m : ChurnModel) : Option Nat := m.slots.findIdx? fun s => !s.live

/-- A live slot other than the protected one. -/
def choosable (prot : Option Nat) (i : Nat) (s : Slot) : Bool := s.live && prot != some i

/-- First loop of a choice: the weights of the choosable slots from index `i` on. -/
def totalFrom (w : Slot → Nat) (prot : Option Nat) : Nat → List Slot → Nat
  | _, [] => 0
  | i, s :: ss => (if choosable prot i s then w s else 0) + totalFrom w prot (i + 1) ss

/-- Second loop: the slot in whose share `target` falls. -/
def pickFrom (w : Slot → Nat) (prot : Option Nat) : Nat → List Slot → Nat → Option Nat
  | _, [], _ => none
  | i, s :: ss, target =>
    if choosable prot i s then
      if target < w s then some i else pickFrom w prot (i + 1) ss (target - w s)
    else pickFrom w prot (i + 1) ss target

/-- A weighted choice of a live slot; the protected one only when nothing else is live. -/
def chooseSlot (w : Slot → Nat) (m : ChurnModel) : Option Nat × ChurnModel :=
  let total := totalFrom w m.protectedLargeSlot 0 m.slots
  if total = 0 then
    (m.protectedLargeSlot.filter fun i => (m.slots[i]?).any (·.live), m)
  else
    let (u, m) := m.prng
    (pickFrom w m.protectedLargeSlot 0 m.slots (u % total), m)

/-- `_deleteWeight` -/
def deleteWeight (s : Slot) : Nat :=
  let w := s.size / 4096
  if w = 0 then 1 else w

/-- `_chooseLiveSlot`: every slot has the weight 1. -/
def chooseLiveSlot : ChurnModel → Option Nat × ChurnModel := chooseSlot fun _ => 1

/-- `_chooseDeleteSlot` -/
def chooseDeleteSlot : ChurnModel → Option Nat × ChurnModel := chooseSlot deleteWeight

/-- Slot `i` of the table. -/
def slot (m : ChurnModel) (i : Nat) : Slot := m.slots.getD i {}

/-- `_deleteEvent` -/
def deleteEvent (i : Nat) (m : ChurnModel) : ChurnEvent :=
  let s := m.slot i
  { type := .delete, slot := i, cls := s.cls, size := s.size, name := s.name }

/-- The name of a file created in slot `i`. -/
def fileName (namePrefix : String) (i : Nat) (writeSeed : UInt32) : String :=
  (if namePrefix = "" then "w" else namePrefix) ++ padDigits 10 4 i ++ "-" ++
    padDigits 16 8 writeSeed.toNat ++ ".bin"

/-- `_writeEvent` -/
def writeEvent (i : Nat) (m : ChurnModel) : ChurnEvent :=
  let s := m.slot i
  let writeSeed := UInt32.ofNat m.totalWritten ^^^ UInt32.ofNat i
  { type := .write, slot := i, cls := m.pendingCls, size := m.pendingSize
    oldSize := if m.pendingReplacing then s.size else 0
    writeSeed := writeSeed, replacing := m.pendingReplacing
    name := if m.pendingReplacing then s.name else fileName m.opts.profile.namePrefix i writeSeed }

/-- `next` once a slot was looked for: the write, or NO_SLOT. -/
def emitWrite (m : ChurnModel) : ChurnEvent × ChurnModel :=
  match m.pendingSlot with
  | some i => (m.writeEvent i, m)
  | none => ({ type := .noSlot, cls := m.pendingCls, size := m.pendingSize }, m)

/-- The draw of `next` that picks an existing file to replace. -/
def chooseReplaced (m : ChurnModel) : ChurnModel :=
  let (u, m) := m.prng
  if ((u % 100 : Nat) : ℚ) < m.opts.profile.replacePercent then
    match m.chooseLiveSlot with
    | (some i, m) => { m with pendingSlot := some i, pendingReplacing := true }
    | (none, m) => m
  else m

/-- No file is replaced: a free slot. -/
def takeFreeSlot (m : ChurnModel) : ChurnModel :=
  if m.pendingSlot.isNone then { m with pendingSlot := m.findFreeSlot, pendingReplacing := false }
  else m

/-- No slot is free: one is evicted for the write, which stays pending. -/
def evictSlot (m : ChurnModel) : ChurnEvent × ChurnModel :=
  if m.pendingSlot.isNone then
    match m.chooseDeleteSlot with
    | (some i, m) => (m.deleteEvent i, { m with pendingSlot := some i, pendingReplacing := false })
    | (none, m) => emitWrite { m with slotChosen := true }
  else emitWrite { m with slotChosen := true }

/-- The slot of the pending write: replace, else a free slot, else evict. -/
def placeWrite (m : ChurnModel) : ChurnEvent × ChurnModel :=
  if m.slotChosen then m.emitWrite
  else m.chooseReplaced.takeFreeSlot.evictSlot

/-- The opportunistic delete above the target, tried once for each write. -/
def optionalDelete (m : ChurnModel) : ChurnEvent × ChurnModel :=
  if m.optionalDeleteChecked then m.placeWrite
  else
    let m := { m with optionalDeleteChecked := true }
    if (m.targetLiveBytes : Int) < m.liveBytes then
      let (u, m) := m.prng
      if u &&& 7 = 0 then
        match m.chooseDeleteSlot with
        | (some i, m) => (m.deleteEvent i, m)
        | (none, m) => m.placeWrite
      else m.placeWrite
    else m.placeWrite

/-- The hard ceiling: live data is shed until the pending write fits. -/
def shedLive (m : ChurnModel) : ChurnEvent × ChurnModel :=
  if ((m.targetLiveBytes + m.targetSlackBytes : Nat) : Int) < m.liveBytes + m.pendingSize then
    match m.chooseDeleteSlot with
    | (some i, m) => (m.deleteEvent i, m)
    | (none, m) => m.optionalDelete
  else m.optionalDelete

/-- A new pending write: its class and size are drawn, or a large one is forced. -/
def planWrite (m : ChurnModel) : ChurnModel :=
  let m :=
    if !m.forcedLargeWritten && decide (m.forceLargeAfterBytes ≤ m.totalWritten) then
      { m with pendingCls := .large, pendingSize := FORCED_LARGE_SIZE, forcedLargeWritten := true }
    else
      let (p, m) := m.chooseChurnSize
      { m with pendingCls := p.1, pendingSize := p.2 }
  { m with pendingWrite := true, optionalDeleteChecked := false, slotChosen := false
           pendingReplacing := false, pendingSlot := none }

/-- `next` -/
def next (m : ChurnModel) : ChurnEvent × ChurnModel :=
  if m.pendingWrite then m.shedLive
  else if m.targetWrittenBytes ≤ m.totalWritten then ({ type := .done }, m)
  else m.planWrite.shedLive

/-- `apply` of a DELETE. -/
def applyDelete (ev : ChurnEvent) (m : ChurnModel) : ChurnModel :=
  let i := ev.slot.toNat
  let s := m.slot i
  if s.live then
    { m with
      liveBytes := m.liveBytes - s.size, slots := m.slots.set i { s with live := false }
      liveFileCount := m.liveFileCount - 1, deleteCount := m.deleteCount + 1 }
  else m

/-- `apply` of a WRITE. -/
def applyWrite (ev : ChurnEvent) (m : ChurnModel) : ChurnModel :=
  let i := ev.slot.toNat
  let s := m.slot i
  let m := if ev.replacing && s.live then
      { m with liveBytes := m.liveBytes - s.size, replaceCount := m.replaceCount + 1 }
    else { m with liveFileCount := m.liveFileCount + 1, createCount := m.createCount + 1 }
  { m with
    slots := m.slots.set i
      { live := true, cls := ev.cls, size := ev.size, writeSeed := ev.writeSeed, name := ev.name }
    protectedLargeSlot :=
      if m.opts.profile.protectFirstLarge && ev.cls = .large && m.protectedLargeSlot.isNone then
        some i else m.protectedLargeSlot
    liveBytes := m.liveBytes + ev.size, totalWritten := toU32 (m.totalWritten + ev.size)
    opCount := m.opCount + 1, pendingWrite := false, pendingSlot := none, slotChosen := false }

/-- `apply` -/
def apply (ev : ChurnEvent) (m : ChurnModel) : ChurnModel :=
  match ev.type with
  | .delete => m.applyDelete ev
  | .write => m.applyWrite ev
  | .done | .noSlot => m

/-- `names` -/
def names (m : ChurnModel) : List String := (m.slots.filter (·.live)).map (·.name)

end ChurnModel

end FlashVis
