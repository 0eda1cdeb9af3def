import FlashVis.Fat.Record
import FlashVis.Fat.Mount

/-!
# The writes of FatFs, one call of the chip at a time

Each step makes at most one call that changes the chip, so that the steps of a call are the places
where the power may fail.

* `Step`                 a step, with what the layer does in memory for it;
* `turnSteps`, `updateSteps`, `eraseSectorSteps`   the steps of the rotation;
* `diskWriteSteps`       the steps of `disk_write`;
* `diskWrite_steps`      all of them together are the call.
-/

namespace FlashVis
namespace WlFlash

/-- A step of the layer. -/
inductive Step where
  /-- a change of the state in memory -/
  | state (s : WlState)
  /-- `partition->erase_range` -/
  | erase (addr size : UInt32)
  /-- `partition->erase_sector` -/
  | eraseSector (sector : UInt32)
  /-- `partition->write` -/
  | put (addr : UInt32) (src : List UInt8)
  /-- a turn of the copy loop: `partition->read` into the buffer and `partition->write` of it -/
  | copy (src dst len : UInt32)
  /-- the record of turn `i` in a state copy -/
  | mark (base i : UInt32)

namespace Step

def run (w : WlFlash) : Step → WlFlash
  | state s => w.setState s
  | erase addr size => w.perase addr size
  | eraseSector sector => { w with partition := w.partition.eraseSector sector }
  | put addr src => w.pwrite addr src
  | copy src dst len => (w.readTemp src len.toNat).writeTemp dst len.toNat
  | mark base i =>
    let w := w.fillOkBuff i
    w.writeTemp (w.recordAddr base i) w.cfg.wlPosUpdateRecordSize.toNat

/-- Steps one after the other. -/
def runAll (w : WlFlash) (l : List Step) : WlFlash := l.foldl run w

theorem runAll_append (w : WlFlash) (l l' : List Step) :
    runAll w (l ++ l') = runAll (runAll w l) l' := List.foldl_append

theorem runAll_cons (w : WlFlash) (s : Step) (l : List Step) :
    runAll w (s :: l) = runAll (s.run w) l := rfl

end Step

open Step

/-! ## the rotation -/

def copySteps (dataAddr dummyAddr : UInt32) (w : WlFlash) : List Step :=
  let len := w.cfg.wlTempBuffSize
  (List.range (w.cfg.wlPageSize / len).toNat).map fun i =>
    .copy (dataAddr + i.toUInt32 * len) (dummyAddr + i.toUInt32 * len) len

def markSteps (w : WlFlash) : List Step :=
  [.mark w.addrState1 w.state.wlDummySecPos, .mark w.addrState2 w.state.wlDummySecPos]

def rewriteSteps (w : WlFlash) : List Step :=
  [.erase w.addrState1 w.stateSize, .put w.addrState1 w.state.bytes,
    .erase w.addrState2 w.stateSize, .put w.addrState2 w.state.bytes]

/-- The state in memory after a lap. -/
def lapState (s : WlState) : WlState :=
  let moves := s.wlDummySecMoveCount + 1
  let moves := if s.wlPartMaxSecPos - 1 ≤ moves then 0 else moves
  let state := { s with wlDummySecPos := 0, wlDummySecMoveCount := moves }
  { state with crc32 := state.crc }

def advanceSteps (w : WlFlash) : List Step :=
  let pos := w.state.wlDummySecPos + 1
  if w.state.wlPartMaxSecPos ≤ pos then
    .state (lapState w.state) :: (w.setState (lapState w.state)).rewriteSteps
  else [.state { w.state with wlDummySecPos := pos }]

/-- The address of the block that the next turn moves, and of the place that it moves to. -/
def turnAddrs (w : WlFlash) : UInt32 × UInt32 :=
  let next := w.state.wlDummySecPos + 1
  let next := if w.state.wlPartMaxSecPos ≤ next then 0 else next
  (w.cfg.wlPartitionStartAddr + next * w.cfg.wlPageSize,
    w.cfg.wlPartitionStartAddr + w.state.wlDummySecPos * w.cfg.wlPageSize)

def turnSteps (w : WlFlash) : List Step :=
  .erase w.turnAddrs.2 w.cfg.wlPageSize ::
    (w.copySteps w.turnAddrs.1 w.turnAddrs.2 ++ w.markSteps ++ w.advanceSteps)

def updateSteps (w : WlFlash) : List Step :=
  let count := w.state.wlSecEraseCycleCount + 1
  if count < w.state.wlMaxSecEraseCycleCount then
    [.state { w.state with wlSecEraseCycleCount := count }]
  else
    let w := w.setState { w.state with wlSecEraseCycleCount := 0 }
    .state w.state :: w.turnSteps

/-- The physical sector that `erase_sector` erases. -/
def eraseTarget (sector : UInt32) (w : WlFlash) : UInt32 :=
  (w.cfg.wlPartitionStartAddr + w.calcAddr (sector * w.cfg.flashSectorSize)) / w.cfg.flashSectorSize

def eraseSectorSteps (sector : UInt32) (w : WlFlash) : List Step :=
  w.updateSteps ++ [.eraseSector (w.updateWL.eraseTarget sector)]

/-! ## the calls of FatFs -/

/-- The steps of a loop, each turn of which starts where the one before it stopped. -/
def eachSteps (f : Nat → WlFlash → List Step) : List Nat → WlFlash → List Step
  | [], _ => []
  | i :: is, w => f i w ++ eachSteps f is (runAll w (f i w))

def eraseRangeSteps (startAddress size : UInt32) (w : WlFlash) : List Step :=
  let ss := w.cfg.flashSectorSize
  eachSteps (fun i => eraseSectorSteps (startAddress / ss + i.toUInt32))
    (List.range ((size + ss - 1) / ss).toNat) w

def putStep (destAddr : UInt32) (src : List UInt8) (w : WlFlash) : Step :=
  .put (w.cfg.wlPartitionStartAddr + w.calcAddr destAddr) src

def writeSteps (destAddr : UInt32) (src : List UInt8) (w : WlFlash) : List Step :=
  let page := w.cfg.wlPageSize
  let count := ((src.length.toUInt32 - 1) / page).toNat
  (List.range count).map (fun i =>
      w.putStep (destAddr + i.toUInt32 * page) ((src.drop (i * page.toNat)).take page.toNat)) ++
    [w.putStep (destAddr + count.toUInt32 * page) (src.drop (count * page.toNat))]

def diskWriteSteps (buff : List UInt8) (sector count : UInt32) (w : WlFlash) : List Step :=
  let ss := w.getSectorSize
  let erases := w.eraseRangeSteps (sector * ss) (count * ss)
  erases ++ (runAll w erases).writeSteps (sector * ss) (buff.take (count * ss).toNat)

/-! ## the steps are the calls -/

section
variable {w : WlFlash}

theorem copySteps_run (dataAddr dummyAddr : UInt32) :
    runAll w (w.copySteps dataAddr dummyAddr) = w.copyBlock dataAddr dummyAddr := by
  unfold runAll copySteps
  rw [List.foldl_map]
  rfl

/-- What the steps that are no change of the state leave alone. -/
structure Like (w v : WlFlash) : Prop where
  state : v.state = w.state
  cfg : v.cfg = w.cfg
  flashSize : v.flashSize = w.flashSize
  stateSize : v.stateSize = w.stateSize
  addrState1 : v.addrState1 = w.addrState1
  addrState2 : v.addrState2 = w.addrState2

theorem Like.trans {v u : WlFlash} (h : Like w v) (h' : Like v u) : Like w u :=
  ⟨h'.state.trans h.state, h'.cfg.trans h.cfg, h'.flashSize.trans h.flashSize,
    h'.stateSize.trans h.stateSize, h'.addrState1.trans h.addrState1, h'.addrState2.trans h.addrState2⟩

theorem perase_like (addr size : UInt32) : Like w (w.perase addr size) := ⟨rfl, rfl, rfl, rfl, rfl, rfl⟩

theorem pwrite_like (addr : UInt32) (src : List UInt8) : Like w (w.pwrite addr src) :=
  ⟨rfl, rfl, rfl, rfl, rfl, rfl⟩

theorem copyBlock_like (src dst : UInt32) : Like w (w.copyBlock src dst) :=
  Loop.foldl_range_inv (P := fun _ v => Like w v) _ ⟨rfl, rfl, rfl, rfl, rfl, rfl⟩
    fun _ _ _ h => ⟨h.state, h.cfg, h.flashSize, h.stateSize, h.addrState1, h.addrState2⟩

theorem Like.markSteps {v : WlFlash} (h : Like w v) : v.markSteps = w.markSteps := by
  unfold WlFlash.markSteps
  rw [h.state, h.addrState1, h.addrState2]

theorem Like.advanceSteps {v : WlFlash} (h : Like w v) : v.advanceSteps = w.advanceSteps := by
  unfold WlFlash.advanceSteps rewriteSteps setState
  dsimp only
  rw [h.state, h.addrState1, h.addrState2, h.stateSize]

theorem rewriteSteps_run : runAll w w.rewriteSteps = w.rewriteStates := by
  unfold rewriteSteps rewriteStates
  simp only [runAll_cons, Step.run]
  have h1 := perase_like (w := w) w.addrState1 w.stateSize
  generalize w.perase w.addrState1 w.stateSize = v1 at h1
  rw [h1.addrState1, h1.state]
  have h2 := pwrite_like (w := v1) w.addrState1 w.state.bytes
  generalize v1.pwrite w.addrState1 w.state.bytes = v2 at h2
  rw [h2.addrState2, h1.addrState2, h2.stateSize, h1.stateSize]
  have h3 := perase_like (w := v2) w.addrState2 w.stateSize
  generalize v2.perase w.addrState2 w.stateSize = v3 at h3
  rw [h3.addrState2, h2.addrState2, h1.addrState2, h3.state, h2.state, h1.state]
  rfl

theorem advanceSteps_run : runAll w w.advanceSteps = w.advance := by
  unfold advanceSteps advance
  dsimp only
  split
  · rw [runAll_cons]
    exact rewriteSteps_run
  · rfl

theorem turnSteps_run : runAll w w.turnSteps = w.turn := by
  have hcopy : runAll (w.perase w.turnAddrs.2 w.cfg.wlPageSize) (w.copySteps w.turnAddrs.1 w.turnAddrs.2) =
      (w.perase w.turnAddrs.2 w.cfg.wlPageSize).copyBlock w.turnAddrs.1 w.turnAddrs.2 :=
    copySteps_run _ _
  unfold turnSteps
  rw [runAll_cons, runAll_append, runAll_append]
  show runAll (runAll (runAll (w.perase _ _) _) _) _ = _
  rw [hcopy]
  have hlike : Like w ((w.perase w.turnAddrs.2 w.cfg.wlPageSize).copyBlock w.turnAddrs.1 w.turnAddrs.2) :=
    (perase_like _ _).trans (copyBlock_like _ _)
  unfold turn
  show _ = (((w.perase w.turnAddrs.2 w.cfg.wlPageSize).copyBlock w.turnAddrs.1 w.turnAddrs.2).markTurn).advance
  generalize (w.perase w.turnAddrs.2 w.cfg.wlPageSize).copyBlock w.turnAddrs.1 w.turnAddrs.2 = v at hlike
  rw [← hlike.markSteps, ← hlike.advanceSteps]
  show runAll v.markTurn v.advanceSteps = _
  have hmark : Like v v.markTurn := ⟨rfl, rfl, rfl, rfl, rfl, rfl⟩
  rw [← hmark.advanceSteps, advanceSteps_run]

theorem updateSteps_run : runAll w w.updateSteps = w.updateWL := by
  unfold updateSteps updateWL
  dsimp only
  split
  · rfl
  · rw [runAll_cons]
    exact turnSteps_run

theorem eraseSectorSteps_run (sector : UInt32) :
    runAll w (w.eraseSectorSteps sector) = w.eraseSector sector := by
  unfold eraseSectorSteps
  rw [runAll_append, updateSteps_run]
  rfl

theorem eachSteps_run {f : Nat → WlFlash → List Step} {g : WlFlash → Nat → WlFlash}
    (hfg : ∀ i w, runAll w (f i w) = g w i) (l : List Nat) (w : WlFlash) :
    runAll w (eachSteps f l w) = l.foldl g w := by
  induction l generalizing w with
  | nil => rfl
  | cons i l ih =>
    rw [eachSteps, runAll_append, ih, hfg]
    rfl

theorem Like.putStep {v : WlFlash} (h : Like w v) (destAddr : UInt32) (src : List UInt8) :
    v.putStep destAddr src = w.putStep destAddr src := by
  unfold WlFlash.putStep calcAddr
  rw [h.state, h.cfg, h.flashSize]

/-- Pages one after the other: no put moves the next. -/
theorem putSteps_run (addr : Nat → UInt32) (src : Nat → List UInt8) (l : List Nat) {v : WlFlash}
    (h : Like w v) : runAll v (l.map fun i => w.putStep (addr i) (src i)) =
      l.foldl (fun v i => v.writePage (addr i) (src i)) v ∧
      Like w (l.foldl (fun v i => v.writePage (addr i) (src i)) v) := by
  induction l generalizing v with
  | nil => exact ⟨rfl, h⟩
  | cons i l ih =>
    have hput : (w.putStep (addr i) (src i)).run v = v.writePage (addr i) (src i) := by
      rw [← h.putStep]
      rfl
    have hlike : Like w (v.writePage (addr i) (src i)) := h.trans (pwrite_like _ _)
    rw [List.map_cons, runAll_cons, hput, List.foldl_cons]
    exact ih hlike

theorem writeSteps_run (hi : w.initialized = true) (destAddr : UInt32) (src : List UInt8) :
    w.write destAddr src = .ok (runAll w (w.writeSteps destAddr src)) := by
  obtain ⟨h, hlike⟩ := putSteps_run (fun i => destAddr + i.toUInt32 * w.cfg.wlPageSize)
    (fun i => (src.drop (i * w.cfg.wlPageSize.toNat)).take w.cfg.wlPageSize.toNat)
    (List.range ((src.length.toUInt32 - 1) / w.cfg.wlPageSize).toNat) (v := w)
    ⟨rfl, rfl, rfl, rfl, rfl, rfl⟩
  unfold write writeSteps
  rw [hi, runAll_append, h]
  dsimp only
  rw [← hlike.putStep]
  rfl

theorem eraseRangeSteps_run (hi : w.initialized = true) (startAddress size : UInt32) :
    w.eraseRange startAddress size = .ok (runAll w (w.eraseRangeSteps startAddress size)) := by
  unfold eraseRange eraseRangeSteps
  rw [hi, eachSteps_run fun i w => eraseSectorSteps_run _]
  rfl

theorem runAll_initialized (l : List Step) : (runAll w l).initialized = w.initialized := by
  induction l generalizing w with
  | nil => rfl
  | cons s l ih =>
    refine Eq.trans ih ?_
    cases s <;> rfl

/-- **The steps of `disk_write` are the call.** -/
theorem diskWrite_steps (hi : w.initialized = true) (hss : w.getSectorSize ≠ 0)
    (buff : List UInt8) (sector count : UInt32) : diskWrite buff sector count (some w) =
      (.ok, some (runAll w (w.diskWriteSteps buff sector count))) := by
  unfold diskWrite diskWriteSteps
  dsimp only
  rw [if_neg hss, eraseRangeSteps_run hi, runAll_append]
  dsimp only
  rw [writeSteps_run ((runAll_initialized _).trans hi)]

end
end WlFlash
end FlashVis
