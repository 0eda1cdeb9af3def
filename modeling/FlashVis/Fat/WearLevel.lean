import FlashVis.Model.Device
import Mathlib.Logic.Function.Iterate

/-!
# The wear-levelling layer of the FAT driver (WL_Flash.cpp, wl_hal.cpp, diskio.c)

FatFs sees an array of sectors; `WlFlash` maps each to a physical sector, moves one block to the
spare sector after every 16 erases, and keeps its own state in the last sectors of the chip.

* `Hal`, `Partition`          the chip as the layer reaches it, silent or not;
* `WlFlash.config`, `init`    the layout of a chip, and the state recovered from it;
* `updateWL`, `calcAddr`      the rotation and the address map;
* `eraseRange`, `write`, `read`, `diskRead`, `diskWrite`   what FatFs calls.

The emulated chip's calls all return 0, so that the error returns after a HAL call are not taken
and the methods of `Partition` return no code here.
-/

namespace FlashVis

/-! ## words and check sums -/

/-- A little-endian word. -/
def le32 (v : UInt32) : List UInt8 :=
  [v.toUInt8, (v >>> 8).toUInt8, (v >>> 16).toUInt8, (v >>> 24).toUInt8]

/-- The word at byte `i` of a buffer. -/
def word (b : List UInt8) (i : Nat) : UInt32 :=
  (b.getD i 0).toUInt32 ||| (b.getD (i + 1) 0).toUInt32 <<< 8 |||
    (b.getD (i + 2) 0).toUInt32 <<< 16 ||| (b.getD (i + 3) 0).toUInt32 <<< 24

/-- One bit of `esp_rom_crc32_le`. -/
def crcBit (crc : UInt32) : UInt32 :=
  if crc &&& 1 = 1 then (crc >>> 1) ^^^ 0xEDB88320 else crc >>> 1

/-- `esp_rom_crc32_le` -/
def espRomCrc32Le (crc : UInt32) (buf : List UInt8) : UInt32 :=
  ~~~(buf.foldl (fun c b => crcBit^[8] (c ^^^ b.toUInt32)) (~~~crc))

/-- `WL_CFG_CRC_CONST` -/
def wlCfgCrcConst : UInt32 := 0xffffffff

/-! ## the chip behind the layer -/

/-- The emulated chip, with the events it reported and the globals of `wl_hal.cpp`: the silent-read
flag and the state of `esp_random`. -/
structure Hal where
  dev : Device
  events : List DevEvent := []
  gQuiet : Bool := false
  random : UInt32 := 0x1234567

/-- A buffer after `HEAPU8.set(flash.subarray(off, off + len), dst)`: what lies past the end of the
chip leaves the buffer as it was. -/
def Device.fetch (off : Nat) (dst : List UInt8) (d : Device) : List UInt8 :=
  dst.mapIdx fun i b =>
    if off + i < d.geometry.sectorSize * d.geometry.sectorCount then d.flash (off + i) else b

/-- A call of the chip that reports its events. -/
def Hal.call (r : Device × List DevEvent) (h : Hal) : Hal :=
  { h with dev := r.1, events := h.events ++ r.2 }

/-- `esp_random` -/
def Hal.espRandom (h : Hal) : UInt32 × Hal :=
  let s := h.random * 1664525 + 1013904223
  (s, { h with random := s })

/-- `Partition` -/
structure Partition where
  startAddr : UInt32
  partSize : UInt32
  sectorSize : UInt32
  hal : Hal

namespace Partition

/-- `read` into a buffer of the length read. -/
def read (srcAddr : UInt32) (dest : List UInt8) (p : Partition) : Partition × List UInt8 :=
  let abs := (p.startAddr + srcAddr).toNat
  let data := p.hal.dev.fetch abs dest
  if p.hal.gQuiet then (p, data)
  else ({ p with hal := p.hal.call (p.hal.dev.read abs dest.length) }, data)

/-- `write` -/
def write (destAddr : UInt32) (src : List UInt8) (p : Partition) : Partition :=
  { p with hal := p.hal.call (p.hal.dev.prog (p.startAddr + destAddr).toNat src) }

/-- `erase_sector` -/
def eraseSector (sector : UInt32) (p : Partition) : Partition :=
  let abs := p.startAddr + sector * p.sectorSize
  { p with hal := p.hal.call (p.hal.dev.erase abs.toNat p.sectorSize.toNat) }

/-- `erase_range` -/
def eraseRange (startAddress size : UInt32) (p : Partition) : Partition :=
  { p with hal := p.hal.call (p.hal.dev.erase (p.startAddr + startAddress).toNat size.toNat) }

end Partition

/-! ## the layer's records -/

/-- `wl_config_t` -/
structure WlConfig where
  wlPartitionStartAddr : UInt32 := 0
  wlPartitionSize : UInt32 := 0
  wlPageSize : UInt32 := 0
  flashSectorSize : UInt32 := 0
  wlUpdateRate : UInt32 := 0
  wlPosUpdateRecordSize : UInt32 := 0
  version : UInt32 := 0
  wlTempBuffSize : UInt32 := 0
  crc32 : UInt32 := 0

/-- The bytes of the record before its check sum. -/
def WlConfig.head (c : WlConfig) : List UInt8 :=
  [c.wlPartitionStartAddr, c.wlPartitionSize, c.wlPageSize, c.flashSectorSize, c.wlUpdateRate,
    c.wlPosUpdateRecordSize, c.version, c.wlTempBuffSize].flatMap le32

/-- The record with its padding: `sizeof(wl_config_t)` is 48. -/
def WlConfig.bytes (c : WlConfig) : List UInt8 := c.head ++ le32 c.crc32 ++ List.replicate 12 0

/-- `sizeof(wl_config_t)` -/
def sizeofWlConfig : UInt32 := 48

/-- `wl_state_t` -/
structure WlState where
  wlDummySecPos : UInt32 := 0
  wlPartMaxSecPos : UInt32 := 0
  wlDummySecMoveCount : UInt32 := 0
  wlSecEraseCycleCount : UInt32 := 0
  wlMaxSecEraseCycleCount : UInt32 := 0
  wlBlockSize : UInt32 := 0
  version : UInt32 := 0
  wlDeviceId : UInt32 := 0
  reserved : List UInt32 := List.replicate 7 0
  crc32 : UInt32 := 0

/-- `sizeof(wl_state_t)` -/
def sizeofWlState : UInt32 := 64

/-- The bytes of the record before `wl_device_id`: `WL_STATE_CRC_LEN_V1` of them. -/
def WlState.headV1 (s : WlState) : List UInt8 :=
  [s.wlDummySecPos, s.wlPartMaxSecPos, s.wlDummySecMoveCount, s.wlSecEraseCycleCount,
    s.wlMaxSecEraseCycleCount, s.wlBlockSize, s.version].flatMap le32

/-- The bytes of the record before its check sum: `WL_STATE_CRC_LEN_V2` of them. -/
def WlState.headV2 (s : WlState) : List UInt8 :=
  s.headV1 ++ le32 s.wlDeviceId ++ s.reserved.flatMap le32

def WlState.bytes (s : WlState) : List UInt8 := s.headV2 ++ le32 s.crc32

/-- The record whose bytes lie in a buffer. -/
def WlState.ofBytes (b : List UInt8) : WlState where
  wlDummySecPos := word b 0
  wlPartMaxSecPos := word b 4
  wlDummySecMoveCount := word b 8
  wlSecEraseCycleCount := word b 12
  wlMaxSecEraseCycleCount := word b 16
  wlBlockSize := word b 20
  version := word b 24
  wlDeviceId := word b 28
  reserved := [word b 32, word b 36, word b 40, word b 44, word b 48, word b 52, word b 56]
  crc32 := word b 60

/-- The check sum that version 2 keeps in the record. -/
def WlState.crc (s : WlState) : UInt32 := espRomCrc32Le wlCfgCrcConst s.headV2

/-- The error codes of `esp_err_t` that the layer returns itself. -/
inductive EspErr where
  | fail | invalidArg | invalidState
  deriving DecidableEq, Repr

/-- `WL_Flash`, with the partition it drives. -/
structure WlFlash where
  configured : Bool := false
  initialized : Bool := false
  cfg : WlConfig := {}
  state : WlState := {}
  stateSize : UInt32 := 0
  cfgSize : UInt32 := 0
  addrCfg : UInt32 := 0
  addrState1 : UInt32 := 0
  addrState2 : UInt32 := 0
  flashSize : UInt32 := 0
  tempBuff : List UInt8 := []
  partition : Partition

namespace WlFlash

/-- `partition->read` into a local buffer. -/
def pread (addr : UInt32) (dest : List UInt8) (w : WlFlash) : WlFlash × List UInt8 :=
  let r := w.partition.read addr dest
  ({ w with partition := r.1 }, r.2)

def pwrite (addr : UInt32) (src : List UInt8) (w : WlFlash) : WlFlash :=
  { w with partition := w.partition.write addr src }

def perase (addr size : UInt32) (w : WlFlash) : WlFlash :=
  { w with partition := w.partition.eraseRange addr size }

/-- The layer with another state in memory. -/
def setState (state : WlState) (w : WlFlash) : WlFlash := { w with state := state }

/-- The layer over another state of the chip. -/
def setHal (hal : Hal) (w : WlFlash) : WlFlash :=
  { w with partition := { w.partition with hal := hal } }

/-- `esp_random` -/
def espRandom (w : WlFlash) : UInt32 × WlFlash :=
  (w.partition.hal.espRandom.1, w.setHal w.partition.hal.espRandom.2)

/-- `partition->read` into the first `len` bytes of `temp_buff`. -/
def readTemp (addr : UInt32) (len : Nat) (w : WlFlash) : WlFlash :=
  let r := w.partition.read addr (w.tempBuff.take len)
  { w with partition := r.1, tempBuff := r.2 ++ w.tempBuff.drop len }

/-- `partition->write` of the first `len` bytes of `temp_buff`. -/
def writeTemp (addr : UInt32) (len : Nat) (w : WlFlash) : WlFlash :=
  w.pwrite addr (w.tempBuff.take len)

/-! ## configuration -/

/-- The layout that `config` computes from the record. -/
def layOut (cfg : WlConfig) (w : WlFlash) : WlFlash :=
  let ss := cfg.flashSectorSize
  let full := sizeofWlState + (cfg.wlPartitionSize / ss) * cfg.wlPosUpdateRecordSize
  let stateSize := if ss < full then (full + ss - 1) / ss * ss else ss
  let cfgSize := (sizeofWlConfig + ss - 1) / ss * ss
  let last := cfg.wlPartitionStartAddr + cfg.wlPartitionSize
  { w with
    cfg := cfg
    stateSize := stateSize
    cfgSize := cfgSize
    addrCfg := last - cfgSize
    addrState1 := last - stateSize * 2 - cfgSize
    addrState2 := last - stateSize * 1 - cfgSize
    -- one page less: the dummy block
    flashSize := ((cfg.wlPartitionSize - stateSize * 2 - cfgSize) / cfg.wlPageSize - 1) *
      cfg.wlPageSize }

/-- `config`. `ptrdiff_t flash_sz` is signed: a size from `2^31` on counts as negative. -/
def config (cfg : WlConfig) (partition : Partition) : Except EspErr WlFlash :=
  let cfg := { cfg with crc32 := espRomCrc32Le wlCfgCrcConst cfg.head }
  let cfg := if cfg.wlTempBuffSize < cfg.wlPosUpdateRecordSize then
    { cfg with wlTempBuffSize := cfg.wlPosUpdateRecordSize } else cfg
  if cfg.flashSectorSize % cfg.wlTempBuffSize ≠ 0 then .error .invalidArg
  else if cfg.wlPageSize < cfg.flashSectorSize then .error .invalidArg
  else
    let w := layOut cfg { partition := partition }
    if w.flashSize = 0 ∨ 0x80000000 ≤ w.flashSize then .error .invalidArg
    else .ok { w with
      tempBuff := List.replicate cfg.wlTempBuffSize.toNat 0
      configured := true }

/-! ## the state on the chip -/

/-- The check word of turn `n`. -/
def okWord (n : UInt32) (i : Nat) (w : WlFlash) : UInt32 :=
  espRomCrc32Le wlCfgCrcConst (le32 (w.state.wlDeviceId + n * 4 + i.toUInt32))

/-- `fillOkBuff` -/
def fillOkBuff (n : UInt32) (w : WlFlash) : WlFlash :=
  { w with
    tempBuff := (List.range 4).flatMap (fun i => le32 (w.okWord n i)) ++ w.tempBuff.drop 16 }

/-- `OkBuffSet` -/
def okBuffSet (n : UInt32) (w : WlFlash) : Bool :=
  (List.range 4).all fun i => w.okWord n i == word w.tempBuff (4 * i)

/-- The address of the record of turn `i` in a state copy. -/
def recordAddr (base i : UInt32) (w : WlFlash) : UInt32 :=
  base + sizeofWlState + i * w.cfg.wlPosUpdateRecordSize

/-- The search of `recoverPos`: the first turn with no record, or the last turn. -/
def recoverFrom (i : UInt32) (position : UInt32) : Nat → WlFlash → WlFlash × UInt32
  | 0, w => (w, position)
  | left + 1, w =>
    let w := w.readTemp (w.recordAddr w.addrState1 i) w.cfg.wlPosUpdateRecordSize.toNat
    if w.okBuffSet i then recoverFrom (i + 1) i left w else (w, i)

/-- `recoverPos` -/
def recoverPos (w : WlFlash) : WlFlash :=
  let r := recoverFrom 0 0 w.state.wlPartMaxSecPos.toNat w
  let pos := if r.2 = r.1.state.wlPartMaxSecPos then r.2 - 1 else r.2
  r.1.setState { r.1.state with wlDummySecPos := pos }

/-- Both state copies start over with the state in memory. -/
def rewriteStates (w : WlFlash) : WlFlash :=
  let w := w.perase w.addrState1 w.stateSize
  let w := w.pwrite w.addrState1 w.state.bytes
  let w := w.perase w.addrState2 w.stateSize
  w.pwrite w.addrState2 w.state.bytes

/-- The state in memory that `initSections` makes, with the device id `id`. -/
def freshState (id : UInt32) (w : WlFlash) : WlState :=
  let maxCount := if w.cfg.wlUpdateRate ≠ 0 then w.cfg.wlUpdateRate
    else w.flashSize / w.stateSize * w.cfg.wlUpdateRate
  let state : WlState :=
    { w.state with
      wlDummySecPos := 0, wlSecEraseCycleCount := 0, wlDummySecMoveCount := 0
      wlMaxSecEraseCycleCount := maxCount
      version := w.cfg.version, wlBlockSize := w.cfg.wlPageSize, wlDeviceId := id
      reserved := List.replicate 7 0
      wlPartMaxSecPos := 1 + w.flashSize / w.cfg.wlPageSize }
  { state with crc32 := state.crc }

/-- The configuration sector starts over. -/
def writeCfg (w : WlFlash) : WlFlash :=
  let w := w.perase w.addrCfg w.cfgSize
  w.pwrite w.addrCfg w.cfg.bytes

/-- `initSections` -/
def initSections (w : WlFlash) : WlFlash :=
  let r := w.espRandom
  (r.2.setState (r.2.freshState r.1)).rewriteStates.writeCfg

/-- The records that are set, copied from one state copy to the other. -/
def copyRecords (src dst : UInt32) (w : WlFlash) : WlFlash :=
  let len := w.cfg.wlPosUpdateRecordSize.toNat
  (List.range (w.cfg.wlPartitionSize / w.cfg.flashSectorSize).toNat).foldl (fun w i =>
    let i := i.toUInt32
    let w := w.readTemp (w.recordAddr src i) len
    if w.okBuffSet i then w.writeTemp (w.recordAddr dst i) len else w) w

/-- The search of `updateV1_V2`: a record of version 1 is set when its first byte is not blank. -/
def positionV1 (i pos : UInt32) : Nat → WlFlash → WlFlash × UInt32
  | 0, w => (w, pos)
  | left + 1, w =>
    let r := w.pread (w.recordAddr w.addrState1 i) [0]
    if r.2.getD 0 0 = 0xff then (r.1, i) else positionV1 (i + 1) i left r.1

/-- One state copy of `updateV1_V2`, with the records of the turns up to `pos`. -/
def convert (addr pos : UInt32) (w : WlFlash) : WlFlash :=
  let len := w.cfg.wlPosUpdateRecordSize.toNat
  let w := w.perase addr w.stateSize
  let w := w.pwrite addr w.state.bytes
  let w := { w with tempBuff := List.replicate len 0 ++ w.tempBuff.drop len }
  (List.range (pos.toNat + 1)).foldl (fun w i =>
    let i := i.toUInt32
    let w := w.fillOkBuff i
    w.writeTemp (w.recordAddr addr i) len) w

/-- The state of version 2 that `updateV1_V2` makes, with the device id `id`. -/
def stateV2 (id : UInt32) (w : WlFlash) : WlState :=
  let state := { w.state with
    version := 2, wlDummySecPos := 0, wlDeviceId := id, reserved := List.replicate 7 0 }
  { state with crc32 := state.crc }

/-- `updateV1_V2`; `false` is `ESP_FAIL`. -/
def updateV1V2 (w : WlFlash) : WlFlash × Bool :=
  let r := w.pread w.addrState2 (List.replicate 64 0)
  let w := r.1
  let copy := WlState.ofBytes r.2
  let crc1 := espRomCrc32Le wlCfgCrcConst w.state.headV1
  let crc2 := espRomCrc32Le wlCfgCrcConst copy.headV1
  let v1Crc1 := w.state.wlDeviceId
  let v1Crc2 := copy.wlDeviceId
  if crc1 = v1Crc1 ∧ crc2 = v1Crc2 ∧ v1Crc1 = v1Crc2 ∧ w.state.version = 1 ∧ copy.version = 1 then
    let r := positionV1 0 0 w.state.wlPartMaxSecPos.toNat w
    let pos := if r.2 = r.1.state.wlPartMaxSecPos then r.2 - 1 else r.2
    let r := r.1.espRandom
    let w := r.2.setState (r.2.stateV2 r.1)
    let w := w.convert w.addrState1 pos
    let w := w.convert w.addrState2 pos
    (w.setState { w.state with wlDummySecPos := pos }, true)
  else (w, false)

/-- `init` where both state copies are sound. -/
def initSound (crc1 crc2 : UInt32) (w : WlFlash) : WlFlash :=
  if w.state.version ≠ w.cfg.version then w.initSections.recoverPos
  else if crc1 ≠ crc2 then
    -- the second copy was not updated
    let w := w.perase w.addrState2 w.stateSize
    let w := w.pwrite w.addrState2 w.state.bytes
    (w.copyRecords w.addrState1 w.addrState2).recoverPos
  else w.recoverPos

/-- `init` where no copy is sound: a new chip, or a state of version 1. -/
def initNew (w : WlFlash) : WlFlash :=
  let r := w.updateV1V2
  (if r.2 then r.1 else r.1.initSections).recoverPos

/-- `init` where one copy is broken. -/
def initBroken (first : Bool) (copy : WlState) (w : WlFlash) : WlFlash :=
  let w : WlFlash :=
    if first then
      let w := w.perase w.addrState2 w.stateSize
      let w := w.pwrite w.addrState2 w.state.bytes
      let w := w.copyRecords w.addrState1 w.addrState2
      let r := w.pread w.addrState2 w.state.bytes
      r.1.setState (.ofBytes r.2)
    else
      let w := w.perase w.addrState1 w.stateSize
      let w := w.pwrite w.addrState1 copy.bytes
      let w := w.copyRecords w.addrState2 w.addrState1
      let r := w.pread w.addrState1 w.state.bytes
      let state := WlState.ofBytes r.2
      r.1.setState { state with wlDummySecPos := state.wlPartMaxSecPos - 1 }
  if w.state.version ≠ w.cfg.version then w.initSections else w

/-- `init` -/
def init (w : WlFlash) : Except EspErr WlFlash :=
  if !w.configured then .error .invalidState
  else
    let r := w.pread w.addrState1 w.state.bytes
    let w := { r.1 with initialized := false }.setState (.ofBytes r.2)
    let r := w.pread w.addrState2 (List.replicate 64 0)
    let w := r.1
    let copy := WlState.ofBytes r.2
    let w : WlFlash :=
      if w.state.crc = w.state.crc32 ∧ copy.crc = copy.crc32 then w.initSound w.state.crc copy.crc
      else if w.state.crc ≠ w.state.crc32 ∧ copy.crc ≠ copy.crc32 then w.initNew
      else w.initBroken (w.state.crc = w.state.crc32) copy
    .ok { w with initialized := true }

/-! ## rotation and address map -/

/-- `calcAddr` -/
def calcAddr (addr : UInt32) (w : WlFlash) : UInt32 :=
  let result := (w.flashSize - w.state.wlDummySecMoveCount * w.cfg.wlPageSize + addr) % w.flashSize
  let dummyAddr := w.state.wlDummySecPos * w.cfg.wlPageSize
  if result < dummyAddr then result else result + w.cfg.wlPageSize

/-- The copy loop of `updateWL`: one page through `temp_buff`. -/
def copyBlock (dataAddr dummyAddr : UInt32) (w : WlFlash) : WlFlash :=
  let len := w.cfg.wlTempBuffSize
  (List.range (w.cfg.wlPageSize / len).toNat).foldl (fun w i =>
    let off := i.toUInt32 * len
    (w.readTemp (dataAddr + off) len.toNat).writeTemp (dummyAddr + off) len.toNat) w

/-- The record of the finished turn, in both state copies. -/
def markTurn (w : WlFlash) : WlFlash :=
  let len := w.cfg.wlPosUpdateRecordSize.toNat
  let w := w.fillOkBuff w.state.wlDummySecPos
  let w := w.writeTemp (w.recordAddr w.addrState1 w.state.wlDummySecPos) len
  let w := w.fillOkBuff w.state.wlDummySecPos
  w.writeTemp (w.recordAddr w.addrState2 w.state.wlDummySecPos) len

/-- The end of a turn: the dummy block has moved on, at the end of a lap to the first place. -/
def advance (w : WlFlash) : WlFlash :=
  let pos := w.state.wlDummySecPos + 1
  if w.state.wlPartMaxSecPos ≤ pos then
    let moves := w.state.wlDummySecMoveCount + 1
    let moves := if w.state.wlPartMaxSecPos - 1 ≤ moves then 0 else moves
    let state := { w.state with wlDummySecPos := 0, wlDummySecMoveCount := moves }
    (w.setState { state with crc32 := state.crc }).rewriteStates
  else w.setState { w.state with wlDummySecPos := pos }

/-- A turn of the rotation: the block next to the dummy one moves into it. -/
def turn (w : WlFlash) : WlFlash :=
  let next := w.state.wlDummySecPos + 1
  let next := if w.state.wlPartMaxSecPos ≤ next then 0 else next
  let dataAddr := w.cfg.wlPartitionStartAddr + next * w.cfg.wlPageSize
  let dummyAddr := w.cfg.wlPartitionStartAddr + w.state.wlDummySecPos * w.cfg.wlPageSize
  let w := w.perase dummyAddr w.cfg.wlPageSize
  ((w.copyBlock dataAddr dummyAddr).markTurn).advance

/-- `updateWL` -/
def updateWL (w : WlFlash) : WlFlash :=
  let count := w.state.wlSecEraseCycleCount + 1
  if count < w.state.wlMaxSecEraseCycleCount then
    w.setState { w.state with wlSecEraseCycleCount := count }
  else (w.setState { w.state with wlSecEraseCycleCount := 0 }).turn

/-- `erase_sector` -/
def eraseSector (sector : UInt32) (w : WlFlash) : WlFlash :=
  let w := w.updateWL
  let virtAddr := w.calcAddr (sector * w.cfg.flashSectorSize)
  let physical := (w.cfg.wlPartitionStartAddr + virtAddr) / w.cfg.flashSectorSize
  { w with partition := w.partition.eraseSector physical }

/-- `erase_range` -/
def eraseRange (startAddress size : UInt32) (w : WlFlash) : Except EspErr WlFlash :=
  if !w.initialized then .error .invalidState
  else
    let ss := w.cfg.flashSectorSize
    .ok ((List.range ((size + ss - 1) / ss).toNat).foldl (fun w i =>
      w.eraseSector (startAddress / ss + i.toUInt32)) w)

/-- One call of `partition->write` in `write`. -/
def writePage (destAddr : UInt32) (src : List UInt8) (w : WlFlash) : WlFlash :=
  w.pwrite (w.cfg.wlPartitionStartAddr + w.calcAddr destAddr) src

/-- One call of `partition->read` in `read`. -/
def readPage (srcAddr : UInt32) (dest : List UInt8) (w : WlFlash) : WlFlash × List UInt8 :=
  w.pread (w.cfg.wlPartitionStartAddr + w.calcAddr srcAddr) dest

/-- `write`: whole pages, then what is left. -/
def write (destAddr : UInt32) (src : List UInt8) (w : WlFlash) : Except EspErr WlFlash :=
  if !w.initialized then .error .invalidState
  else
    let page := w.cfg.wlPageSize
    let count := ((src.length.toUInt32 - 1) / page).toNat
    let w := (List.range count).foldl (fun w i =>
      w.writePage (destAddr + i.toUInt32 * page) ((src.drop (i * page.toNat)).take page.toNat)) w
    .ok (w.writePage (destAddr + count.toUInt32 * page) (src.drop (count * page.toNat)))

/-- `read`: whole pages, then what is left. -/
def read (srcAddr : UInt32) (dest : List UInt8) (w : WlFlash) :
    Except EspErr (WlFlash × List UInt8) :=
  if !w.initialized then .error .invalidState
  else
    let page := w.cfg.wlPageSize
    let count := ((dest.length.toUInt32 - 1) / page).toNat
    let (w, data) := (List.range count).foldl (fun (w, data) i =>
      let (w, b) := w.readPage (srcAddr + i.toUInt32 * page)
        ((dest.drop (i * page.toNat)).take page.toNat)
      (w, data ++ b)) (w, [])
    let (w, b) := w.readPage (srcAddr + count.toUInt32 * page) (dest.drop (count * page.toNat))
    .ok (w, data ++ b)

/-- `get_flash_size` -/
def getFlashSize (w : WlFlash) : UInt32 := if !w.configured then 0 else w.flashSize

/-- `get_sector_size` -/
def getSectorSize (w : WlFlash) : UInt32 := if !w.configured then 0 else w.cfg.flashSectorSize

/-- `phys_addr_of` (wl_glue.h) -/
def physAddrOf (logicalAddr : UInt32) (w : WlFlash) : UInt32 :=
  w.cfg.wlPartitionStartAddr + w.calcAddr logicalAddr

end WlFlash

/-! ## what FatFs sees -/

/-- The configuration that `wlfat_up` builds for a chip of `sc` sectors of `ss` bytes. -/
def wlfatConfig (ss sc : UInt32) : WlConfig where
  wlPartitionStartAddr := 0
  wlPartitionSize := ss * sc
  wlPageSize := ss
  flashSectorSize := ss
  wlUpdateRate := 16
  wlPosUpdateRecordSize := 16
  version := 2
  wlTempBuffSize := 32

/-- `wlfat_up` -/
def wlfatUp (ss sc : UInt32) (hal : Hal) : Except Int WlFlash :=
  match WlFlash.config (wlfatConfig ss sc) ⟨0, ss * sc, ss, hal⟩ with
  | .error _ => .error (-1)
  | .ok w =>
    match w.init with
    | .error _ => .error (-2)
    | .ok w => .ok w

/-- `DRESULT` -/
inductive DResult where
  | ok | error | notRdy
  deriving DecidableEq, Repr

/-- `disk_read` of `count` sectors into a buffer, over `g_wl_inspect`. -/
def diskRead (sector count : UInt32) (buff : List UInt8) :
    Option WlFlash → DResult × Option WlFlash × List UInt8
  | none => (.notRdy, none, buff)
  | some w =>
    let ss := w.getSectorSize
    if ss = 0 then (.notRdy, some w, buff)
    else match w.read (sector * ss) (buff.take (count * ss).toNat) with
      | .error _ => (.error, some w, buff)
      | .ok (w, data) => (.ok, some w, data ++ buff.drop (count * ss).toNat)

/-- `disk_write` of `count` sectors from a buffer. -/
def diskWrite (buff : List UInt8) (sector count : UInt32) :
    Option WlFlash → DResult × Option WlFlash
  | none => (.notRdy, none)
  | some w =>
    let ss := w.getSectorSize
    if ss = 0 then (.notRdy, some w)
    else match w.eraseRange (sector * ss) (count * ss) with
      | .error _ => (.error, some w)
      | .ok w =>
        match w.write (sector * ss) (buff.take (count * ss).toNat) with
        | .error _ => (.error, some w)
        | .ok w => (.ok, some w)

end FlashVis
