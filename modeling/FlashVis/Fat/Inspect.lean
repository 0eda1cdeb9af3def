import FlashVis.Fat.WearLevel
import FlashVis.Lib.Bounded

/-!
# The live map of the FAT driver (fat_inspect.cpp)

`ffLiveMap` classifies every page of the chip: it reads the volume through the wear-levelling
layer, classifies the pages of the logical sectors by the FAT and the directories, and places them
where the sectors are.

* `Walk`                         the statics of the walk, and the layer it reads through;
* `fat12Entry`, `markBytes`, `markRegion`, `markFile`, `scanDirSector`   the parts of the walk;
* `openVolume`, `provisional`, `regions`, `rootWalk`, `subWalk`, `resolve`, `place`, `sweep`   the
  steps of `ffLiveMap`, in order.

An access outside the bounds of an array has no result (`none`); a call that returns `-1` gives
`some none`.
-/

namespace FlashVis
open Bounded

/-! ## classes -/

def clsErased : UInt8 := 0
def clsMeta : UInt8 := 1
def clsObsolete : UInt8 := 2
def clsLive : UInt8 := 3
/-- What the wear-levelling layer itself writes. -/
def clsWl : UInt8 := 4
/-- Allocated, but carrying no data. -/
def clsSlack : UInt8 := 5
/-- Allocated in the FAT and claimed by no walk yet. -/
def pgAlloc : UInt8 := 0xFD
/-- Free in the FAT. -/
def pgFree : UInt8 := 0xFE

/-- The size of `s_sec`, `s_fat` and `s_logpg`. -/
def bufSize : Nat := 4096

/-- The statics of the walk, and `g_wl_inspect`. -/
structure Walk where
  wl : WlFlash
  sSec : Nat → UInt8
  sFat : Nat → UInt8
  sLogpg : Nat → UInt8
  sSs : UInt32
  sPgsz : UInt32
  sNlog : UInt32
  sFatLen : UInt32
  sDataStart : UInt32
  sNclusters : UInt32

/-- `rd16` -/
def rd16 (p : Nat → UInt8) (i : Nat) : Option UInt32 := do
  let a ← peek bufSize p i
  let b ← peek bufSize p (i + 1)
  some (a.toUInt32 ||| b.toUInt32 <<< 8)

/-- `rd32` -/
def rd32 (p : Nat → UInt8) (i : Nat) : Option UInt32 := do
  let a ← rd16 p i
  let b ← rd16 p (i + 2)
  some (a ||| b <<< 16)

/-- `fat12_entry` of cluster `c`. -/
def fat12Entry (fat : Nat → UInt8) (fatLen c : UInt32) : Option UInt32 :=
  let ofs := c + c / 2
  if fatLen ≤ ofs + 1 then some 0
  else do
    let a ← peek bufSize fat ofs.toNat
    let b ← peek bufSize fat (ofs + 1).toNat
    let v := a.toUInt32 ||| b.toUInt32 <<< 8
    some (if c &&& 1 ≠ 0 then v >>> 4 else v &&& 0x0FFF)

/-- The first `n` bytes of a buffer. -/
def bytesOf (a : Nat → UInt8) (n : Nat) : List UInt8 := (List.range n).map a

/-- A buffer with its first bytes replaced. -/
def overlay (a : Nat → UInt8) (data : List UInt8) : Nat → UInt8 := fun i => data.getD i (a i)

/-- The silent-read flag. -/
def WlFlash.setQuiet (q : Bool) (w : WlFlash) : WlFlash :=
  { w with partition := { w.partition with hal := { w.partition.hal with gQuiet := q } } }

namespace Walk

/-- `read_logical` into a buffer; `none` is a failed read. -/
def readLogical (sector : UInt32) (buf : Nat → UInt8) (x : Walk) : Option (Walk × (Nat → UInt8)) :=
  match x.wl.read (sector * x.sSs) (bytesOf buf x.sSs.toNat) with
  | .error _ => none
  | .ok (wl, data) => some ({ x with wl := wl }, overlay buf data)

/-- `read_logical` into `s_sec`, and whether it succeeded. -/
def readSec (sector : UInt32) (x : Walk) : Walk × Bool :=
  match x.readLogical sector x.sSec with
  | none => (x, false)
  | some (x, buf) => ({ x with sSec := buf }, true)

/-- `s_logpg[p] = cls` -/
def setPage (p : Nat) (cls : UInt8) (x : Walk) : Option Walk := do
  let pages ← poke bufSize x.sLogpg p cls
  some { x with sLogpg := pages }

/-- `mark_bytes`: the pages that the logical bytes `[b0, b1)` touch. The bytes of a volume are far
below `2^32`, so that `p * s_pgsz` does not wrap before it reaches `b1`. -/
def markBytes (b0 b1 : UInt32) (cls : UInt8) (x : Walk) : Option Walk :=
  let b1 := if x.sNlog * x.sSs < b1 then x.sNlog * x.sSs else b1
  let first := (b0 / x.sPgsz).toNat
  let last := (b1.toNat + x.sPgsz.toNat - 1) / x.sPgsz.toNat
  (List.range' first (last - first)).foldlM (fun x p => x.setPage p cls) x

/-- `mark_region`: metadata up to `used`, padding up to `len`. -/
def markRegion (start used len : UInt32) (x : Walk) : Option Walk := do
  let used := if len < used then len else used
  let x ← x.markBytes start (start + used) clsMeta
  let aligned := start + (used + x.sPgsz - 1) / x.sPgsz * x.sPgsz
  if aligned < start + len then x.markBytes aligned (start + len) clsSlack else some x

/-- The chain of `mark_file`, from its cluster number `i` on; the loop gives up after
`s_nclusters + 1` turns. -/
def markChain (size : UInt32) : Nat → (c i : UInt32) → Walk → Option Walk
  | 0, _, _, x => some x
  | left + 1, c, i, x =>
    if 2 ≤ c ∧ c < x.sNclusters + 2 then do
      let base := (x.sDataStart + (c - 2)) * x.sSs
      let covered := if i * x.sSs < size then size - i * x.sSs else 0
      let covered := if x.sSs < covered then x.sSs else covered
      let livePages := (covered + x.sPgsz - 1) / x.sPgsz
      let x ← x.markBytes base (base + livePages * x.sPgsz) clsLive
      let x ← x.markBytes (base + livePages * x.sPgsz) (base + x.sSs) clsSlack
      let next ← fat12Entry x.sFat x.sFatLen c
      if next < 2 ∨ 0x0FF8 ≤ next then some x else markChain size left next (i + 1) x
    else some x

/-- `mark_file` -/
def markFile (startClus size : UInt32) (x : Walk) : Option Walk :=
  markChain size (x.sNclusters.toNat + 1) startClus 0 x

/-- The subdirectories collected so far: `subs`, `nsubs`. -/
structure Subs where
  subs : Nat → UInt32 := fun _ => 0
  nsubs : Nat := 0

/-- The capacity of `subs`. -/
def subsCap : Nat := 32

/-- `scan_dir_sector` from the entry at `off`; the extent, and whether the end marker was found. -/
def scanFrom (cap : Nat) : Nat → Nat → Walk × Subs → Option ((Walk × Subs) × UInt32 × Bool)
  | 0, _, (x, s) => some ((x, s), x.sSs, false)
  | left + 1, off, (x, s) => do
    let first ← peek bufSize x.sSec off
    if first = 0x00 then some ((x, s), (off + 32).toUInt32, true)
    else if first = 0xE5 then scanFrom cap left (off + 32) (x, s)
    else
      let attr ← peek bufSize x.sSec (off + 11)
      if attr = 0x0F then scanFrom cap left (off + 32) (x, s)
      else if attr &&& 0x08 ≠ 0 then scanFrom cap left (off + 32) (x, s)
      else
        let low ← rd16 x.sSec (off + 26)
        let high ← rd16 x.sSec (off + 20)
        let clus := low ||| high <<< 16
        if attr &&& 0x10 ≠ 0 then
          if first = 0x2E then scanFrom cap left (off + 32) (x, s)
          else if 2 ≤ clus ∧ s.nsubs < cap then
            let subs ← poke subsCap s.subs s.nsubs clus
            scanFrom cap left (off + 32) (x, { subs := subs, nsubs := s.nsubs + 1 })
          else scanFrom cap left (off + 32) (x, s)
        else
          let size ← rd32 x.sSec (off + 28)
          if 2 ≤ clus ∧ 0 < size then
            let x ← x.markFile clus size
            scanFrom cap left (off + 32) (x, s)
          else scanFrom cap left (off + 32) (x, s)

/-- `scan_dir_sector` -/
def scanDirSector (cap : Nat) (r : Walk × Subs) : Option ((Walk × Subs) × UInt32 × Bool) :=
  scanFrom cap (r.1.sSs.toNat / 32) 0 r

/-! ## 1. the boot record -/

/-- The fields of the boot record that the walk uses. -/
structure Bpb where
  bytsPerSec : UInt32
  secPerClus : UInt8
  rsvd : UInt32
  numFats : UInt8
  rootEnt : UInt32
  fatsz16 : UInt32
  totSec : UInt32

namespace Bpb

def fatStart (b : Bpb) : UInt32 := b.rsvd
def rootStart (b : Bpb) : UInt32 := b.rsvd + b.numFats.toUInt32 * b.fatsz16
def rootSecs (ss : UInt32) (b : Bpb) : UInt32 := (b.rootEnt * 32 + ss - 1) / ss
def dataStart (ss : UInt32) (b : Bpb) : UInt32 := b.rootStart + b.rootSecs ss
def nclusters (ss : UInt32) (b : Bpb) : UInt32 :=
  if b.dataStart ss < b.totSec then b.totSec - b.dataStart ss else 0

/-- A volume of sectors of `ss` bytes and one sector per cluster. -/
def accepted (ss : UInt32) (b : Bpb) : Bool :=
  b.bytsPerSec == ss && b.secPerClus == 1 && b.numFats != 0 && b.fatsz16 != 0

end Bpb

/-- The boot record in `s_sec`. -/
def parseBpb (p : Nat → UInt8) : Option Bpb := do
  let bytsPerSec ← rd16 p 11
  let secPerClus ← peek bufSize p 13
  let rsvd ← rd16 p 14
  let numFats ← peek bufSize p 16
  let rootEnt ← rd16 p 17
  let tot16 ← rd16 p 19
  let fatsz16 ← rd16 p 22
  let tot32 ← rd32 p 32
  some ⟨bytsPerSec, secPerClus, rsvd, numFats, rootEnt, fatsz16, if tot16 ≠ 0 then tot16 else tot32⟩

/-- The volume in the first logical sector; `some none` where it is refused. -/
def openVolume (x : Walk) : Option (Walk × Option Bpb) :=
  match x.readSec 0 with
  | (x, false) => some (x, none)
  | (x, true) => do
    let a ← peek bufSize x.sSec 510
    let b ← peek bufSize x.sSec 511
    if a ≠ 0x55 ∨ b ≠ 0xAA then some (x, none)
    else
      let bpb ← parseBpb x.sSec
      if bpb.accepted x.sSs then
        some ({ x with sDataStart := bpb.dataStart x.sSs, sNclusters := bpb.nclusters x.sSs }, some bpb)
      else some (x, none)

/-! ## 2. the FAT -/

/-- The first FAT copy in memory, as much of it as fits `s_fat`; `none` where the read fails. -/
def readFat (b : Bpb) (x : Walk) : Walk × Bool :=
  let len := b.fatsz16 * x.sSs
  let x := { x with sFatLen := if bufSize.toUInt32 < len then bufSize.toUInt32 else len }
  match x.readLogical b.fatStart x.sFat with
  | none => (x, false)
  | some (x, buf) => ({ x with sFat := buf }, true)

/-- Provisional classes: a cluster is allocated or free. -/
def provisional (x : Walk) : Option Walk :=
  let x := { x with sLogpg := fun _ => pgFree }
  (List.range' 2 ((x.sNclusters + 2).toNat - 2)).foldlM (fun x c => do
    let base := (x.sDataStart + (c.toUInt32 - 2)) * x.sSs
    let e ← fat12Entry x.sFat x.sFatLen c.toUInt32
    if e ≠ 0 then x.markBytes base (base + x.sSs) pgAlloc else some x) x

/-! ## 3. the fixed regions -/

/-- The bytes of a FAT copy that hold entries. -/
def fatUsed (x : Walk) : UInt32 := ((x.sNclusters + 2) * 3 + 1) / 2

/-- The boot record and the FAT copies. -/
def regions (b : Bpb) (x : Walk) : Option Walk := do
  let x ← x.markRegion 0 512 (b.rsvd * x.sSs)
  (List.range b.numFats.toNat).foldlM (fun x f =>
    x.markRegion ((b.fatStart + f.toUInt32 * b.fatsz16) * x.sSs) x.fatUsed (b.fatsz16 * x.sSs)) x

/-! ## 4. the directories -/

/-- The root directory from its sector `rs` on. -/
def rootFrom (b : Bpb) : Nat → UInt32 → Walk × Subs → Option (Walk × Subs)
  | 0, _, r => some r
  | left + 1, rs, (x, s) =>
    match x.readSec (b.rootStart + rs) with
    | (x, false) => some (x, s)
    | (x, true) => do
      let ((x, s), extent, ended) ← scanDirSector subsCap (x, s)
      let x ← x.markRegion ((b.rootStart + rs) * x.sSs) extent x.sSs
      if ended then
        -- the rest of the root directory is past the end marker
        let x ← (List.range left).foldlM (fun x t =>
          x.markRegion ((b.rootStart + (rs + 1 + t.toUInt32)) * x.sSs) 0 x.sSs) x
        some (x, s)
      else rootFrom b left (rs + 1) (x, s)

/-- The root directory. -/
def rootWalk (b : Bpb) (x : Walk) : Option (Walk × Subs) :=
  rootFrom b (b.rootSecs x.sSs).toNat 0 (x, {})

/-- The chain of one subdirectory; the loop gives up after `s_nclusters + 1` turns. -/
def subFrom : Nat → (c : UInt32) → Walk × Subs → Option (Walk × Subs)
  | 0, _, r => some r
  | left + 1, c, (x, s) =>
    if 2 ≤ c ∧ c < x.sNclusters + 2 then
      let secNo := x.sDataStart + (c - 2)
      match x.readSec secNo with
      | (x, false) => some (x, s)
      | (x, true) => do
        let ((x, s), extent, ended) ← scanDirSector 0 (x, s)
        let x ← x.markRegion (secNo * x.sSs) extent x.sSs
        let next ← fat12Entry x.sFat x.sFatLen c
        if ended ∨ next < 2 ∨ 0x0FF8 ≤ next then some (x, s) else subFrom left next (x, s)
    else some (x, s)

/-- The first-level subdirectories. -/
def subWalk (r : Walk × Subs) : Option (Walk × Subs) :=
  (List.range r.2.nsubs).foldlM (fun r d => do
    let c ← peek subsCap r.2.subs d
    subFrom (r.1.sNclusters.toNat + 1) c r) r

/-! ## 5. the clusters no walk has claimed -/

/-- The bytes `[i, i + left)` of a buffer are all blank. -/
def blankFrom (p : Nat → UInt8) : Nat → Nat → Option Bool
  | 0, _ => some true
  | left + 1, i => do
    let b ← peek bufSize p i
    if b ≠ 0xFF then some false else blankFrom p left (i + 1)

/-- Page `k` of a sector buffer: erased, or programmed and free. -/
def scanPage (p : Nat → UInt8) (pgsz : UInt32) (k : Nat) : Option UInt8 := do
  let blank ← blankFrom p pgsz.toNat (k * pgsz.toNat)
  some (if blank then clsErased else clsObsolete)

/-- The pages of a logical sector. -/
def ppp (x : Walk) : Nat := (x.sSs / x.sPgsz).toNat

/-- Page `k` of logical sector `L`: allocated and unclaimed, it is live; the flag is whether the sector
has a free page. -/
def claimPage (L : Nat) (r : Walk × Bool) (k : Nat) : Option (Walk × Bool) := do
  let (x, hasFree) := r
  let v ← peek bufSize x.sLogpg (L * x.ppp + k)
  if v = pgAlloc then
    let x ← x.setPage (L * x.ppp + k) clsLive
    some (x, hasFree)
  else some (x, hasFree || v == pgFree)

/-- Page `k` of logical sector `L`: free, its class is what the sector buffer shows, or obsolete where
the read failed. -/
def scanFree (ok : Bool) (L : Nat) (x : Walk) (k : Nat) : Option Walk := do
  let v ← peek bufSize x.sLogpg (L * x.ppp + k)
  if v ≠ pgFree then some x
  else if !ok then x.setPage (L * x.ppp + k) clsObsolete
  else
    let cls ← scanPage x.sSec x.sPgsz k
    x.setPage (L * x.ppp + k) cls

/-- The sentinels of one logical sector. -/
def resolveSector (x : Walk) (L : Nat) : Option Walk := do
  let (x, hasFree) ← (List.range x.ppp).foldlM (claimPage L) (x, false)
  if !hasFree then some x
  else
    let (x, ok) := x.readSec L.toUInt32
    (List.range x.ppp).foldlM (scanFree ok L) x

/-- All sentinels. -/
def resolve (x : Walk) : Option Walk := (List.range x.sNlog.toNat).foldlM resolveSector x

/-! ## 6. the places -/

/-- The buffer of the caller: what the call has written to each page. -/
abbrev Out := Nat → Option UInt8

/-- `ndev`: the sectors that the map takes the chip to have. -/
def ndev (x : Walk) : UInt32 := x.sNlog + 1 + 3

/-- The sectors that the layer itself writes. -/
def pinWl (pages : Nat) (x : Walk) : Option Out := do
  let out ← fill pages (fun _ => none) 0 (x.ndev.toNat * x.ppp) (some pgFree)
  let s1 := x.wl.addrState1 / x.sSs
  let s2 := x.wl.addrState2 / x.sSs
  let cf := x.wl.addrCfg / x.sSs
  [s1, s2, cf].foldlM (fun out s =>
    if s < x.ndev then fill pages out (s.toNat * x.ppp) x.ppp (some clsWl) else some out) out

/-- The classes of logical sector `L`, where the sector is. -/
def placeSector (pages : Nat) (x : Walk) (out : Out) (L : Nat) : Option Out := do
  let ps := x.wl.physAddrOf (L.toUInt32 * x.sSs) / x.sSs
  if x.ndev ≤ ps then some out
  else
    let first ← peek pages out (ps.toNat * x.ppp)
    if first = some clsWl then some out
    else
      (List.range x.ppp).foldlM (fun out k => do
        let v ← peek bufSize x.sLogpg (L * x.ppp + k)
        poke pages out (ps.toNat * x.ppp + k) (some v)) out

/-- The classes of the logical sectors. -/
def place (pages : Nat) (x : Walk) (out : Out) : Option Out :=
  (List.range x.sNlog.toNat).foldlM (x.placeSector pages) out

/-- `read_phys`: a physical sector, silent. -/
def readPhys (sector : UInt32) (x : Walk) : Walk :=
  let data := x.wl.partition.hal.dev.fetch (sector * x.sSs).toNat (bytesOf x.sSec x.sSs.toNat)
  { x with sSec := overlay x.sSec data }

/-- Physical sector `p`, if no logical one is on it. -/
def sweepSector (pages : Nat) (r : Walk × Out) (p : Nat) : Option (Walk × Out) := do
  let (x, out) := r
  let first ← peek pages out (p * x.ppp)
  if first ≠ some pgFree then some (x, out)
  else
    let x := x.readPhys p.toUInt32
    let out ← (List.range x.ppp).foldlM (fun out k => do
      let v ← scanPage x.sSec x.sPgsz k
      poke pages out (p * x.ppp + k) (some v)) out
    some (x, out)

/-- The physical sectors that no logical one is on. -/
def sweep (pages : Nat) (r : Walk × Out) : Option (Walk × Out) :=
  (List.range r.1.ndev.toNat).foldlM (sweepSector pages) r

/-- The classes of the logical pages. -/
def logical (b : Bpb) (x : Walk) : Option Walk := do
  let x ← x.provisional
  let x ← x.regions b
  let (x, s) ← x.rootWalk b
  let (x, _) ← subWalk (x, s)
  x.resolve

/-- The map of an opened volume. -/
def classify (pages : Nat) (b : Bpb) (x : Walk) : Option (Walk × Out) := do
  let x ← x.logical b
  let out ← x.pinWl pages
  let out ← x.place pages out
  sweep pages (x, out)

end Walk

/-- The static buffers of `fat_inspect.cpp`. -/
structure InspectStatics where
  sSec : Nat → UInt8
  sFat : Nat → UInt8
  sLogpg : Nat → UInt8

/-- The checks of `ff_live_map` before it reads anything. -/
def liveMapFits (ss nlog pageSize : UInt32) : Bool :=
  ss != 0 && pageSize != 0 && ss % pageSize == 0 && !(4096 < ss) &&
    !(256 < nlog) && !(256 < nlog + 1 + 3) && !(bufSize.toUInt32 < nlog * (ss / pageSize))

/-- The walk over the layer `w`, before it has read anything. -/
def Walk.start (t : InspectStatics) (pageSize : UInt32) (w : WlFlash) : Walk where
  wl := w.setQuiet true
  sSec := t.sSec
  sFat := t.sFat
  sLogpg := t.sLogpg
  sSs := w.getSectorSize
  sPgsz := pageSize
  sNlog := w.getFlashSize / w.getSectorSize
  sFatLen := 0
  sDataStart := 0
  sNclusters := 0

/-- `ff_live_map` into a buffer of `pages` bytes: the layer afterwards and, unless it returns `-1`,
what it wrote to each page. -/
def ffLiveMap (t : InspectStatics) (pages : Nat) (pageSize : UInt32) :
    Option WlFlash → Option (Option WlFlash × Option Walk.Out)
  | none => some (none, none)
  | some w =>
    if !liveMapFits w.getSectorSize (w.getFlashSize / w.getSectorSize) pageSize then some (some w, none)
    else
      match (Walk.start t pageSize w).openVolume with
      | none => none
      | some (x, none) => some (some (x.wl.setQuiet false), none)
      | some (x, some b) =>
        match x.readFat b with
        | (x, false) => some (some (x.wl.setQuiet false), none)
        | (x, true) => (x.classify pages b).map fun r => (some (r.1.wl.setQuiet false), some r.2)

end FlashVis
