import FlashVis.Model.Device

/-!
# The headless heat player (worker-heat.js)

Per-page read and program heat, the shown fill of every page, and the split of a device event
into per-page playback steps.  Decay is `Math.pow(0.5, dt / halfLife)` in the source; it enters
as the parameter `pow`, applied to `dt / halfLife`.
-/

namespace FlashVis

def HEAT_ADD : ℚ := 1
def HEAT_HALF_MS : ℚ := 500
def HEAT_HALF_MIN : ℚ := 50
def HEAT_HALF_MAX : ℚ := 3000
def HEAT_SCALE_REF : ℚ := 20000
def HEAT_EPS : ℚ := 4 / 100

/-- A playback step of one device event: `{ ns, op, page, off, len, sector }`, or the whole event
when there is no heat player to split it. -/
inductive PStep where
  | erase (ns : ℚ) (sector : Nat)
  | prog (ns : ℚ) (page off len : Nat)
  | read (ns : ℚ) (page : Nat)
  | whole (ev : DevEvent)
  deriving DecidableEq, Repr

def PStep.ns : PStep → ℚ
  | .erase ns _ | .prog ns _ _ _ | .read ns _ => ns
  | .whole ev => ev.ns

structure HeatPlayer where
  geometry : Geometry
  shown : List Nat
  readHeat : List ℚ
  progHeat : List ℚ
  glowHot : List Nat
  lastDecayAt : ℚ
  deriving DecidableEq, Repr

def pagesPerSector (g : Geometry) : Nat := g.sectorSize / g.pageSize

def npages (g : Geometry) : Nat := g.sectorCount * pagesPerSector g

/-- `createHeatPlayer` at wall-clock time `now`. -/
def createHeatPlayer (g : Geometry) (now : ℚ) : HeatPlayer where
  geometry := g
  shown := List.replicate (npages g) 0
  readHeat := List.replicate (npages g) 0
  progHeat := List.replicate (npages g) 0
  glowHot := []
  lastDecayAt := now

namespace HeatPlayer

def pageOf (h : HeatPlayer) (off : Nat) : Nat := off / h.geometry.pageSize

def addHot (p : Nat) (l : List Nat) : List Nat := if p ∈ l then l else l ++ [p]

/-- `bump(p, 'read')` -/
def bumpRead (p : Nat) (h : HeatPlayer) : HeatPlayer :=
  { h with readHeat := h.readHeat.modify p (· + HEAT_ADD), glowHot := addHot p h.glowHot }

/-- `bump(p, 'prog')` -/
def bumpProg (p : Nat) (h : HeatPlayer) : HeatPlayer :=
  { h with progHeat := h.progHeat.modify p (· + HEAT_ADD), glowHot := addHot p h.glowHot }

/-- `progPage`: the bytes of the range that fall on page `p` are added to its fill, capped at
the page size and stored in 16 bits. -/
def progPage (p off len : Nat) (h : HeatPlayer) : HeatPlayer :=
  let ps := p * h.geometry.pageSize
  let pe := ps + h.geometry.pageSize
  let fill (s : Nat) := (min h.geometry.pageSize (s + (min pe (off + len) - max ps off))) % 65536
  bumpProg p { h with shown := h.shown.modify p fill }

def eraseSector (sector : Nat) (h : HeatPlayer) : HeatPlayer :=
  let base := sector * pagesPerSector h.geometry
  let wipe (sh : List Nat) (k : Nat) := sh.set (base + k) 0
  { h with shown := (List.range (pagesPerSector h.geometry)).foldl wipe h.shown }

def reset (now : ℚ) (h : HeatPlayer) : HeatPlayer := createHeatPlayer h.geometry now

/-- The pages a byte range touches, `pageOf off` first. -/
def pagesOf (h : HeatPlayer) (off len : Nat) : List Nat :=
  List.range' (h.pageOf off) (Device.spanCount h.geometry.pageSize off len)

/-- `applyEvent`: one device event at once. -/
def applyEvent (now : ℚ) (ev : DevEvent) (h : HeatPlayer) : HeatPlayer :=
  match ev with
  | .reset => h.reset now
  | .erase sector _ _ _ => h.eraseSector sector
  | .prog off len _ => (h.pagesOf off len).foldl (fun h p => h.progPage p off len) h
  | .read off len _ => (h.pagesOf off len).foldl (fun h p => h.bumpRead p) h

/-- `stepsFor`: a read or program over `n` pages becomes `n` steps of `ns / n` each; an erase
stays one step. -/
def stepsFor (ev : DevEvent) (h : HeatPlayer) : List PStep :=
  match ev with
  | .reset => []
  | .erase sector _ _ ns => [.erase ns sector]
  | .prog off len ns =>
    let pages := h.pagesOf off len
    pages.map fun p => .prog (ns / pages.length) p off len
  | .read off len ns =>
    let pages := h.pagesOf off len
    pages.map fun p => .read (ns / pages.length) p

/-- `applyStep` -/
def applyStep (now : ℚ) (ps : PStep) (h : HeatPlayer) : HeatPlayer :=
  match ps with
  | .prog _ page off len => h.progPage page off len
  | .read _ page => h.bumpRead page
  | .erase _ sector => h.eraseSector sector
  | .whole ev => h.applyEvent now ev

/-- `clamp(HEAT_HALF_MS * HEAT_SCALE_REF / scale, HEAT_HALF_MIN, HEAT_HALF_MAX)`; the quotient is
`Infinity` at scale `0`. -/
def halfLife (scale : ℚ) : ℚ :=
  if scale = 0 then HEAT_HALF_MAX
  else max HEAT_HALF_MIN (min HEAT_HALF_MAX (HEAT_HALF_MS * HEAT_SCALE_REF / scale))

/-- Decay of one hot cell; a cell below `HEAT_EPS` goes cold. -/
def decayCell (k : ℚ) (p : Nat) (h : HeatPlayer) : HeatPlayer :=
  let r := (h.readHeat[p]?.getD 0) * k
  let g := (h.progHeat[p]?.getD 0) * k
  if r + g < HEAT_EPS then
    { h with readHeat := h.readHeat.set p 0, progHeat := h.progHeat.set p 0
             glowHot := h.glowHot.filter (· ≠ p) }
  else { h with readHeat := h.readHeat.set p r, progHeat := h.progHeat.set p g }

/-- `snapshotHeat`: decay since the last snapshot; the two heat arrays are then read off. -/
def snapshotHeat (pow : ℚ → ℚ) (now scale : ℚ) (h : HeatPlayer) : HeatPlayer :=
  let dt := max 0 (now - h.lastDecayAt)
  let h := { h with lastDecayAt := now }
  if 0 < dt ∧ h.glowHot ≠ [] then
    h.glowHot.foldl (fun h p => h.decayCell (pow (dt / halfLife scale)) p) h
  else h

end HeatPlayer

end FlashVis
