import FlashVis.Model.Protocol

/-!
# The emulated NOR chip (device.js)

`Device` is the chip behind one runner: its bytes, the erase count of every sector and the
running statistics.  A filesystem module drives it through four calls (`HalOp`); every call but
`readQuiet` emits events, and `reset` (a chip wipe by the host, never by the module) emits the
event that clears the player.
-/

namespace FlashVis

/-- An event of the device's op stream. -/
inductive DevEvent where
  | reset
  | read (off len : Nat) (ns : ℚ)
  | prog (off len : Nat) (ns : ℚ)
  | erase (sector off len : Nat) (ns : ℚ)
  deriving DecidableEq, Repr

/-- `ev.ns || 0` -/
def DevEvent.ns : DevEvent → ℚ
  | .reset => 0
  | .read _ _ ns | .prog _ _ ns | .erase _ _ _ ns => ns

/-- A HAL call of the filesystem module. -/
inductive HalOp where
  | read (off len : Nat)
  | readQuiet (off len : Nat)
  | prog (off : Nat) (data : List UInt8)
  | erase (off len : Nat)
  deriving DecidableEq, Repr

/-- `ESP32S3`, the measured timing preset. -/
def readFixed : ℚ := 64522
def readPer : ℚ := 120
def progFixed : ℚ := 0
def progPer : ℚ := 5937
def eraseFixed : ℚ := 21269000
def erasePer : ℚ := 0

structure Stats where
  reads : Nat := 0
  programs : Nat := 0
  erases : Nat := 0
  readBytes : Nat := 0
  programBytes : Nat := 0
  simNs : ℚ := 0
  deriving DecidableEq, Repr

/-- The bytes of the chip by address. -/
abbrev Flash := Nat → UInt8

/-- Erased NOR reads as `0xff`. -/
def blankFlash : Flash := fun _ => 0xff

structure Device where
  geometry : Geometry
  flash : Flash
  wear : List Nat
  stats : Stats

/-- `createNorDevice` -/
def createNorDevice (g : Geometry) : Device where
  geometry := g
  flash := blankFlash
  wear := List.replicate g.sectorCount 0
  stats := {}

namespace Device

/-- `reset`: the wiped device; it emits `DevEvent.reset`. -/
def reset (d : Device) : Device := createNorDevice d.geometry

/-- `read` -/
def read (off len : Nat) (d : Device) : Device × List DevEvent :=
  let ns := readFixed + readPer * len
  ({ d with stats := { d.stats with
      reads := d.stats.reads + 1, readBytes := d.stats.readBytes + len
      simNs := d.stats.simNs + ns } }, [.read off len ns])

/-- `prog`: NOR programming can only clear bits; a write past the chip is dropped by the typed
array. -/
def prog (off : Nat) (data : List UInt8) (d : Device) : Device × List DevEvent :=
  let ns := progFixed + progPer * data.length
  let size := d.geometry.sectorSize * d.geometry.sectorCount
  ({ d with
      flash := fun a => match data[a - off]? with
        | some b => if off ≤ a ∧ a < size then d.flash a &&& b else d.flash a
        | none => d.flash a
      stats := { d.stats with
        programs := d.stats.programs + 1, programBytes := d.stats.programBytes + data.length
        simNs := d.stats.simNs + ns } }, [.prog off data.length ns])

/-- One turn of `erase`'s loop. -/
def eraseSector (s : Nat) (d : Device) : Device × DevEvent :=
  let ss := d.geometry.sectorSize
  let ns := eraseFixed + erasePer * ss
  ({ d with
      flash := fun a => if s * ss ≤ a ∧ a < (s + 1) * ss then 0xff else d.flash a
      wear := d.wear.modify s fun n => (n + 1) % 4294967296
      stats := { d.stats with
        erases := d.stats.erases + 1, simNs := d.stats.simNs + ns } }, .erase s (s * ss) ss ns)

/-- Sectors `first .. last` in order, each erased and reported. -/
def eraseFrom (d : Device) : List Nat → Device × List DevEvent
  | [] => (d, [])
  | s :: ss =>
    let (d, ev) := d.eraseSector s
    let (d, evs) := eraseFrom d ss
    (d, ev :: evs)

/-- `floor(off / unit)` up to `floor((off + len - 1) / unit)`: how many units a byte range
touches. A zero length at a unit boundary touches none. -/
def spanCount (unit off len : Nat) : Nat :=
  (((off + len : Int) - 1).fdiv unit - (off / unit : Nat) + 1).toNat

/-- `erase`: every sector that intersects `[off, off + len)`. -/
def erase (off len : Nat) (d : Device) : Device × List DevEvent :=
  let ss := d.geometry.sectorSize
  d.eraseFrom (List.range' (off / ss) (spanCount ss off len))

/-- One HAL call. -/
def hal (d : Device) : HalOp → Device × List DevEvent
  | .read off len => d.read off len
  | .readQuiet _ _ => (d, [])
  | .prog off data => d.prog off data
  | .erase off len => d.erase off len

/-- The HAL calls of one module call, in order. -/
def hals (d : Device) : List HalOp → Device × List DevEvent
  | [] => (d, [])
  | op :: ops =>
    let (d, evs) := d.hal op
    let (d, evs') := hals d ops
    (d, evs ++ evs')

theorem eraseFrom_no_reset (d : Device) (l : List Nat) : DevEvent.reset ∉ (d.eraseFrom l).2 := by
  induction l generalizing d with
  | nil => simp [eraseFrom]
  | cons s l ih => simpa [eraseFrom, eraseSector] using ih _

/-- The module never resets the chip. -/
theorem hals_no_reset (d : Device) (ops : List HalOp) : DevEvent.reset ∉ (d.hals ops).2 := by
  induction ops generalizing d with
  | nil => simp [hals]
  | cons op ops ih =>
    have hop : DevEvent.reset ∉ (d.hal op).2 := by
      cases op with
      | read off len => simp [hal, read]
      | readQuiet off len => simp [hal]
      | prog off data => simp [hal, prog]
      | erase off len => exact eraseFrom_no_reset _ _
    simp only [hals, List.mem_append, not_or]
    exact ⟨hop, ih _⟩

theorem eraseFrom_ns_nonneg (d : Device) (l : List Nat) : ∀ ev ∈ (d.eraseFrom l).2, 0 ≤ ev.ns := by
  induction l generalizing d with
  | nil => simp [eraseFrom]
  | cons s l ih =>
    intro ev hev
    rcases List.mem_cons.mp hev with rfl | hev
    · simp [DevEvent.ns, eraseFixed, erasePer]
    · exact ih _ ev hev

theorem hals_ns_nonneg (d : Device) (ops : List HalOp) : ∀ ev ∈ (d.hals ops).2, 0 ≤ ev.ns := by
  induction ops generalizing d with
  | nil => simp [hals]
  | cons op ops ih =>
    intro ev hev
    rcases List.mem_append.mp hev with hev | hev
    · cases op with
      | read off len =>
        simp only [read, List.mem_singleton] at hev
        subst hev
        simp only [DevEvent.ns, readFixed, readPer]
        positivity
      | readQuiet off len => simp at hev
      | prog off data =>
        simp only [prog, List.mem_singleton] at hev
        subst hev
        simp only [DevEvent.ns, progFixed, progPer]
        positivity
      | erase off len => exact eraseFrom_ns_nonneg _ _ ev hev
    · exact ih _ ev hev

end Device

end FlashVis
