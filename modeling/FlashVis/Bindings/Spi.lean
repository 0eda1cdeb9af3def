import FlashVis.Model.Chip

/-!
# The fake SPI chip under JesFS (bindings/jesfs/jesfs_ll.c)

`JesfsLl` is the decoder's static state, `Spi.call` one call of the SPI layer over the emulated
chip.  A `Transaction` is what JesFS emits between a select and a deselect, its data phase cut into
chunks; `Nor` is a NOR chip that knows transactions only.

* `Spi.reads_data`, `Spi.writes_page`   a data phase in any chunks;
* `Spi.transact_decodes`      one transaction, whatever the decoder's state before it;
* `Spi.run_transactions`      a sequence of them.
-/

namespace FlashVis

def CMD_DEEPPOWERDOWN : UInt8 := 0xB9
def CMD_RELEASEDPD : UInt8 := 0xAB
def CMD_RDID : UInt8 := 0x9F
def CMD_WRITEENABLE : UInt8 := 0x06
def CMD_STATUSREG : UInt8 := 0x05
def CMD_READDATA : UInt8 := 0x03
def CMD_BULKERASE : UInt8 := 0xC7
def CMD_PAGEWRITE : UInt8 := 0x02
def CMD_SECTOR4K_ERASE : UInt8 := 0x20

/-- The bytes of `MACRONIX_MANU_TYP_RX`. -/
def MANU_TYP_RX : List UInt8 := [0xC2, 0x28]

/-- The physical erase unit. -/
def SF_SECTOR_PH : Nat := 4096

/-- The transfer sub-state after an opcode. -/
inductive LlState where
  | idle | pageWrite | rdid | status | readData
  deriving DecidableEq, Repr

/-- `jesfs_ll_t` -/
structure JesfsLl where
  addr : Nat
  selected : Bool
  state : LlState
  status : UInt8
  powerdown : Bool
  deriving DecidableEq, Repr

/-- `sflash_spi_init` -/
def sflashSpiInit : JesfsLl := ⟨0xffffffff, false, .idle, 0, false⟩

/-- A call of the SPI layer. A read comes with the buffer that it fills. -/
inductive SpiCall where
  | select | deselect
  | read (buf : List UInt8)
  | write (buf : List UInt8)
  deriving DecidableEq, Repr

/-- The decoder over the emulated chip. -/
structure Spi where
  ll : JesfsLl
  device : Device

/-- The shim's `g_quiet` and `g_density`. -/
structure SpiEnv where
  quiet : Bool
  density : UInt8

/-- The copy of a read into the caller's buffer: bytes past the chip leave it as it is. -/
def Device.copyOut (off : Nat) (buf : List UInt8) (d : Device) : List UInt8 :=
  buf.mapIdx fun i old =>
    if off + i < d.geometry.sectorSize * d.geometry.sectorCount then d.flash (off + i) else old

/-- A 24-bit address after an opcode. -/
def latch (buf : List UInt8) : Nat :=
  (buf.getD 1 0).toNat * 65536 + (buf.getD 2 0).toNat * 256 + (buf.getD 3 0).toNat

namespace Spi

def fill (buf : List UInt8) : List UInt8 := buf.map fun _ => 0xff

/-- `sflash_spi_read` -/
def read (e : SpiEnv) (buf : List UInt8) (s : Spi) : List UInt8 × Spi :=
  if !s.ll.selected then (fill buf, s)
  else
    match s.ll.state with
    | .idle | .pageWrite => (fill buf, s)
    | .rdid =>
      (if 3 ≤ buf.length then MANU_TYP_RX ++ e.density :: buf.drop 3 else buf,
        { s with ll := { s.ll with state := .idle } })
    | .status => (buf.set 0 s.ll.status, { s with ll := { s.ll with status := s.ll.status &&& ~~~1 } })
    | .readData =>
      let op := if e.quiet then HalOp.readQuiet s.ll.addr buf.length else .read s.ll.addr buf.length
      (s.device.copyOut s.ll.addr buf,
        { ll := { s.ll with addr := (s.ll.addr + buf.length) % 4294967296 }
          device := (s.device.hal op).1 })

/-- An opcode with its address bytes. -/
def command (e : SpiEnv) (buf : List UInt8) (s : Spi) : Spi :=
  let op := buf.getD 0 0
  if op = CMD_DEEPPOWERDOWN then { s with ll := { s.ll with powerdown := true } }
  else if op = CMD_RELEASEDPD then { s with ll := { s.ll with powerdown := false } }
  else if op = CMD_RDID then { s with ll := { s.ll with state := .rdid } }
  else if op = CMD_WRITEENABLE then { s with ll := { s.ll with status := s.ll.status ||| 2 } }
  else if op = CMD_STATUSREG then { s with ll := { s.ll with state := .status } }
  else if op = CMD_READDATA then
    if 4 ≤ buf.length then { s with ll := { s.ll with addr := latch buf, state := .readData } } else s
  else if op = CMD_PAGEWRITE then
    if 4 ≤ buf.length then { s with ll := { s.ll with addr := latch buf, state := .pageWrite } } else s
  else if op = CMD_SECTOR4K_ERASE then
    if 4 ≤ buf.length then
      { ll := { s.ll with addr := latch buf, status := s.ll.status &&& ~~~2 }
        device := (s.device.hal (.erase (latch buf) SF_SECTOR_PH)).1 }
    else s
  else if op = CMD_BULKERASE then
    { ll := { s.ll with status := s.ll.status &&& ~~~2 }
      device := (s.device.hal (.erase 0 (2 ^ e.density.toNat % 4294967296))).1 }
  else s

/-- `sflash_spi_write`: an opcode, or a chunk of a page program. A chunk that would leave its
256-byte page is dropped. -/
def write (e : SpiEnv) (buf : List UInt8) (s : Spi) : Spi :=
  if !s.ll.selected || buf.isEmpty then s
  else
    match s.ll.state with
    | .idle => s.command e buf
    | .pageWrite =>
      if 256 - s.ll.addr % 256 < buf.length then s
      else
        { ll := { s.ll with addr := (s.ll.addr + buf.length) % 4294967296
                            status := s.ll.status &&& ~~~2 }
          device := (s.device.hal (.prog s.ll.addr buf)).1 }
    | _ => s

/-- One call: what it puts into the caller's buffer, and the layer afterwards. -/
def call (e : SpiEnv) (s : Spi) : SpiCall → List UInt8 × Spi
  | .select => ([], { s with ll := { s.ll with selected := true, state := .idle } })
  | .deselect => ([], { s with ll := { s.ll with selected := false } })
  | .read buf => s.read e buf
  | .write buf => ([], s.write e buf)

/-- Calls in order, and all the bytes read. -/
def calls (e : SpiEnv) : Spi → List SpiCall → List UInt8 × Spi
  | s, [] => ([], s)
  | s, c :: cs =>
    let (out, s) := s.call e c
    let (outs, s) := calls e s cs
    (out ++ outs, s)

end Spi

/-- What JesFS emits between a select and a deselect; a data phase comes in chunks. -/
inductive Transaction where
  | deepPowerDown | releaseDpd | writeEnable
  | rdid (bufs : List (List UInt8))
  | status (bufs : List (List UInt8))
  | readData (addr : Nat) (bufs : List (List UInt8))
  | pageWrite (addr : Nat) (chunks : List (List UInt8))
  | erase4k (addr : Nat)
  | bulkErase
  deriving DecidableEq, Repr

/-- An opcode with a 24-bit address. -/
def header (op : UInt8) (addr : Nat) : List UInt8 :=
  [op, UInt8.ofNat (addr / 65536), UInt8.ofNat (addr / 256), UInt8.ofNat addr]

namespace Transaction

/-- The command phase and the data phase. -/
def body : Transaction → List SpiCall
  | .deepPowerDown => [.write [CMD_DEEPPOWERDOWN]]
  | .releaseDpd => [.write [CMD_RELEASEDPD]]
  | .writeEnable => [.write [CMD_WRITEENABLE]]
  | .rdid bufs => .write [CMD_RDID] :: bufs.map .read
  | .status bufs => .write [CMD_STATUSREG] :: bufs.map .read
  | .readData addr bufs => .write (header CMD_READDATA addr) :: bufs.map .read
  | .pageWrite addr chunks => .write (header CMD_PAGEWRITE addr) :: chunks.map .write
  | .erase4k addr => [.write (header CMD_SECTOR4K_ERASE addr)]
  | .bulkErase => [.write [CMD_BULKERASE]]

def calls (t : Transaction) : List SpiCall := .select :: t.body ++ [.deselect]

/-- The bytes of a data phase. -/
def readLen : Transaction → Nat
  | .readData _ bufs => bufs.flatten.length
  | _ => 0

def progLen : Transaction → Nat
  | .pageWrite _ chunks => chunks.flatten.length
  | _ => 0

/-- An address that a command can carry, inside a chip of `size` bytes. -/
def Fits (size addr : Nat) : Prop := addr < size ∧ addr < 16777216

/-- Addresses inside the chip, a program inside its 256-byte page, an erase of whole sectors at a
multiple of 4096, and a bulk erase on a chip of the size that its density byte says. -/
def WellFormed (sector size : Nat) (density : UInt8) : Transaction → Prop
  | .readData addr bufs => Fits size addr ∧ addr + bufs.flatten.length ≤ size
  | .pageWrite addr chunks => Fits size addr ∧ addr + chunks.flatten.length ≤ size ∧
      addr % 256 + chunks.flatten.length ≤ 256
  | .erase4k addr => Fits size addr ∧ SF_SECTOR_PH ∣ addr ∧ sector ∣ SF_SECTOR_PH
  | .bulkErase => 2 ^ density.toNat = size
  | _ => True

end Transaction

/-- A NOR chip behind its status register. -/
structure Nor where
  flash : Flash
  status : UInt8

namespace Nor

/-- Reads of the status register: WIP clears itself. -/
def statusReads : UInt8 → List (List UInt8) → List UInt8
  | _, [] => []
  | st, buf :: bufs => buf.set 0 st ++ statusReads (st &&& ~~~1) bufs

/-- Reads of the identification: the first read gets it if it has room, the others get `0xff`. -/
def idReads (density : UInt8) : List (List UInt8) → List UInt8
  | [] => []
  | buf :: bufs =>
    (if 3 ≤ buf.length then MANU_TYP_RX ++ density :: buf.drop 3 else buf) ++
      (bufs.map Spi.fill).flatten

/-- A transaction on the chip: the bytes read, and the chip afterwards. -/
def transact (density : UInt8) (c : Nor) : Transaction → List UInt8 × Nor
  | .deepPowerDown | .releaseDpd => ([], c)
  | .writeEnable => ([], { c with status := c.status ||| 2 })
  | .rdid bufs => (idReads density bufs, c)
  | .status bufs =>
    (statusReads c.status bufs, if bufs = [] then c else { c with status := c.status &&& ~~~1 })
  | .readData addr bufs => ((List.range bufs.flatten.length).map fun i => c.flash (addr + i), c)
  | .pageWrite addr chunks =>
    let data := chunks.flatten
    ([], { flash := fun a => if addr ≤ a then
              match data[a - addr]? with
              | some b => c.flash a &&& b
              | none => c.flash a
            else c.flash a
           status := if data = [] then c.status else c.status &&& ~~~2 })
  | .erase4k addr =>
    ([], { flash := fun a => if addr ≤ a ∧ a < addr + SF_SECTOR_PH then 0xff else c.flash a
           status := c.status &&& ~~~2 })
  | .bulkErase =>
    ([], { flash := fun a => if a < 2 ^ density.toNat then 0xff else c.flash a
           status := c.status &&& ~~~2 })

/-- Transactions in order. -/
def run (density : UInt8) : Nor → List Transaction → List (List UInt8) × Nor
  | c, [] => ([], c)
  | c, t :: ts =>
    let (out, c) := c.transact density t
    let (outs, c) := run density c ts
    (out :: outs, c)

end Nor

namespace Spi

/-- One transaction through the SPI layer. -/
def transact (e : SpiEnv) (s : Spi) (t : Transaction) : List UInt8 × Spi := s.calls e t.calls

def run (e : SpiEnv) : Spi → List Transaction → List (List UInt8) × Spi
  | s, [] => ([], s)
  | s, t :: ts =>
    let (out, s) := s.transact e t
    let (outs, s) := run e s ts
    (out :: outs, s)

/-- The chip that the layer stands for: the flash and the status bits. -/
def nor (s : Spi) : Nor := ⟨s.device.flash, s.ll.status⟩

end Spi

namespace Spi
variable {e : SpiEnv} {s : Spi}

/-- The size of the chip. -/
def size (s : Spi) : Nat := s.device.geometry.sectorSize * s.device.geometry.sectorCount

theorem calls_append (s : Spi) (cs cs' : List SpiCall) : s.calls e (cs ++ cs') =
    ((s.calls e cs).1 ++ ((s.calls e cs).2.calls e cs').1, ((s.calls e cs).2.calls e cs').2) := by
  induction cs generalizing s with
  | nil => rfl
  | cons c cs ih =>
    simp only [List.cons_append, calls, ih, List.append_assoc]

theorem latch_header (op : UInt8) {addr : Nat} (haddr : addr < 16777216) :
    latch (header op addr) = addr := by
  show (UInt8.ofNat (addr / 65536)).toNat * 65536 + (UInt8.ofNat (addr / 256)).toNat * 256 +
    (UInt8.ofNat addr).toNat = addr
  simp only [UInt8.toNat_ofNat']
  omega

/-- What calls leave of the chip behind the decoder. -/
structure Keeps (s s' : Spi) (reads progs : Nat) : Prop where
  geometry : s'.device.geometry = s.device.geometry
  readBytes : s'.device.stats.readBytes = s.device.stats.readBytes + reads
  progBytes : s'.device.stats.programBytes = s.device.stats.programBytes + progs

theorem Keeps.refl (s : Spi) : Keeps s s 0 0 := ⟨rfl, rfl, rfl⟩

theorem Keeps.trans {s' s'' : Spi} {r p r' p' : Nat} (a : Keeps s s' r p) (b : Keeps s' s'' r' p') :
    Keeps s s'' (r + r') (p + p') where
  geometry := b.geometry.trans a.geometry
  readBytes := by rw [b.readBytes, a.readBytes, Nat.add_assoc]
  progBytes := by rw [b.progBytes, a.progBytes, Nat.add_assoc]

theorem copyOut_inside {d : Device} {off : Nat} {buf : List UInt8}
    (hin : off + buf.length ≤ d.geometry.sectorSize * d.geometry.sectorCount) :
    d.copyOut off buf = (List.range buf.length).map fun i => d.flash (off + i) := by
  refine List.ext_getElem (by simp [Device.copyOut]) fun i h₁ h₂ => ?_
  have hi : i < buf.length := by simpa [Device.copyOut] using h₁
  simp [Device.copyOut, show off + i < d.geometry.sectorSize * d.geometry.sectorCount by omega]

theorem read_data (buf : List UInt8) (hsel : s.ll.selected = true) (hst : s.ll.state = .readData)
    (hsize : s.size < 4294967296) (hin : s.ll.addr + buf.length ≤ s.size) :
    (s.read e buf).1 = (List.range buf.length).map (fun i => s.device.flash (s.ll.addr + i)) ∧
      (s.read e buf).2.ll = { s.ll with addr := s.ll.addr + buf.length } ∧
      (s.read e buf).2.device.flash = s.device.flash ∧
      Keeps s (s.read e buf).2 (if e.quiet then 0 else buf.length) 0 := by
  have haddr : (s.ll.addr + buf.length) % 4294967296 = s.ll.addr + buf.length :=
    Nat.mod_eq_of_lt (by omega)
  unfold read
  rw [hsel, hst]
  simp only [Bool.not_true, Bool.false_eq_true, if_false, haddr]
  refine ⟨copyOut_inside hin, trivial, ?_, ?_⟩
  · cases e.quiet <;> rfl
  · cases e.quiet <;> exact ⟨rfl, rfl, rfl⟩

theorem reads_data (bufs : List (List UInt8)) (hsel : s.ll.selected = true)
    (hst : s.ll.state = .readData) (hsize : s.size < 4294967296)
    (hin : s.ll.addr + bufs.flatten.length ≤ s.size) :
    (s.calls e (bufs.map .read)).1 =
        (List.range bufs.flatten.length).map (fun i => s.device.flash (s.ll.addr + i)) ∧
      (s.calls e (bufs.map .read)).2.nor = s.nor ∧
      Keeps s (s.calls e (bufs.map .read)).2 (if e.quiet then 0 else bufs.flatten.length) 0 := by
  induction bufs generalizing s with
  | nil => exact ⟨rfl, rfl, ⟨rfl, by simp [calls], rfl⟩⟩
  | cons buf bufs ih =>
    rw [List.flatten_cons, List.length_append] at hin ⊢
    obtain ⟨hout, hll, hflash, hkeeps⟩ := read_data (e := e) buf hsel hst hsize (by omega)
    have hsize' : (s.read e buf).2.size = s.size := by
      unfold size
      rw [hkeeps.geometry]
    have haddr : (s.read e buf).2.ll.addr = s.ll.addr + buf.length := by rw [hll]
    obtain ⟨houts, hnor, hrest⟩ := ih (s := (s.read e buf).2) (by rw [hll]; exact hsel)
      (by rw [hll]; exact hst) (hsize'.symm ▸ hsize) (by rw [hsize', haddr]; omega)
    show (s.read e buf).1 ++ ((s.read e buf).2.calls e (bufs.map .read)).1 = _ ∧
      ((s.read e buf).2.calls e (bufs.map .read)).2.nor = _ ∧
      Keeps s ((s.read e buf).2.calls e (bufs.map .read)).2 _ _
    refine ⟨?_, ?_, ?_⟩
    · rw [hout, houts, hflash, haddr, List.range_add, List.map_append, List.map_map]
      simp only [Function.comp_def, Nat.add_assoc]
    · rw [hnor, nor, nor, hflash, hll]
    · have hboth := hkeeps.trans hrest
      cases hquiet : e.quiet <;> simpa [hquiet] using hboth

/-- One chunk of a page program. -/
theorem write_page (buf : List UInt8) (hsel : s.ll.selected = true) (hst : s.ll.state = .pageWrite)
    (hsize : s.size < 4294967296) (hin : s.ll.addr + buf.length ≤ s.size)
    (hpage : s.ll.addr % 256 + buf.length ≤ 256) :
    (s.write e buf).ll = { s.ll with
        addr := s.ll.addr + buf.length
        status := if buf = [] then s.ll.status else s.ll.status &&& ~~~2 } ∧
      (∀ a, (s.write e buf).device.flash a = if s.ll.addr ≤ a then
          match buf[a - s.ll.addr]? with
          | some b => s.device.flash a &&& b
          | none => s.device.flash a
        else s.device.flash a) ∧
      Keeps s (s.write e buf) 0 buf.length := by
  unfold write
  cases buf with
  | nil => simp [Keeps.refl]
  | cons b buf =>
    have haddr : (s.ll.addr + (b :: buf).length) % 4294967296 = s.ll.addr + (b :: buf).length :=
      Nat.mod_eq_of_lt (by omega)
    have hfits : ¬256 - s.ll.addr % 256 < (b :: buf).length := by omega
    rw [hsel, hst]
    simp only [Bool.not_true, List.isEmpty_cons, Bool.or_self, Bool.false_eq_true, if_false, haddr,
      hfits]
    refine ⟨by simp, fun a => ?_, ⟨rfl, rfl, rfl⟩⟩
    show (match (b :: buf)[a - s.ll.addr]? with
      | some b => if s.ll.addr ≤ a ∧ a < s.size then s.device.flash a &&& b else s.device.flash a
      | none => s.device.flash a) = _
    by_cases ha : s.ll.addr ≤ a
    · rw [if_pos ha]
      cases hget : (b :: buf)[a - s.ll.addr]? with
      | none => rfl
      | some b' =>
        obtain ⟨hlt, -⟩ := List.getElem?_eq_some_iff.mp hget
        exact if_pos ⟨ha, by omega⟩
    · rw [if_neg ha]
      cases (b :: buf)[a - s.ll.addr]? with
      | none => rfl
      | some b' => exact if_neg fun h => ha h.1

/-- A data phase of a page program: one program of all its bytes. -/
theorem writes_page (chunks : List (List UInt8)) (hsel : s.ll.selected = true)
    (hst : s.ll.state = .pageWrite) (hsize : s.size < 4294967296)
    (hin : s.ll.addr + chunks.flatten.length ≤ s.size)
    (hpage : s.ll.addr % 256 + chunks.flatten.length ≤ 256) :
    (s.calls e (chunks.map .write)).1 = [] ∧
      (s.calls e (chunks.map .write)).2.ll.status =
        (if chunks.flatten = [] then s.ll.status else s.ll.status &&& ~~~2) ∧
      (∀ a, (s.calls e (chunks.map .write)).2.device.flash a = if s.ll.addr ≤ a then
          match chunks.flatten[a - s.ll.addr]? with
          | some b => s.device.flash a &&& b
          | none => s.device.flash a
        else s.device.flash a) ∧
      Keeps s (s.calls e (chunks.map .write)).2 0 chunks.flatten.length := by
  induction chunks generalizing s with
  | nil => exact ⟨rfl, rfl, fun a => by simp [calls], Keeps.refl s⟩
  | cons buf chunks ih =>
    rw [List.flatten_cons, List.length_append] at hin hpage
    obtain ⟨hll, hflash, hkeeps⟩ := write_page (e := e) buf hsel hst hsize (by omega) (by omega)
    have hsize' : (s.write e buf).size = s.size := by
      unfold size
      rw [hkeeps.geometry]
    have haddr : (s.write e buf).ll.addr = s.ll.addr + buf.length := by rw [hll]
    obtain ⟨hout, hstatus, hflashes, hrest⟩ := ih (s := s.write e buf) (by rw [hll]; exact hsel)
      (by rw [hll]; exact hst) (hsize'.symm ▸ hsize) (by rw [hsize', haddr]; omega)
      (by rw [haddr]; omega)
    show ((s.write e buf).calls e (chunks.map .write)).1 = _ ∧
      ((s.write e buf).calls e (chunks.map .write)).2.ll.status = _ ∧
      (∀ a, ((s.write e buf).calls e (chunks.map .write)).2.device.flash a = _) ∧
      Keeps s ((s.write e buf).calls e (chunks.map .write)).2 _ _
    refine ⟨hout, ?_, fun a => ?_, ?_⟩
    · rw [hstatus, hll, List.flatten_cons]
      by_cases hb : buf = [] <;> by_cases hc : chunks.flatten = [] <;> simp [hb, hc]
      rw [UInt8.and_assoc, UInt8.and_self]
    · rw [hflashes, hflash, haddr, List.flatten_cons]
      by_cases hlow : s.ll.addr ≤ a
      · rw [if_pos hlow, if_pos hlow]
        by_cases hbuf : s.ll.addr + buf.length ≤ a
        · have hnone : buf[a - s.ll.addr]? = none := List.getElem?_eq_none (by omega)
          have hskip : a - s.ll.addr - buf.length = a - (s.ll.addr + buf.length) := by omega
          rw [if_pos hbuf, hnone, List.getElem?_append_right (by omega), hskip]
        · rw [if_neg hbuf, List.getElem?_append_left (by omega)]
      · rw [if_neg hlow, if_neg (by omega), if_neg hlow]
    · have hboth := hkeeps.trans hrest
      rwa [Nat.add_zero, ← List.length_append, ← List.flatten_cons] at hboth

theorem reads_status (bufs : List (List UInt8)) (hsel : s.ll.selected = true)
    (hst : s.ll.state = .status) :
    (s.calls e (bufs.map .read)).1 = Nor.statusReads s.ll.status bufs ∧
      (s.calls e (bufs.map .read)).2.device = s.device ∧
      (s.calls e (bufs.map .read)).2.ll.status =
        if bufs = [] then s.ll.status else s.ll.status &&& ~~~1 := by
  induction bufs generalizing s with
  | nil => exact ⟨rfl, rfl, rfl⟩
  | cons buf bufs ih =>
    have hread : s.read e buf =
        (buf.set 0 s.ll.status, { s with ll := { s.ll with status := s.ll.status &&& ~~~1 } }) := by
      unfold read
      rw [hsel, hst]
      rfl
    obtain ⟨hout, hdevice, hstatus⟩ := ih
      (s := { s with ll := { s.ll with status := s.ll.status &&& ~~~1 } }) hsel hst
    show (s.read e buf).1 ++ ((s.read e buf).2.calls e (bufs.map .read)).1 = _ ∧
      ((s.read e buf).2.calls e (bufs.map .read)).2.device = _ ∧
      ((s.read e buf).2.calls e (bufs.map .read)).2.ll.status = _
    rw [hread]
    refine ⟨congrArg (_ ++ ·) hout, hdevice, hstatus.trans ?_⟩
    rw [if_neg (List.cons_ne_nil _ _)]
    split
    · rfl
    · rw [UInt8.and_assoc, UInt8.and_self]

theorem reads_idle (bufs : List (List UInt8)) (hst : s.ll.state = .idle) :
    s.calls e (bufs.map .read) = ((bufs.map fill).flatten, s) := by
  induction bufs with
  | nil => rfl
  | cons buf bufs ih =>
    have hread : s.read e buf = (fill buf, s) := by
      unfold read
      rw [hst]
      split <;> rfl
    show ((s.read e buf).1 ++ ((s.read e buf).2.calls e (bufs.map .read)).1,
      ((s.read e buf).2.calls e (bufs.map .read)).2) = _
    rw [hread, ih]
    rfl

theorem reads_id (bufs : List (List UInt8)) (hsel : s.ll.selected = true) (hst : s.ll.state = .rdid) :
    (s.calls e (bufs.map .read)).1 = Nor.idReads e.density bufs ∧
      (s.calls e (bufs.map .read)).2.device = s.device ∧
      (s.calls e (bufs.map .read)).2.ll.status = s.ll.status := by
  cases bufs with
  | nil => exact ⟨rfl, rfl, rfl⟩
  | cons buf bufs =>
    have hread : s.read e buf = (if 3 ≤ buf.length then MANU_TYP_RX ++ e.density :: buf.drop 3 else buf,
        { s with ll := { s.ll with state := .idle } }) := by
      unfold read
      rw [hsel, hst]
      rfl
    show (s.read e buf).1 ++ ((s.read e buf).2.calls e (bufs.map .read)).1 = _ ∧
      ((s.read e buf).2.calls e (bufs.map .read)).2.device = _ ∧
      ((s.read e buf).2.calls e (bufs.map .read)).2.ll.status = _
    rw [hread, reads_idle bufs rfl]
    exact ⟨rfl, rfl, rfl⟩

/-- Erasing an aligned 4 KiB block on a chip whose sectors divide it. -/
theorem erase_4k {d : Device} (hdvd : d.geometry.sectorSize ∣ SF_SECTOR_PH) {addr : Nat}
    (hal : SF_SECTOR_PH ∣ addr) (a : Nat) : (d.erase addr SF_SECTOR_PH).1.flash a =
      if addr ≤ a ∧ a < addr + SF_SECTOR_PH then 0xff else d.flash a := by
  have hss : 0 < d.geometry.sectorSize := Nat.pos_of_dvd_of_pos hdvd (by decide)
  obtain ⟨m, hm⟩ := hdvd.trans hal
  obtain ⟨q, hq⟩ := hdvd
  have hend : addr + SF_SECTOR_PH = (m + q) * d.geometry.sectorSize := by
    rw [hm, hq]
    ring
  have hlow : addr < (a / d.geometry.sectorSize + 1) * d.geometry.sectorSize ↔ addr ≤ a := by
    rw [hm, Nat.mul_comm, Nat.mul_lt_mul_right hss, Nat.lt_succ_iff, Nat.le_div_iff_mul_le hss]
  have hhigh : a / d.geometry.sectorSize * d.geometry.sectorSize < addr + SF_SECTOR_PH ↔
      a < addr + SF_SECTOR_PH := by
    rw [hend, Nat.mul_lt_mul_right hss, Nat.div_lt_iff_lt_mul hss]
  rw [Device.erase_flash_meets hss (show 0 < SF_SECTOR_PH by decide)]
  simp only [hlow, hhigh]

theorem erase_bulk {d : Device} {n : Nat} (hn : 0 < n) (hss : 0 < d.geometry.sectorSize)
    (hsize : n = d.geometry.sectorSize * d.geometry.sectorCount) (a : Nat) :
    (d.erase 0 n).1.flash a = if a < n then 0xff else d.flash a := by
  have hhigh : a / d.geometry.sectorSize * d.geometry.sectorSize < n ↔ a < n := by
    rw [hsize, Nat.mul_comm d.geometry.sectorSize, Nat.mul_lt_mul_right hss,
      Nat.div_lt_iff_lt_mul hss]
  rw [Device.erase_flash_meets hss hn]
  simp only [Nat.zero_add, hhigh]
  have hpos : 0 < (a / d.geometry.sectorSize + 1) * d.geometry.sectorSize :=
    Nat.mul_pos (Nat.succ_pos _) hss
  simp only [hpos, true_and]

theorem eraseFrom_bytes (d : Device) (l : List Nat) :
    (d.eraseFrom l).1.stats.readBytes = d.stats.readBytes ∧
      (d.eraseFrom l).1.stats.programBytes = d.stats.programBytes := by
  induction l generalizing d with
  | nil => exact ⟨rfl, rfl⟩
  | cons s l ih => exact ih _

theorem erase_keeps {ll : JesfsLl} (off len : Nat) :
    Keeps s { ll := ll, device := (s.device.hal (.erase off len)).1 } 0 0 where
  geometry := Device.erase_geometry
  readBytes := (eraseFrom_bytes s.device _).1
  progBytes := (eraseFrom_bytes s.device _).2

/-- Opening a transaction: whatever the decoder's state, it is selected and idle. -/
def opened (s : Spi) : Spi := { s with ll := { s.ll with selected := true, state := .idle } }

/-- Closing it. -/
def closed (s : Spi) : Spi := { s with ll := { s.ll with selected := false } }

theorem nor_closed (s : Spi) : s.closed.nor = s.nor := rfl

theorem nor_mk (ll : JesfsLl) (d : Device) : ({ ll := ll, device := d } : Spi).nor = ⟨d.flash, ll.status⟩ :=
  rfl

theorem Keeps.close {s' : Spi} {r p : Nat} (h : Keeps s s' r p) : Keeps s s'.closed r p :=
  ⟨h.geometry, h.readBytes, h.progBytes⟩

/-- An opcode first: the command is decoded, and the data phase follows. -/
theorem calls_command {buf : List UInt8} (hbuf : buf.isEmpty = false) (cs : List SpiCall) :
    s.opened.calls e (.write buf :: cs) = (s.opened.command e buf).calls e cs := by
  have hwrite : s.opened.write e buf = s.opened.command e buf := by
    unfold write
    rw [hbuf]
    rfl
  show (([] : List UInt8) ++ ((s.opened.write e buf).calls e cs).1,
    ((s.opened.write e buf).calls e cs).2) = _
  rw [hwrite]
  rfl

theorem command_header {addr : Nat} (haddr : addr < 16777216) :
    s.command e (header CMD_READDATA addr) =
        { s with ll := { s.ll with addr := addr, state := .readData } } ∧
      s.command e (header CMD_PAGEWRITE addr) =
        { s with ll := { s.ll with addr := addr, state := .pageWrite } } ∧
      s.command e (header CMD_SECTOR4K_ERASE addr) =
        { ll := { s.ll with addr := addr, status := s.ll.status &&& ~~~2 }
          device := (s.device.hal (.erase addr SF_SECTOR_PH)).1 } := by
  have hop (op : UInt8) : (header op addr).getD 0 0 = op := rfl
  have hlen (op : UInt8) : 4 ≤ (header op addr).length := Nat.le_refl 4
  simp only [command, hop, hlen, latch_header _ haddr, if_true]
  exact ⟨rfl, rfl, rfl⟩

theorem opened_erase {addr : Nat} (haddr : addr < 16777216) :
    s.opened.calls e (Transaction.erase4k addr).body = ([], {
        ll := { s.opened.ll with addr := addr, status := s.ll.status &&& ~~~2 }
        device := (s.device.hal (.erase addr SF_SECTOR_PH)).1 }) := by
  show s.opened.calls e [.write (header CMD_SECTOR4K_ERASE addr)] = _
  rw [calls_command rfl, (command_header haddr).2.2]
  rfl

theorem opened_bulk : s.opened.calls e Transaction.bulkErase.body = ([], {
        ll := { s.opened.ll with status := s.ll.status &&& ~~~2 }
        device := (s.device.hal (.erase 0 (2 ^ e.density.toNat % 4294967296))).1 }) := by
  show s.opened.calls e [.write [CMD_BULKERASE]] = _
  have hop : ([CMD_BULKERASE] : List UInt8).getD 0 0 = CMD_BULKERASE := rfl
  rw [calls_command rfl]
  simp only [command, hop]
  rfl

theorem transact_eq (t : Transaction) : s.transact e t =
    ((s.opened.calls e t.body).1, (s.opened.calls e t.body).2.closed) := by
  show s.calls e (.select :: (t.body ++ [.deselect])) = _
  show (([] : List UInt8) ++ (s.opened.calls e (t.body ++ [.deselect])).1,
    (s.opened.calls e (t.body ++ [.deselect])).2) = _
  rw [calls_append]
  simp [calls, call, closed]

theorem nor_erase {addr : Nat} (density : UInt8)
    (hdvd : s.device.geometry.sectorSize ∣ SF_SECTOR_PH) (hal : SF_SECTOR_PH ∣ addr) :
    s.nor.transact density (.erase4k addr) =
      ([], ⟨(s.device.hal (.erase addr SF_SECTOR_PH)).1.flash, s.ll.status &&& ~~~2⟩) := by
  have hhal (off len : Nat) : s.device.hal (.erase off len) = s.device.erase off len := rfl
  rw [hhal, funext (erase_4k hdvd hal)]
  rfl

/-- **One transaction.** Whatever the decoder's state, a well-formed transaction is what it is on the
chip, and moves as many bytes as its data phase has. -/
theorem transact_decodes {t : Transaction} (hsize : s.size < 4294967296)
    (hwf : t.WellFormed s.device.geometry.sectorSize s.size e.density) :
    (s.transact e t).1 = (s.nor.transact e.density t).1 ∧
      (s.transact e t).2.nor = (s.nor.transact e.density t).2 ∧
      Keeps s (s.transact e t).2 (if e.quiet then 0 else t.readLen) t.progLen := by
  rw [transact_eq]
  have hzero : (if e.quiet then 0 else 0) = 0 := ite_self _
  cases t with
  | deepPowerDown | releaseDpd | writeEnable =>
    refine ⟨rfl, rfl, ?_⟩
    show Keeps s _ (if e.quiet then 0 else 0) 0
    rw [hzero]
    exact ⟨rfl, rfl, rfl⟩
  | rdid bufs =>
    obtain ⟨hout, hdevice, hstatus⟩ := reads_id (e := e)
      (s := { s with ll := { s.opened.ll with state := .rdid } }) bufs rfl rfl
    refine ⟨hout, congrArg₂ Nor.mk (congrArg Device.flash hdevice) hstatus, ?_⟩
    show Keeps s _ (if e.quiet then 0 else 0) 0
    rw [hzero]
    exact ⟨congrArg Device.geometry hdevice, congrArg (·.stats.readBytes) hdevice,
      congrArg (·.stats.programBytes) hdevice⟩
  | status bufs =>
    obtain ⟨hout, hdevice, hstatus⟩ := reads_status (e := e)
      (s := { s with ll := { s.opened.ll with state := .status } }) bufs rfl rfl
    refine ⟨hout, ?_, ?_⟩
    · refine (congrArg₂ Nor.mk (congrArg Device.flash hdevice) hstatus).trans ?_
      show _ = if bufs = [] then s.nor else _
      split <;> rfl
    · show Keeps s _ (if e.quiet then 0 else 0) 0
      rw [hzero]
      exact ⟨congrArg Device.geometry hdevice, congrArg (·.stats.readBytes) hdevice,
        congrArg (·.stats.programBytes) hdevice⟩
  | readData addr bufs =>
    obtain ⟨hlt, hin⟩ := hwf
    have hopen : s.opened.calls e (Transaction.readData addr bufs).body =
        ({ s with ll := { s.opened.ll with addr := addr, state := .readData } } : Spi).calls e
          (bufs.map .read) := by
      refine (calls_command rfl _).trans ?_
      rw [(command_header hlt.2).1]
      rfl
    obtain ⟨hout, hnor, hkeeps⟩ := reads_data (e := e)
      (s := { s with ll := { s.opened.ll with addr := addr, state := .readData } }) bufs rfl rfl hsize hin
    rw [hopen]
    exact ⟨hout, hnor, { hkeeps with }⟩
  | pageWrite addr chunks =>
    obtain ⟨hlt, hin, hpage⟩ := hwf
    have hopen : s.opened.calls e (Transaction.pageWrite addr chunks).body =
        ({ s with ll := { s.opened.ll with addr := addr, state := .pageWrite } } : Spi).calls e
          (chunks.map .write) := by
      refine (calls_command rfl _).trans ?_
      rw [(command_header hlt.2).2.1]
      rfl
    obtain ⟨hout, hstatus, hflash, hkeeps⟩ := writes_page (e := e)
      (s := { s with ll := { s.opened.ll with addr := addr, state := .pageWrite } }) chunks rfl rfl hsize
      hin hpage
    rw [hopen]
    refine ⟨hout, congrArg₂ Nor.mk (funext hflash) hstatus, ?_⟩
    show Keeps s _ (if e.quiet then 0 else 0) _
    rw [hzero]
    exact { hkeeps with }
  | erase4k addr =>
    obtain ⟨hlt, hal, hdvd⟩ := hwf
    have hopen := opened_erase (e := e) (s := s) hlt.2
    rw [hopen, nor_erase e.density hdvd hal, nor_closed, nor_mk]
    refine ⟨rfl, rfl, ?_⟩
    show Keeps s _ (if e.quiet then 0 else 0) 0
    rw [hzero]
    exact (erase_keeps addr SF_SECTOR_PH).close
  | bulkErase =>
    have hopen := opened_bulk (e := e) (s := s)
    have hdens : 2 ^ e.density.toNat = s.size := hwf
    have hmod : 2 ^ e.density.toNat % 4294967296 = 2 ^ e.density.toNat :=
      Nat.mod_eq_of_lt (by omega)
    have hss : 0 < s.device.geometry.sectorSize :=
      Nat.pos_of_mul_pos_right (hdens ▸ Nat.two_pow_pos _)
    rw [hopen, hmod]
    refine ⟨rfl, congrArg₂ Nor.mk (funext (erase_bulk (Nat.two_pow_pos _) hss hdens)) rfl, ?_⟩
    show Keeps s _ (if e.quiet then 0 else 0) 0
    rw [hzero]
    exact erase_keeps 0 _

/-- A sequence of well-formed transactions, from any state of the decoder. -/
structure Decodes (e : SpiEnv) (s : Spi) (ts : List Transaction) : Prop where
  replies : (s.run e ts).1 = (s.nor.run e.density ts).1
  chip : (s.run e ts).2.nor = (s.nor.run e.density ts).2
  bytes : Keeps s (s.run e ts).2 (if e.quiet then 0 else (ts.map (·.readLen)).sum)
    (ts.map (·.progLen)).sum

/-- A run, by induction on the transactions. -/
theorem run_decodes {ts : List Transaction} (hsize : s.size < 4294967296)
    (hwf : ∀ t ∈ ts, t.WellFormed s.device.geometry.sectorSize s.size e.density) :
    Decodes e s ts := by
  induction ts generalizing s with
  | nil =>
    refine ⟨rfl, rfl, ?_⟩
    show Keeps s s (if e.quiet then 0 else 0) 0
    rw [ite_self]
    exact Keeps.refl s
  | cons t ts ih =>
    obtain ⟨hout, hnor, hkeeps⟩ := transact_decodes hsize (hwf t List.mem_cons_self)
    have hsame : (s.transact e t).2.size = s.size := by
      unfold size
      rw [hkeeps.geometry]
    have hrest := ih (s := (s.transact e t).2) (hsame.symm ▸ hsize) fun t ht => by
      rw [hsame, hkeeps.geometry]
      exact hwf t (List.mem_cons_of_mem _ ht)
    refine ⟨?_, ?_, ?_⟩
    · show (s.transact e t).1 :: ((s.transact e t).2.run e ts).1 =
        (s.nor.transact e.density t).1 :: ((s.nor.transact e.density t).2.run e.density ts).1
      rw [hout, hrest.replies, hnor]
    · show ((s.transact e t).2.run e ts).2.nor = ((s.nor.transact e.density t).2.run e.density ts).2
      rw [hrest.chip, hnor]
    · have hboth := hkeeps.trans hrest.bytes
      show Keeps s ((s.transact e t).2.run e ts).2 _ _
      cases hquiet : e.quiet <;> simpa [hquiet] using hboth

/-- **Transactions.** The layer answers every sequence of well-formed transactions as the chip does
and moves as many bytes as the data phases have; of what came before, only the flash and the status
bits have an influence. -/
theorem run_transactions {ts : List Transaction} (hsize : s.size < 4294967296)
    (hwf : ∀ t ∈ ts, t.WellFormed s.device.geometry.sectorSize s.size e.density) :
    Decodes e s ts ∧ ∀ s' : Spi, s'.device.geometry = s.device.geometry → s'.nor = s.nor →
      (s'.run e ts).1 = (s.run e ts).1 ∧ (s'.run e ts).2.nor = (s.run e ts).2.nor := by
  have hrun := run_decodes hsize hwf
  refine ⟨hrun, fun s' hgeo hnor => ?_⟩
  have hsame : s'.size = s.size := by
    unfold size
    rw [hgeo]
  have hrun' := run_decodes (s := s') (hsame.symm ▸ hsize) (hsame.symm ▸ hgeo.symm ▸ hwf)
  rw [hrun'.replies, hrun'.chip, hrun.replies, hrun.chip, hnor]
  exact ⟨rfl, rfl⟩

instance (sector size : Nat) (density : UInt8) (t : Transaction) :
    Decidable (t.WellFormed sector size density) := by
  cases t <;> unfold Transaction.WellFormed Transaction.Fits <;> infer_instance

/-- Two sectors of 4 KiB, every byte programmed to `0`. -/
def written : Spi :=
  { ll := sflashSpiInit
    device := { createNorDevice ⟨4096, 2, 256, 1⟩ with flash := fun _ => 0 } }

/-- A page program in two chunks, a read of it in two, an erase and a look at the status. -/
theorem run_transactions_written : Decodes ⟨false, 13⟩ written
    [.writeEnable, .erase4k 4096, .pageWrite 4100 [[0x0f], [0xf0, 0x33]], .readData 4100 [[0, 0], [0]],
      .status [[0]], .rdid [[0, 0, 0]]] :=
  (run_transactions (by decide) (by decide)).1

/-- An erase at an address inside a sector blanks the next one as well. -/
theorem erase_straddles : ¬∀ (e : SpiEnv) (s : Spi) (addr : Nat),
    s.device.geometry.sectorSize ∣ SF_SECTOR_PH → s.size ≤ 16777216 → addr < s.size →
    ∀ a, (s.transact e (.erase4k addr)).2.device.flash a =
      if a / SF_SECTOR_PH = addr / SF_SECTOR_PH then 0xff else s.device.flash a := by
  intro h
  have hbyte := h ⟨false, 13⟩ written 100 (by decide) (by decide) (by decide) 5000
  exact absurd hbyte (by decide +kernel)

end Spi
end FlashVis
