import FlashVis.Fat.WearLevel
import FlashVis.Model.Chip
import FlashVis.Lib.Gap

/-!
# Where the wear-levelling layer puts a sector

* `WlFlash.layout`      what no call of a configured layer changes, `plan` what `init` leaves alone;
* `WlFlash.Laid`        a layout of `n` logical sectors whose state areas lie behind the data;
* `WlFlash.Placed`      a laid-out layer whose counters are those of a rotating gap;
* `calcAddr_place`      the address map is the gap's `place`.
-/

namespace FlashVis
namespace WlFlash

/-- What the calls of a configured layer leave alone. -/
def layout (w : WlFlash) : WlFlash :=
  { w with
    state := { wlPartMaxSecPos := w.state.wlPartMaxSecPos }
    tempBuff := List.replicate w.tempBuff.length 0
    partition := { w.partition with hal := { dev := createNorDevice w.partition.hal.dev.geometry } } }

/-- What `init` leaves alone as well. -/
def plan (w : WlFlash) : WlFlash := { w.layout with initialized := false, state := {} }

/-- The chip. -/
def dev (w : WlFlash) : Device := w.partition.hal.dev

/-- The sector size. -/
def ss (w : WlFlash) : Nat := w.cfg.flashSectorSize.toNat

/-- The chip holds `n` logical sectors and a spare one, and behind them two state copies and the
configuration. -/
structure Laid (n : Nat) (w : WlFlash) : Prop where
  configured : w.configured = true
  start : w.cfg.wlPartitionStartAddr = 0
  startAddr : w.partition.startAddr = 0
  page : w.cfg.wlPageSize = w.cfg.flashSectorSize
  sectorSize : w.partition.sectorSize = w.cfg.flashSectorSize
  chip : w.dev.geometry.sectorSize = w.ss
  temp : w.cfg.wlTempBuffSize = 32
  record : w.cfg.wlPosUpdateRecordSize = 16
  buffer : w.tempBuff.length = 32
  whole : 32 ∣ w.ss
  ss_pos : 0 < w.ss
  pos : 0 < n
  room : w.flashSize.toNat = n * w.ss
  half : n * w.ss < 2 ^ 31
  below : (n + 1) * w.ss ≤ w.addrState1.toNat
  second : w.addrState2.toNat = w.addrState1.toNat + w.stateSize.toNat
  third : w.addrCfg.toNat = w.addrState2.toNat + w.stateSize.toNat
  ends : w.addrCfg.toNat + w.cfgSize.toNat < 2 ^ 32
  holds : w.addrCfg.toNat + w.cfgSize.toNat ≤ w.ss * w.dev.geometry.sectorCount
  records : 64 + 16 * (n + 1) ≤ w.stateSize.toNat
  config : 48 ≤ w.cfgSize.toNat

/-- A laid-out layer whose dummy sector and lap count are those of `g`. -/
structure Placed {n : Nat} (g : Gap n) (w : WlFlash) : Prop extends Laid n w where
  partMax : w.state.wlPartMaxSecPos.toNat = n + 1
  dummy : w.state.wlDummySecPos.toNat = g.hole
  moves : w.state.wlDummySecMoveCount.toNat = g.laps

section
variable {n : Nat} {g : Gap n} {w w' : WlFlash}

theorem plan_of_layout (h : w'.layout = w.layout) : w'.plan = w.plan :=
  congrArg (fun v : WlFlash => { v with initialized := false, state := {} }) h

theorem Laid.of_plan (hw : Laid n w) (h : w'.plan = w.plan) : Laid n w' := by
  have hcfg : w'.cfg = w.cfg := congrArg (·.cfg) h
  have hpart : w'.partition.startAddr = w.partition.startAddr := congrArg (·.partition.startAddr) h
  have hsec : w'.partition.sectorSize = w.partition.sectorSize :=
    congrArg (·.partition.sectorSize) h
  have hgeo : w'.dev.geometry = w.dev.geometry := congrArg (·.partition.hal.dev.geometry) h
  have htemp : w'.tempBuff.length = w.tempBuff.length := by
    simpa [plan, layout] using congrArg (·.tempBuff.length) h
  have hss : w'.ss = w.ss := congrArg (·.cfg.flashSectorSize.toNat) h
  have hconf : w'.configured = w.configured := congrArg (·.configured) h
  have hroom : w'.flashSize = w.flashSize := congrArg (·.flashSize) h
  have h1 : w'.addrState1 = w.addrState1 := congrArg (·.addrState1) h
  have h2 : w'.addrState2 = w.addrState2 := congrArg (·.addrState2) h
  have h3 : w'.addrCfg = w.addrCfg := congrArg (·.addrCfg) h
  have h4 : w'.stateSize = w.stateSize := congrArg (·.stateSize) h
  have h5 : w'.cfgSize = w.cfgSize := congrArg (·.cfgSize) h
  exact {
    configured := by rw [hconf]; exact hw.configured
    start := by rw [hcfg]; exact hw.start
    startAddr := by rw [hpart]; exact hw.startAddr
    page := by rw [hcfg]; exact hw.page
    sectorSize := by rw [hsec, hcfg]; exact hw.sectorSize
    chip := by rw [hgeo, hss]; exact hw.chip
    temp := by rw [hcfg]; exact hw.temp
    record := by rw [hcfg]; exact hw.record
    buffer := by rw [htemp]; exact hw.buffer
    whole := by rw [hss]; exact hw.whole
    ss_pos := by rw [hss]; exact hw.ss_pos
    pos := hw.pos
    room := by rw [hroom, hss]; exact hw.room
    half := by rw [hss]; exact hw.half
    below := by rw [h1, hss]; exact hw.below
    second := by rw [h1, h2, h4]; exact hw.second
    third := by rw [h2, h3, h4]; exact hw.third
    ends := by rw [h3, h5]; exact hw.ends
    holds := by rw [h3, h5, hss, hgeo]; exact hw.holds
    records := by rw [h4]; exact hw.records
    config := by rw [h5]; exact hw.config }

theorem Laid.of_layout (hw : Laid n w) (h : w'.layout = w.layout) : Laid n w' :=
  hw.of_plan (plan_of_layout h)

theorem Laid.mul_lt (hw : Laid n w) {k : Nat} (hk : k ≤ n) : k * w.ss + w.ss < 2 ^ 32 := by
  have h1 : (n + 1) * w.ss ≤ w.addrState1.toNat := hw.below
  have h2 := hw.second
  have h3 := hw.third
  have h4 := hw.ends
  have h5 : (k + 1) * w.ss ≤ (n + 1) * w.ss := Nat.mul_le_mul_right _ (by omega)
  rw [Nat.succ_mul] at h5
  omega

theorem mul_toNat {a b : UInt32} {x y : Nat} (ha : a.toNat = x) (hb : b.toNat = y)
    (h : x * y < 2 ^ 32) : (a * b).toNat = x * y := by
  rw [UInt32.toNat_mul, ha, hb, Nat.mod_eq_of_lt h]

theorem add_toNat {a b : UInt32} {x y : Nat} (ha : a.toNat = x) (hb : b.toNat = y)
    (h : x + y < 2 ^ 32) : (a + b).toNat = x + y := by
  rw [UInt32.toNat_add, ha, hb, Nat.mod_eq_of_lt h]

theorem sub_toNat {a b : UInt32} {x y : Nat} (ha : a.toNat = x) (hb : b.toNat = y) (h : y ≤ x) :
    (a - b).toNat = x - y := by
  rw [UInt32.toNat_sub_of_le _ _ (by rw [UInt32.le_iff_toNat_le]; omega), ha, hb]

/-- **The address map is the gap's.** -/
theorem calcAddr_place (hw : Placed g w) {k : Nat} (hk : k < n) {addr : UInt32}
    (ha : addr.toNat = k * w.ss) : (w.calcAddr addr).toNat = g.place k * w.ss := by
  have hl := g.laps_lt
  have hh := g.hole_le
  have hss := hw.ss_pos
  have hhalf := hw.half
  have hpage : w.cfg.wlPageSize.toNat = w.ss := by rw [hw.page]; rfl
  have hlaps : g.laps * w.ss ≤ n * w.ss := Nat.mul_le_mul_right _ (Nat.le_of_lt hl)
  have hks : k * w.ss ≤ n * w.ss := Nat.mul_le_mul_right _ (Nat.le_of_lt hk)
  have hmove : (w.state.wlDummySecMoveCount * w.cfg.wlPageSize).toNat = g.laps * w.ss :=
    mul_toNat hw.moves hpage (by omega)
  have hdummy : (w.state.wlDummySecPos * w.cfg.wlPageSize).toNat = g.hole * w.ss :=
    mul_toNat hw.dummy hpage (by have := hw.mul_lt hh; omega)
  -- the rank of the sector, in bytes
  have hrank : ((w.flashSize - w.state.wlDummySecMoveCount * w.cfg.wlPageSize + addr) %
      w.flashSize).toNat = g.rank k * w.ss := by
    rw [UInt32.toNat_mod, hw.room, add_toNat (sub_toNat hw.room hmove hlaps) ha (by omega),
      ← Nat.sub_mul, ← Nat.add_mul, Nat.mul_mod_mul_right]
    rfl
  have hlt : g.rank k * w.ss < g.hole * w.ss ↔ g.rank k < g.hole := Nat.mul_lt_mul_right hss
  have hr := g.rank_lt k
  unfold calcAddr Gap.place
  dsimp only
  simp only [UInt32.lt_iff_toNat_lt, hrank, hdummy, hlt]
  split
  · exact hrank
  · have hfit := hw.mul_lt (Nat.le_of_lt hr)
    rw [add_toNat hrank hpage hfit, Nat.succ_mul]

end
end WlFlash
end FlashVis
