import FlashVis.Fat.Volume
import FlashVis.Lib.Levels

/-!
# The rotation levels

* `WlFlash.Wears`    how often each physical sector has been erased;
* `turn_wears`       a turn erases the dummy sector, and at the end of a lap both state copies;
* `Turned`           a layer after so many erases, by the clock of the rotation;
* `wears_cycle`      a full cycle, written to one logical sector only;
* `even_wear`        wears all sectors of the data area alike.
-/

open Finset

namespace FlashVis

/-- The erase counter of the chip. -/
def worn (x : Nat) : Nat := (x + 1) % 4294967296

namespace Device

theorem eraseFrom_worn (d : Device) (l : List Nat) (p : Nat) :
    (d.eraseFrom l).1.wear[p]? = d.wear[p]?.map worn^[l.count p] := by
  induction l generalizing d with
  | nil => simp [eraseFrom]
  | cons s l ih =>
    have hmod : (d.eraseSector s).1.wear[p]? = if s = p then d.wear[p]?.map worn else d.wear[p]? := by
      show (d.wear.modify s fun n => (n + 1) % 4294967296)[p]? = _
      rw [List.getElem?_modify]
      by_cases h : s = p
      · rw [if_pos h]
        simp only [h, if_true]
        rfl
      · simp [h]
    show ((d.eraseSector s).1.eraseFrom l).1.wear[p]? = _
    rw [ih, hmod, List.count_cons]
    by_cases h : s = p
    · rw [if_pos h, if_pos (beq_iff_eq.mpr h), Option.map_map, Function.iterate_succ]
    · rw [if_neg h, if_neg (fun hb => h (beq_iff_eq.mp hb)), Nat.add_zero]

theorem erase_worn {d : Device} {a m p : Nat} (hss : 0 < d.geometry.sectorSize) (hm : 0 < m) :
    (d.erase (a * d.geometry.sectorSize) (m * d.geometry.sectorSize)).1.wear[p]? =
      d.wear[p]?.map worn^[if a ≤ p ∧ p < a + m then 1 else 0] := by
  have hspan : spanCount d.geometry.sectorSize (a * d.geometry.sectorSize)
      (m * d.geometry.sectorSize) = m := by
    have hmul := Nat.mul_le_mul_right d.geometry.sectorSize hm
    rw [spanCount_eq hss (by omega), Nat.mul_div_cancel _ hss, ← Nat.add_mul]
    have hlast : ((a + m) * d.geometry.sectorSize - 1) / d.geometry.sectorSize = a + m - 1 := by
      rw [Nat.div_eq_iff hss, Nat.sub_mul]
      have hle := Nat.mul_le_mul_right d.geometry.sectorSize (Nat.le_add_left m a)
      omega
    omega
  show (d.eraseFrom (List.range' _ (spanCount _ _ _))).1.wear[p]? = _
  rw [hspan, Nat.mul_div_cancel _ hss, eraseFrom_worn]
  congr 2
  rw [List.Nodup.count (List.nodup_range' ..)]
  simp only [List.mem_range'_1]

end Device

namespace WlFlash
variable {n : Nat} {w v u : WlFlash} {f f' : Nat → Nat} {g : Gap n} {addr size : UInt32}

/-- Physical sector `p` has been erased `f p` times. -/
def Wears (w v : WlFlash) (f : Nat → Nat) : Prop :=
  ∀ p, v.dev.wear[p]? = w.dev.wear[p]?.map worn^[f p]

theorem Wears.refl (w : WlFlash) : Wears w w fun _ => 0 := fun p => by
  rw [Function.iterate_zero, Option.map_id]
  rfl

theorem Wears.trans (h : Wears w v f) (h' : Wears v u f') : Wears w u fun p => f p + f' p := by
  intro p
  rw [h' p, h p, Option.map_map, ← Function.iterate_add, Nat.add_comm]

theorem Wears.congr (h : Wears w v f) (hf : ∀ p, f p = f' p) : Wears w v f' := fun p => by
  rw [h p, hf]

theorem Wears.still (h : Wears w v f) (hu : u.dev.wear = v.dev.wear) : Wears w u f := fun p => by
  rw [hu, h p]

/-- The physical sectors of the two state copies. -/
def InCopies (w : WlFlash) (p : Nat) : Prop :=
  w.addrState1.toNat / w.ss ≤ p ∧ p < w.addrCfg.toNat / w.ss

instance (w : WlFlash) (p : Nat) : Decidable (w.InCopies p) := inferInstanceAs (Decidable (_ ∧ _))

theorem Laid.perase_wears (hw : Laid n w) {a m : Nat} (ha : addr.toNat = a * w.ss)
    (hs : size.toNat = m * w.ss) (hm : 0 < m) :
    Wears w (w.perase addr size) fun p => if a ≤ p ∧ p < a + m then 1 else 0 := by
  intro p
  have hss : 0 < w.dev.geometry.sectorSize := by
    rw [hw.chip]
    exact hw.ss_pos
  show (w.dev.erase (w.partition.startAddr + addr).toNat size.toNat).1.wear[p]? = _
  rw [hw.abs, ha, hs, ← hw.chip]
  exact Device.erase_worn hss hm

/-- **Both state copies start over.** -/
theorem Aligned.rewrite_wears (ha : Aligned w) (hw : Laid n w) :
    Wears w w.rewriteStates fun p => if w.InCopies p then 1 else 0 := by
  obtain ⟨a, hfirst⟩ := ha.first
  obtain ⟨m, hsize⟩ := ha.state
  have hss := hw.ss_pos
  have hstate : 0 < w.stateSize.toNat := hw.state_pos
  have hm : 0 < m := by
    refine Nat.pos_of_ne_zero fun h => ?_
    rw [hsize, h, Nat.mul_zero] at hstate
    exact absurd hstate (Nat.lt_irrefl 0)
  rw [Nat.mul_comm] at hfirst hsize
  have hsecond : w.addrState2.toNat = (a + m) * w.ss := by rw [hw.second, hfirst, hsize, Nat.add_mul]
  have hcopies : ∀ p, w.InCopies p ↔ a ≤ p ∧ p < a + m + m := by
    intro p
    unfold InCopies
    rw [hw.third, hsecond, hfirst, hsize, ← Nat.add_mul, Nat.mul_div_cancel _ hss,
      Nat.mul_div_cancel _ hss]
  have h1 := hw.perase_wears hfirst hsize hm
  have hl1 := perase_like (w := w) w.addrState1 w.stateSize
  have hp1 : (w.perase w.addrState1 w.stateSize).plan = w.plan := perase_plan _
  unfold WlFlash.rewriteStates
  dsimp only
  generalize w.perase w.addrState1 w.stateSize = x at h1 hl1 hp1
  have hp2 : (x.pwrite x.addrState1 x.state.bytes).plan = w.plan := hp1
  have hl2 : Like w (x.pwrite x.addrState1 x.state.bytes) :=
    hl1.trans (pwrite_like _ _)
  have h2 : Wears w (x.pwrite x.addrState1 x.state.bytes) _ := h1.still rfl
  generalize x.pwrite x.addrState1 x.state.bytes = y at hp2 hl2 h2
  have hy : Laid n y := hw.of_plan hp2
  have hyss : y.ss = w.ss := plan_ss hp2
  have haddr : y.addrState2.toNat = (a + m) * y.ss := by rw [hl2.addrState2, hsecond, hyss]
  have hcopy : y.stateSize.toNat = m * y.ss := by rw [hl2.stateSize, hsize, hyss]
  have h3 := h2.trans (hy.perase_wears haddr hcopy hm)
  generalize y.perase y.addrState2 y.stateSize = z at h3
  refine (h3.still (u := z.pwrite z.addrState2 z.state.bytes) rfl).congr fun p => ?_
  by_cases hp : w.InCopies p
  · have hc := (hcopies p).mp hp
    rw [if_pos hp]
    by_cases hlow : p < a + m
    · rw [if_pos ⟨hc.1, hlow⟩, if_neg (by omega)]
    · rw [if_neg (by omega), if_pos (by omega)]
  · have hc : ¬(a ≤ p ∧ p < a + m + m) := fun h => hp ((hcopies p).mpr h)
    rw [if_neg hp, if_neg (by omega), if_neg (by omega)]

/-! ## one turn -/

theorem copyBlock_wear (src dst : UInt32) : (w.copyBlock src dst).dev.wear = w.dev.wear := by
  refine Loop.foldl_range_inv (P := fun _ (v : WlFlash) => v.dev.wear = w.dev.wear) _ rfl ?_
  intro i _ v hv
  rw [← hv]
  simp only [dev, writeTemp, readTemp, pwrite, Partition.write, Partition.read, Hal.call, Device.prog]
  split <;> rfl

/-- What a turn leaves before it advances. -/
theorem Placed.turned (hp : Placed g w) : ∃ x, Placed g x ∧ w.turn = x.advance ∧ x.plan = w.plan ∧
    x.state = w.state ∧ Wears w x fun p => if p = g.hole then 1 else 0 := by
  have hpage : w.cfg.wlPageSize.toNat = 1 * w.ss := by
    rw [Nat.one_mul, hp.page]
    rfl
  have hwear := hp.perase_wears hp.turnAddrs.2 hpage Nat.one_pos
  obtain ⟨h1, h2, -⟩ := hp.moved hp.turnAddrs.1 hp.turnAddrs.2
  have h3 := copyBlock_wear (w := w.perase w.turnAddrs.2 w.cfg.wlPageSize) w.turnAddrs.1 w.turnAddrs.2
  have hturn : ∀ x, (w.perase w.turnAddrs.2 w.cfg.wlPageSize).copyBlock w.turnAddrs.1 w.turnAddrs.2 = x →
      w.turn = x.markTurn.advance := by
    intro x hx
    subst hx
    rfl
  generalize (w.perase w.turnAddrs.2 w.cfg.wlPageSize).copyBlock w.turnAddrs.1 w.turnAddrs.2 = x
    at h1 h2 h3 hturn
  have hx : Placed g x := ⟨hp.toLaid.of_layout h1, by rw [h2]; exact hp.partMax,
    by rw [h2]; exact hp.dummy, by rw [h2]; exact hp.moves⟩
  have hm := hx.markTurn_spared (by rw [hx.dummy]; exact g.hole_le)
  refine ⟨x.markTurn, ⟨hm.laid hx.toLaid, hx.partMax, hx.dummy, hx.moves⟩, hturn x rfl,
    plan_of_layout (hm.layout.trans h1), h2, ?_⟩
  refine ((hwear.still h3).still (u := x.markTurn) rfl).congr fun p => ?_
  congr 1
  rw [eq_iff_iff]
  omega

theorem advance_count : w.advance.state.wlSecEraseCycleCount = w.state.wlSecEraseCycleCount ∧
    w.advance.state.wlMaxSecEraseCycleCount = w.state.wlMaxSecEraseCycleCount := by
  unfold WlFlash.advance
  dsimp only
  split <;> exact ⟨rfl, rfl⟩

/-- **A turn** erases the dummy sector, and at the end of a lap both state copies. -/
theorem Placed.turn_wears (hp : Placed g w) (ha : Aligned w) : Placed g.turn w.turn ∧
    w.turn.plan = w.plan ∧ w.turn.state.wlSecEraseCycleCount = w.state.wlSecEraseCycleCount ∧
    w.turn.state.wlMaxSecEraseCycleCount = w.state.wlMaxSecEraseCycleCount ∧
    Wears w w.turn fun p => (if p = g.hole then 1 else 0) +
      if g.hole = n ∧ w.InCopies p then 1 else 0 := by
  obtain ⟨x, hx, hturn, hplan, hstate, hwear⟩ := hp.turned
  obtain ⟨hadv, hspared⟩ := hx.advance
  rw [hturn, ← hstate]
  refine ⟨hadv, (plan_of_layout hspared.layout).trans hplan, advance_count.1, advance_count.2, ?_⟩
  have hn : n + 1 < 2 ^ 32 := by
    rw [← hx.partMax]
    exact x.state.wlPartMaxSecPos.toNat_lt
  have hh := g.hole_le
  have hpos : (x.state.wlDummySecPos + 1).toNat = g.hole + 1 := add_toNat hx.dummy rfl (by omega)
  have hlap : x.state.wlPartMaxSecPos ≤ x.state.wlDummySecPos + 1 ↔ g.hole = n := by
    rw [UInt32.le_iff_toNat_le, hx.partMax, hpos]
    omega
  unfold WlFlash.advance
  dsimp only
  by_cases h : g.hole = n
  · rw [if_pos (hlap.mpr h)]
    have hst : ∀ st : WlState, Wears x (x.setState st).rewriteStates fun p =>
        if w.InCopies p then 1 else 0 := by
      intro st
      have hy : (x.setState st).plan = w.plan := hplan
      have hrw := (ha.of_plan hy).rewrite_wears (hp.toLaid.of_plan hy)
      have hcfg : (x.setState st).addrCfg = w.addrCfg := congrArg (·.addrCfg) hy
      have hcopies : ∀ p, (x.setState st).InCopies p ↔ w.InCopies p := by
        intro p
        unfold InCopies
        rw [plan_addrState1 hy, plan_ss hy, hcfg]
      refine Wears.congr (w := x) hrw fun p => ?_
      rw [if_congr (hcopies p) rfl rfl]
    refine (hwear.trans (hst _)).congr fun p => ?_
    rw [if_congr (and_iff_right h) rfl rfl]
  · rw [if_neg fun hc => h (hlap.mp hc)]
    refine (hwear.still (u := x.setState _) rfl).congr fun p => ?_
    rw [if_neg (fun hc : g.hole = n ∧ _ => h hc.1), Nat.add_zero]

/-! ## the clock of the rotation -/

/-- A layer after `x` erases from `g`: every sixteenth of them comes after a turn. -/
structure Turned (g : Gap n) (x : Nat) (w : WlFlash) : Prop where
  placed : Placed (Gap.turn^[x / 16] g) w
  aligned : Aligned w
  count : w.state.wlSecEraseCycleCount.toNat = x % 16
  rate : w.state.wlMaxSecEraseCycleCount = 16

/-- What the turn before erase `x + 1` erases, if there is one. -/
def turnErases (w : WlFlash) (g : Gap n) (x p : Nat) : Nat :=
  if 16 ∣ x + 1 then (if p = (Gap.turn^[x / 16] g).hole then 1 else 0) +
    if (Gap.turn^[x / 16] g).hole = n ∧ w.InCopies p then 1 else 0
  else 0

/-- What erase `x + 1`, of logical sector `k`, erases. -/
def erases (w : WlFlash) (g : Gap n) (k x p : Nat) : Nat :=
  turnErases w g x p + if p = (Gap.turn^[(x + 1) / 16] g).place k then 1 else 0

theorem inCopies_plan (h : v.plan = w.plan) (p : Nat) : v.InCopies p ↔ w.InCopies p := by
  have hcfg : v.addrCfg = w.addrCfg := congrArg (·.addrCfg) h
  unfold InCopies
  rw [plan_addrState1 h, plan_ss h, hcfg]

theorem erases_plan (h : v.plan = w.plan) (g : Gap n) (k x p : Nat) :
    erases v g k x p = erases w g k x p := by
  unfold erases turnErases
  rw [if_congr (and_congr_right fun _ => inCopies_plan h p) rfl rfl]

theorem Turned.update {x : Nat} (h : Turned g x w) : Turned g (x + 1) w.updateWL ∧
    w.updateWL.plan = w.plan ∧ Wears w w.updateWL (turnErases w g x) := by
  have hx := Nat.div_add_mod x 16
  have hmod := Nat.mod_lt x (show 0 < 16 by decide)
  have hnext : (w.state.wlSecEraseCycleCount + 1).toNat = x % 16 + 1 := add_toNat h.count rfl (by omega)
  have hrate : w.state.wlMaxSecEraseCycleCount.toNat = 16 := by
    rw [h.rate]
    rfl
  unfold updateWL
  dsimp only
  by_cases hlast : x % 16 + 1 < 16
  · rw [if_pos (by rw [UInt32.lt_iff_toNat_lt, hnext, hrate]; exact hlast)]
    have hdiv : (x + 1) / 16 = x / 16 := by omega
    refine ⟨⟨?_, h.aligned.of_plan rfl, ?_, h.rate⟩, rfl, ?_⟩
    · rw [hdiv]
      exact ⟨h.placed.of_plan rfl, h.placed.partMax, h.placed.dummy, h.placed.moves⟩
    · exact hnext.trans (by omega)
    · refine ((Wears.refl w).still rfl).congr fun p => ?_
      unfold turnErases
      rw [if_neg (by omega)]
  · rw [if_neg (by rw [UInt32.lt_iff_toNat_lt, hnext, hrate]; exact hlast)]
    have hdiv : (x + 1) / 16 = x / 16 + 1 := by omega
    have hp : Placed (Gap.turn^[x / 16] g)
        (w.setState { w.state with wlSecEraseCycleCount := 0 }) :=
      ⟨h.placed.of_plan rfl, h.placed.partMax, h.placed.dummy, h.placed.moves⟩
    obtain ⟨hplaced, hplan, hc, hr, hwears⟩ := hp.turn_wears (h.aligned.of_plan rfl)
    refine ⟨⟨?_, h.aligned.of_plan hplan, ?_, hr.trans h.rate⟩, hplan, ?_⟩
    · rw [hdiv, Function.iterate_succ_apply']
      exact hplaced
    · rw [hc]
      show 0 = (x + 1) % 16
      omega
    · have hcopies := inCopies_plan (v := w.setState { w.state with wlSecEraseCycleCount := 0 })
        (w := w) rfl
      refine Wears.congr (w := w) hwears fun p => ?_
      unfold turnErases
      rw [if_pos (by omega : 16 ∣ x + 1), if_congr (and_congr_right fun _ => hcopies p) rfl rfl]

/-- **An erase of logical sector `k`.** -/
theorem Turned.eraseSector {x : Nat} (h : Turned g x w) {sector : UInt32} (hk : sector.toNat < n) :
    Turned g (x + 1) (w.eraseSector sector) ∧ (w.eraseSector sector).plan = w.plan ∧
      Wears w (w.eraseSector sector) (erases w g sector.toNat x) := by
  obtain ⟨hv, hplan, hwears⟩ := h.update
  unfold WlFlash.eraseSector
  dsimp only
  generalize w.updateWL = v at hv hplan hwears
  have hp := hv.placed
  have haddr := calcAddr_place hp hk (hp.sector_toNat rfl (Nat.le_of_lt hk))
  have hphys := hp.div_toNat haddr
  generalize (v.cfg.wlPartitionStartAddr + _) / v.cfg.flashSectorSize = p at hphys
  have hlay : ({ v with partition := v.partition.eraseSector p } : WlFlash).plan = v.plan :=
    plan_of_layout (by simp [layout, Partition.eraseSector, Hal.call])
  refine ⟨⟨⟨hp.of_plan hlay, hp.partMax, hp.dummy, hp.moves⟩, hv.aligned.of_plan hlay, hv.count, hv.rate⟩,
    hlay.trans hplan, ?_⟩
  have hle := Gap.place_le (Gap.turn^[(x + 1) / 16] g) sector.toNat
  have habs : (v.partition.startAddr + p * v.partition.sectorSize).toNat =
      (Gap.turn^[(x + 1) / 16] g).place sector.toNat * v.ss := by
    rw [hp.abs, hp.sectorSize]
    exact hp.sector_toNat hphys hle
  have hsz : v.partition.sectorSize.toNat = 1 * v.ss := by
    rw [hp.sectorSize, Nat.one_mul]
    rfl
  have hss : 0 < v.dev.geometry.sectorSize := by
    rw [hp.chip]
    exact hp.ss_pos
  have herase : Wears v { v with partition := v.partition.eraseSector p } fun q =>
      if q = (Gap.turn^[(x + 1) / 16] g).place sector.toNat then 1 else 0 := by
    intro q
    show (v.dev.erase (v.partition.startAddr + p * v.partition.sectorSize).toNat
      v.partition.sectorSize.toNat).1.wear[q]? = _
    rw [habs, hsz, ← hp.chip, Device.erase_worn hss Nat.one_pos]
    congr 2
    refine if_congr ?_ rfl rfl
    omega
  exact hwears.trans herase

/-! ## the calls of FatFs -/

theorem Holding.diskWrite_one {C : Nat → Nat → UInt8} (h : Holding n C w) {k : UInt32} (hk : k.toNat < n)
    {buff : List UInt8} (hlen : buff.length = w.ss) : ∃ s addr src, s.toNat = k.toNat ∧
      FlashVis.diskWrite buff k 1 (some w) = (.ok, some ((w.eraseSector s).writePage addr src)) := by
  obtain ⟨hi, g, hw, -⟩ := id h
  have hs := sector_add_toNat (hw.start_toNat (Nat.le_of_lt hk)) (i := 0) k.toNat_lt
  obtain ⟨⟨hvi, g', hv, -⟩, hvl⟩ := eraseSector_holding h hs hk
  have herase : w.eraseRange (k * w.cfg.flashSectorSize) (1 * w.cfg.flashSectorSize) = .ok
      (w.eraseSector (k * w.cfg.flashSectorSize / w.cfg.flashSectorSize + (0 : Nat).toUInt32)) := by
    unfold eraseRange
    dsimp only
    rw [hi, hw.count_toNat (c := 1) hw.pos]
    rfl
  have htake : buff.take (1 * w.cfg.flashSectorSize).toNat = buff := by
    rw [UInt32.one_mul]
    exact List.take_of_length_le (Nat.le_of_eq hlen)
  have hlen' : buff.length = 1 * (w.eraseSector
      (k * w.cfg.flashSectorSize / w.cfg.flashSectorSize + (0 : Nat).toUInt32)).ss := by
    rw [layout_ss hvl, Nat.one_mul]
    exact hlen
  have hpages := hv.pages_toNat Nat.one_pos hw.pos hlen'
  refine ⟨_, k * w.cfg.flashSectorSize + (0 : Nat).toUInt32 * w.cfg.wlPageSize,
    buff.drop (0 * w.cfg.wlPageSize.toNat), hs, ?_⟩
  have hcfg := plan_cfg (plan_of_layout hvl)
  generalize w.eraseSector _ = v at herase hvi hpages hcfg ⊢
  have hwrite : v.write (k * w.cfg.flashSectorSize) buff = .ok (v.writePage
      (k * w.cfg.flashSectorSize + (0 : Nat).toUInt32 * w.cfg.wlPageSize)
      (buff.drop (0 * w.cfg.wlPageSize.toNat))) := by
    unfold write
    dsimp only
    rw [hvi, hpages, hcfg]
    rfl
  unfold FlashVis.diskWrite
  dsimp only
  rw [hw.getSectorSize_eq, if_neg hw.getSectorSize_ne, herase, htake]
  dsimp only
  rw [hwrite]

/-- **Writes to one logical sector.** -/
theorem Turned.hammer {C : Nat → Nat → UInt8} {x : Nat} (h : Turned g x w) (hh : Holding n C w)
    {k : UInt32} (hk : k.toNat < n) (buffs : List (List UInt8)) (hlen : ∀ b ∈ buffs, b.length = w.ss) :
    ∃ v, (buffs.map fun b => DiskOp.write b k 1).foldl DiskOp.apply (some w) = some v ∧
      Wears w v fun p => ∑ j ∈ range buffs.length, erases w g k.toNat (x + j) p := by
  induction buffs generalizing w x C with
  | nil => exact ⟨w, rfl, Wears.refl w⟩
  | cons b buffs ih =>
    obtain ⟨s, addr, src, hs, hcall⟩ := hh.diskWrite_one hk (hlen b List.mem_cons_self)
    have hone : (DiskOp.write b k 1).InRange n w.ss :=
      ⟨Nat.le_refl 1, hk, (hlen b List.mem_cons_self).trans (Nat.one_mul _).symm⟩
    obtain ⟨u, hu, hul, huh⟩ := diskWrite_holding hh hone
    have huv : u = (w.eraseSector s).writePage addr src := by
      rw [hcall] at hu
      exact (Option.some.inj (congrArg Prod.snd hu)).symm
    have hsn : s.toNat < n := by
      rw [hs]
      exact hk
    obtain ⟨ht, hplan, hwears⟩ := h.eraseSector hsn
    have hp := ht.placed
    have hu' : Turned g (x + 1) u := by
      rw [huv]
      exact ⟨⟨hp.of_plan (pwrite_plan _), hp.partMax, hp.dummy, hp.moves⟩,
        ht.aligned.of_plan (pwrite_plan _), ht.count, ht.rate⟩
    have hwu : Wears w u (erases w g k.toNat x) := by
      rw [huv, ← hs]
      exact hwears.still rfl
    have hup : u.plan = w.plan := plan_of_layout hul
    obtain ⟨v, hv, hrest⟩ := ih hu' huh fun b' hb' => by
      rw [plan_ss hup]
      exact hlen b' (List.mem_cons_of_mem b hb')
    refine ⟨v, ?_, (hwu.trans hrest).congr fun p => ?_⟩
    · rw [List.map_cons, List.foldl_cons]
      show (buffs.map _).foldl DiskOp.apply (FlashVis.diskWrite b k 1 (some w)).2 = _
      rw [hu]
      exact hv
    · rw [List.length_cons, sum_range_succ', Nat.add_comm]
      congr 1
      refine sum_congr rfl fun j _ => ?_
      rw [erases_plan hup, Nat.add_right_comm, Nat.add_assoc]

/-! ## a full cycle -/

theorem turns_periodic (g : Gap n) (t : Nat) :
    Gap.turn^[t + (n + 1) * n] g = Gap.turn^[t] g := by
  rw [Function.iterate_add_apply, g.turns_back]

/-- How often a full cycle erases physical sector `p`. -/
def cycleErases (w : WlFlash) (n p : Nat) : Nat :=
  if p ≤ n then 17 * n else if w.InCopies p then n else 0

/-- **A full cycle** of erases of logical sector `k`. -/
theorem Laid.wears_cycle (hw : Laid n w) (g : Gap n) (k x p : Nat) :
    ∑ j ∈ range (16 * ((n + 1) * n)), erases w g k (x + j) p = cycleErases w n p := by
  have hdiv : ∀ y, (y + 16 * ((n + 1) * n)) / 16 = y / 16 + (n + 1) * n := fun y =>
    Nat.add_mul_div_left y _ (by decide)
  have hper : Function.Periodic (fun y => erases w g k y p) (16 * ((n + 1) * n)) := by
    intro y
    unfold erases turnErases
    dsimp only
    rw [Nat.add_right_comm, hdiv, hdiv, turns_periodic, turns_periodic]
    congr 1
    refine if_congr ?_ rfl rfl
    rw [Nat.dvd_add_left (Nat.dvd_mul_right _ _)]
  have hslow : Function.Periodic (fun y => if p = (Gap.turn^[y / 16] g).place k then 1 else 0)
      (16 * ((n + 1) * n)) := by
    intro y
    dsimp only
    rw [hdiv, turns_periodic]
  have hplaces : ∑ j ∈ range (16 * ((n + 1) * n)),
      (if p = (Gap.turn^[(j + 1) / 16] g).place k then 1 else 0) = if p ≤ n then 16 * n else 0 := by
    have hshift := Cycle.sum_shift hslow 1
    simp only [Nat.add_comm 1] at hshift
    rw [hshift, Cycle.sum_slow fun t => if p = (Gap.turn^[t] g).place k then 1 else 0]
    rw [g.visits k p, mul_ite, Nat.mul_zero]
  have hturns : ∑ j ∈ range (16 * ((n + 1) * n)), turnErases w g j p =
      (if p ≤ n then n else 0) + if w.InCopies p then n else 0 := by
    unfold turnErases
    rw [Cycle.sum_ticks (fun t => (if p = (Gap.turn^[t] g).hole then 1 else 0) +
      if (Gap.turn^[t] g).hole = n ∧ w.InCopies p then 1 else 0) (by decide), sum_add_distrib]
    rw [g.frees p]
    congr 1
    by_cases hp : w.InCopies p
    · have hlast := g.frees n
      rw [if_pos (Nat.le_refl n)] at hlast
      simp only [hp, and_true, if_true]
      exact (sum_congr rfl fun t _ => if_congr eq_comm rfl rfl).trans hlast
    · simp only [hp, and_false, if_false, sum_const_zero]
  have hout : w.InCopies p → ¬p ≤ n := by
    rintro ⟨h, -⟩ hp
    have hle : n + 1 ≤ w.addrState1.toNat / w.ss := (Nat.le_div_iff_mul_le hw.ss_pos).mpr hw.below
    omega
  rw [Cycle.sum_shift hper]
  unfold erases cycleErases
  rw [sum_add_distrib, hturns, hplaces]
  by_cases hp : p ≤ n
  · rw [if_pos hp, if_pos hp, if_pos hp, if_neg fun h => hout h hp]
    omega
  · rw [if_neg hp, if_neg hp, if_neg hp, Nat.zero_add, Nat.add_zero]

theorem Kept.uncut {ss sc : UInt32} {b : WlFlash} (hb : Starts n ss sc b) {A : Nat → List UInt8}
    (h : Kept n (rowBytes A) w) (hplan : w.plan = b.plan) (es : List DriveEvent)
    (hin : ∀ e ∈ es, e.InRange n b.ss) (hcut : ∀ e ∈ es, e.isCut = false) :
    ∃ v C, es.foldl (DriveEvent.apply ss sc) (some w) = some v ∧ v.plan = b.plan ∧ Kept n C v := by
  induction es generalizing w A with
  | nil => exact ⟨w, _, rfl, hplan, h⟩
  | cons e es ih =>
    have hrest : ∀ e' ∈ es, e'.InRange n b.ss := fun e' he => hin e' (List.mem_cons_of_mem e he)
    have hcut' : ∀ e' ∈ es, e'.isCut = false := fun e' he => hcut e' (List.mem_cons_of_mem e he)
    rw [List.foldl_cons]
    cases e with
    | call op =>
      have hr : op.InRange n w.ss := by
        rw [plan_ss hplan]
        exact hin _ List.mem_cons_self
      obtain ⟨v, hv, hp, hk⟩ := h.call hb hplan hr
      obtain ⟨u, hu⟩ := ih hk hp hrest hcut'
      exact ⟨u, by rw [show DriveEvent.apply ss sc (some w) (.call op) = some v from hv]; exact hu⟩
    | mount =>
      obtain ⟨v, hv, hp, hk⟩ := h.mount hb hplan
      obtain ⟨u, hu⟩ := ih hk hp hrest hcut'
      exact ⟨u, by rw [show DriveEvent.apply ss sc (some w) .mount = some v from hv]; exact hu⟩
    | cut buff s c i =>
      have hf := hcut _ List.mem_cons_self
      cases hf

end WlFlash
open WlFlash

/-- **The rotation levels.**  Once a layer of `n` sectors is up, whatever calls and mounts came before,
`16 * (n + 1) * n` writes to one and the same logical sector erase every physical sector of the data
area `17 * n` times, those of the state copies `n` times and no other. -/
theorem even_wear {ss sc : UInt32} {hal : Hal} {w v : WlFlash} (hmax : ss.toNat ≤ ffMaxSs)
    (hfit : ss.toNat * sc.toNat < 2 ^ 32)
    (hgs : hal.dev.geometry.sectorSize = ss.toNat) (hgc : hal.dev.geometry.sectorCount = sc.toNat)
    (hblank : hal.dev.flash = blankFlash) (hup : wlfatUp ss sc hal = .ok w) (es : List DriveEvent)
    (hin : ∀ e ∈ es, e.InRange w.sectors w.ss) (hcut : ∀ e ∈ es, e.isCut = false)
    (hv : es.foldl (DriveEvent.apply ss sc) (some w) = some v) {k : UInt32}
    (hk : k.toNat < w.sectors) (buffs : List (List UInt8)) (hbuffs : ∀ b ∈ buffs, b.length = w.ss)
    (hcycle : buffs.length = 16 * ((w.sectors + 1) * w.sectors)) :
    ∃ u, (buffs.map fun b => DiskOp.write b k 1).foldl DiskOp.apply (some v) = some u ∧
      ∀ p, u.dev.wear[p]? = v.dev.wear[p]?.map worn^[cycleErases v w.sectors p] := by
  obtain ⟨n, b, hb, hplan, hfresh⟩ := fresh_starts hmax hfit hgs hgc hblank hup
  have hss := plan_ss hplan
  have hsec : w.sectors = n := (hb.laid.of_plan hplan).sectors_eq
  rw [hsec] at hin hk hcycle ⊢
  have hrows : Kept n (rowBytes fun _ => List.replicate w.ss 0xff) w := hfresh.congr fun _ _ o ho => by
    unfold rowBytes
    simp [List.getD_eq_getElem?_getD, ho]
  obtain ⟨v', C, hv', hvp, hkept⟩ := hrows.uncut hb hplan es (by rw [← hss]; exact hin) hcut
  have hvv : v' = v := Option.some.inj (hv'.symm.trans hv)
  subst hvv
  have hmetered := hkept.metered
  have hholding := hkept.holding
  obtain ⟨-, -, g, m, hp, hs⟩ := hkept
  have hrate : v'.state.wlMaxSecEraseCycleCount = 16 := hs.sound.rate
  rw [hrate, UInt32.lt_iff_toNat_lt] at hmetered
  have hcount : v'.state.wlSecEraseCycleCount.toNat < 16 := hmetered
  have hturned : Turned g v'.state.wlSecEraseCycleCount.toNat v' := by
    refine ⟨?_, hb.aligned.of_plan hvp, (Nat.mod_eq_of_lt hcount).symm, hrate⟩
    rw [Nat.div_eq_of_lt hcount]
    exact hp
  obtain ⟨u, hu, hwears⟩ := hturned.hammer hholding hk buffs
    (by rw [plan_ss (hvp.trans hplan.symm)]; exact hbuffs)
  refine ⟨u, hu, fun p => ?_⟩
  rw [hwears p, hcycle]
  dsimp only
  rw [hp.wears_cycle]

theorem even_wear_small :
    ∃ u, ((List.replicate (16 * ((((wlfatUp 96 10 smallChip).toOption.get smallChip_up).sectors + 1) *
        ((wlfatUp 96 10 smallChip).toOption.get smallChip_up).sectors))
          (List.replicate 96 7)).map fun b => DiskOp.write b 1 1).foldl DiskOp.apply
        (some ((wlfatUp 96 10 smallChip).toOption.get smallChip_up)) = some u ∧
      ∀ p, u.dev.wear[p]? =
        ((wlfatUp 96 10 smallChip).toOption.get smallChip_up).dev.wear[p]?.map
          worn^[cycleErases ((wlfatUp 96 10 smallChip).toOption.get smallChip_up)
            ((wlfatUp 96 10 smallChip).toOption.get smallChip_up).sectors p] :=
  even_wear (by decide) (by decide) rfl rfl rfl (Except.eq_ok_get smallChip_up) []
    (fun e he => absurd he List.not_mem_nil) (fun e he => absurd he List.not_mem_nil) rfl
    (by decide +kernel) _ (fun b hb => by rw [List.eq_of_mem_replicate hb]; decide +kernel)
    (List.length_replicate ..)

end FlashVis
