import FlashVis.Fat.Fresh

/-!
# What `wlfat_up` makes of any chip

Whatever the chip holds, `init` leaves the layout alone; the layout itself follows from the sizes.

* `init_plan`     `init` over any content;
* `wlfatUp_sized` a layer that is up is laid out, with the sizes of its reserved areas.
-/

namespace FlashVis
namespace WlFlash
variable {n : Nat} {w v : WlFlash} {addr : UInt32}

/-! ## frames of `init` -/

theorem pread_plan (dst : List UInt8) : (w.pread addr dst).1.plan = w.plan := by
  refine plan_of_layout ?_
  simp only [pread, Partition.read]
  split <;> rfl

theorem readTemp_plan (len : Nat) : (w.readTemp addr len).plan = w.plan :=
  plan_of_layout (readTemp_layout len)

theorem perase_plan (size : UInt32) : (w.perase addr size).plan = w.plan :=
  plan_of_layout perase_layout

theorem plan_buffer (h : v.plan = w.plan) : v.tempBuff.length = w.tempBuff.length := by
  simpa [plan, layout] using congrArg (·.tempBuff.length) h

theorem copyRecords_plan (src dst : UInt32) : (w.copyRecords src dst).plan = w.plan := by
  refine Loop.foldl_range_inv (P := fun _ (v : WlFlash) => v.plan = w.plan) _ rfl
    fun i _ v hv => ?_
  dsimp only
  split
  · exact (readTemp_plan _).trans hv
  · exact (readTemp_plan _).trans hv

theorem recoverPos_plan : w.recoverPos.plan = w.plan := by
  have hlt := w.state.wlPartMaxSecPos.toNat_lt
  obtain ⟨h, -, -, -⟩ := recoverFrom_spared w.state.wlPartMaxSecPos.toNat 0 0 w
    (by rw [UInt32.toNat_zero]; omega)
  exact plan_of_layout h

theorem pwrite_plan (src : List UInt8) : (w.pwrite addr src).plan = w.plan := rfl

theorem setState_plan (st : WlState) : (w.setState st).plan = w.plan := rfl

theorem espRandom_plan : w.espRandom.2.plan = w.plan := by
  obtain ⟨id, s, h⟩ := w.espRandom_eq
  rw [h]
  rfl

theorem rewriteStates_plan : w.rewriteStates.plan = w.plan := by
  unfold rewriteStates
  rw [pwrite_plan, perase_plan, pwrite_plan, perase_plan]

theorem writeCfg_plan : w.writeCfg.plan = w.plan := by
  unfold writeCfg
  rw [pwrite_plan, perase_plan]

theorem initSections_plan : w.initSections.plan = w.plan := by
  unfold initSections
  dsimp only
  rw [writeCfg_plan, rewriteStates_plan, setState_plan, espRandom_plan]

theorem positionV1_plan (left : Nat) (i pos : UInt32) (w : WlFlash) :
    (positionV1 i pos left w).1.plan = w.plan := by
  induction left generalizing i pos w with
  | zero => rfl
  | succ left ih =>
    unfold positionV1
    dsimp only
    split
    · exact pread_plan _
    · exact (ih _ _ _).trans (pread_plan _)

theorem convert_plan (pos : UInt32) (hw : w.tempBuff.length = 32)
    (hrec : w.cfg.wlPosUpdateRecordSize = 16) : (w.convert addr pos).plan = w.plan := by
  have hlen : w.cfg.wlPosUpdateRecordSize.toNat = 16 := by rw [hrec]; rfl
  unfold convert
  dsimp only
  rw [hlen]
  refine (Loop.foldl_range_inv (P := fun _ (v : WlFlash) => v.plan = w.plan) _ ?_
    fun i _ v hv => ?_)
  · have h0 : (w.perase addr w.stateSize).plan = w.plan := perase_plan _
    refine Eq.trans ?_ h0
    have h : (List.replicate 16 (0 : UInt8) ++ w.tempBuff.drop 16).length = w.tempBuff.length := by
      simp [hw]
    show plan { (w.perase addr w.stateSize).pwrite addr w.state.bytes with
      tempBuff := List.replicate 16 0 ++ w.tempBuff.drop 16 } = _
    simp only [plan, layout, h]
    rfl
  · have hv' : 16 ≤ v.tempBuff.length := by
      rw [plan_buffer hv, hw]
      decide
    exact (plan_of_layout (fillOkBuff_layout _ hv')).trans hv

theorem updateV1V2_plan (hw : w.tempBuff.length = 32) (hrec : w.cfg.wlPosUpdateRecordSize = 16) :
    w.updateV1V2.1.plan = w.plan := by
  have hconv : ∀ (u : WlFlash) (addr pos : UInt32), u.plan = w.plan →
      (u.convert addr pos).plan = w.plan := fun u addr pos hu =>
    (convert_plan pos ((plan_buffer hu).trans hw)
      ((congrArg (·.cfg.wlPosUpdateRecordSize) hu).trans hrec)).trans hu
  have h1 : (w.pread w.addrState2 (List.replicate 64 0)).1.plan = w.plan := pread_plan _
  unfold updateV1V2
  dsimp only
  generalize w.pread w.addrState2 (List.replicate 64 0) = r at h1
  split
  · rw [setState_plan]
    refine hconv _ _ _ (hconv _ _ _ ?_)
    rw [setState_plan, espRandom_plan, positionV1_plan]
    exact h1
  · exact h1

theorem initSound_plan (crc1 crc2 : UInt32) : (w.initSound crc1 crc2).plan = w.plan := by
  unfold initSound
  split
  · rw [recoverPos_plan, initSections_plan]
  · split
    · dsimp only
      rw [recoverPos_plan, copyRecords_plan, pwrite_plan, perase_plan]
    · exact recoverPos_plan

theorem initNew_plan (hw : w.tempBuff.length = 32) (hrec : w.cfg.wlPosUpdateRecordSize = 16) :
    w.initNew.plan = w.plan := by
  have h := updateV1V2_plan hw hrec
  unfold initNew
  dsimp only
  rw [recoverPos_plan]
  split
  · exact h
  · rw [initSections_plan, h]

theorem initBroken_plan (first : Bool) (copy : WlState) : (w.initBroken first copy).plan = w.plan := by
  have hlast : ∀ u : WlFlash, u.plan = w.plan →
      (if u.state.version ≠ u.cfg.version then u.initSections else u).plan = w.plan := by
    intro u hu
    split
    · rw [initSections_plan, hu]
    · exact hu
  unfold initBroken
  refine hlast _ ?_
  split
  · rw [setState_plan, pread_plan, copyRecords_plan, pwrite_plan, perase_plan]
  · rw [setState_plan, pread_plan, copyRecords_plan, pwrite_plan, perase_plan]

/-- **`init` leaves the layout alone**, whatever the chip holds. -/
theorem init_plan (hw : w.tempBuff.length = 32) (hrec : w.cfg.wlPosUpdateRecordSize = 16)
    (h : w.init = .ok v) : v.plan = w.plan ∧ v.initialized = true := by
  unfold init at h
  split at h
  · exact absurd h nofun
  dsimp only at h
  have h1 : (w.pread w.addrState1 w.state.bytes).1.plan = w.plan := pread_plan _
  generalize w.pread w.addrState1 w.state.bytes = r1 at h h1
  have h2 : ({ r1.1 with initialized := false }.setState (.ofBytes r1.2) : WlFlash).plan = w.plan := h1
  generalize ({ r1.1 with initialized := false }.setState (.ofBytes r1.2) : WlFlash) = u at h h2
  have h3 : (u.pread u.addrState2 (List.replicate 64 0)).1.plan = w.plan := (pread_plan _).trans h2
  generalize u.pread u.addrState2 (List.replicate 64 0) = r2 at h h3
  have hbuf : r2.1.tempBuff.length = 32 := (plan_buffer h3).trans hw
  have hrec' : r2.1.cfg.wlPosUpdateRecordSize = 16 :=
    (congrArg (·.cfg.wlPosUpdateRecordSize) h3).trans hrec
  cases h
  refine ⟨?_, rfl⟩
  refine Eq.trans ?_ h3
  show plan (ite _ _ _) = _
  split
  · exact initSound_plan _ _
  · split
    · exact initNew_plan hbuf hrec'
    · exact initBroken_plan _ _

theorem Sized.of_plan {P : Nat} (hw : Sized n P w) (h : v.plan = w.plan) : Sized n P v := by
  have hss : v.ss = w.ss := congrArg (·.cfg.flashSectorSize.toNat) h
  have h1 : v.addrState1 = w.addrState1 := congrArg (·.addrState1) h
  have h2 : v.addrCfg = w.addrCfg := congrArg (·.addrCfg) h
  have h3 : v.stateSize = w.stateSize := congrArg (·.stateSize) h
  have h4 : v.cfgSize = w.cfgSize := congrArg (·.cfgSize) h
  refine ⟨?_, ?_, ?_, ?_, ?_, ?_⟩
  · rw [h2, h4]
    exact hw.ends
  · rw [h1, hss]
    exact hw.last
  · rw [h3, hss]
    exact hw.state
  · rw [h3, hss]
    exact hw.states
  · rw [h4, hss]
    exact hw.config
  · rw [h4, hss]
    exact hw.configs

end WlFlash

/-- **A layer that is up** is laid out over the partition, whatever the chip held. -/
theorem wlfatUp_sized {ss sc : UInt32} {hal : Hal} {w : WlFlash} (hmax : ss.toNat ≤ ffMaxSs)
    (hgs : hal.dev.geometry.sectorSize = ss.toNat) (hgc : hal.dev.geometry.sectorCount = sc.toNat)
    (hup : wlfatUp ss sc hal = .ok w) : ∃ n, w.Laid n ∧ w.Sized n (ss * sc).toNat ∧
      w.initialized = true ∧ w.ss = ss.toNat ∧ w.dev.geometry.sectorCount = sc.toNat := by
  unfold wlfatUp at hup
  cases hc : WlFlash.config (wlfatConfig ss sc) ⟨0, ss * sc, ss, hal⟩ with
  | error e =>
    rw [hc] at hup
    exact absurd hup nofun
  | ok v =>
    rw [hc] at hup
    obtain ⟨n, hv, hs, -, hhal⟩ := WlFlash.config_laid hmax hgs hgc hc
    dsimp only at hup
    cases hi : v.init with
    | error e =>
      rw [hi] at hup
      exact absurd hup nofun
    | ok u =>
      rw [hi] at hup
      cases hup
      obtain ⟨hp, hready⟩ := WlFlash.init_plan hv.buffer hv.record hi
      have hss : w.ss = v.ss := congrArg (·.cfg.flashSectorSize.toNat) hp
      have hgeo : w.dev.geometry = v.dev.geometry := congrArg (·.partition.hal.dev.geometry) hp
      refine ⟨n, hv.of_plan hp, hs.of_plan hp, hready, hss.trans ?_, ?_⟩
      · obtain ⟨crc, -, -, rfl⟩ := WlFlash.config_ok hc
        rfl
      · rw [hgeo]
        show v.partition.hal.dev.geometry.sectorCount = _
        rw [hhal, hgc]

end FlashVis
