import FlashVis.Fat.Disk

/-!
# A freshly initialised wear-levelling layer

* `config_laid`      every chip that `config` accepts is laid out without overlap;
* `wlfatUp_holding`  over a blank chip `wlfat_up` gives a layer whose sectors are blank.
-/

namespace FlashVis

/-- `FF_MAX_SS`: `f_mkfs` and `f_mount` refuse a drive of larger sectors. -/
def ffMaxSs : Nat := 4096

namespace WlFlash

/-! ## the layout -/

section
variable {ss sc : UInt32} {n : Nat} {w : WlFlash} {hal : Hal}

theorem roundUp_toNat {a s : UInt32} (hs : 0 < s.toNat) (h : a.toNat + s.toNat < 2 ^ 32) :
    ∃ q, ((a + s - 1) / s * s).toNat = q * s.toNat ∧ a.toNat ≤ q * s.toNat ∧
      q * s.toNat < a.toNat + s.toNat := by
  refine ⟨(a.toNat + s.toNat - 1) / s.toNat, ?_, ?_, ?_⟩
  · have h1 : (a + s - 1).toNat = a.toNat + s.toNat - 1 :=
      sub_toNat (add_toNat rfl rfl h) rfl (by show 1 ≤ _; omega)
    have h2 : (a.toNat + s.toNat - 1) / s.toNat * s.toNat ≤ a.toNat + s.toNat - 1 :=
      Nat.div_mul_le_self _ _
    exact mul_toNat (by rw [UInt32.toNat_div, h1]) rfl (by omega)
  · have h1 := Nat.lt_div_mul_add hs (a := a.toNat + s.toNat - 1)
    omega
  · have h2 : (a.toNat + s.toNat - 1) / s.toNat * s.toNat ≤ a.toNat + s.toNat - 1 :=
      Nat.div_mul_le_self _ _
    omega

theorem flashSize_toNat {x s : UInt32} (hs : 0 < s.toNat) (hmax : s.toNat ≤ ffMaxSs)
    (hpos : ¬((x / s - 1) * s = 0 ∨ 0x80000000 ≤ (x / s - 1) * s)) :
    x.toNat < 2 ^ 31 + 2 * ffMaxSs ∧ ∃ n, 0 < n ∧ ((x / s - 1) * s).toNat = n * s.toNat ∧
      n * s.toNat < 2 ^ 31 ∧ x.toNat / s.toNat = n + 1 := by
  have hq : (x / s).toNat = x.toNat / s.toNat := UInt32.toNat_div ..
  have hle : x.toNat / s.toNat * s.toNat ≤ x.toNat := Nat.div_mul_le_self _ _
  have hlt := Nat.lt_div_mul_add hs (a := x.toNat)
  have hx := x.toNat_lt
  unfold ffMaxSs at *
  rw [not_or, UInt32.not_le, UInt32.lt_iff_toNat_lt] at hpos
  obtain ⟨hne, hsmall⟩ := hpos
  have hsmall : ((x / s - 1) * s).toNat < 2 ^ 31 := hsmall
  have hne : ((x / s - 1) * s).toNat ≠ 0 := fun h => hne (UInt32.toNat_inj.mp h)
  rcases Nat.eq_zero_or_pos (x.toNat / s.toNat) with hz | hz
  · -- one page less than none
    have h0 : x / s = 0 := UInt32.toNat_inj.mp (hq.trans hz)
    rw [h0, UInt32.toNat_mul] at hsmall
    have h1 : (0 - 1 : UInt32).toNat = 4294967295 := rfl
    have h2 : 4294967295 * s.toNat = 4294967296 - s.toNat + 4294967296 * (s.toNat - 1) := by omega
    rw [h1, h2] at hsmall
    have h3 : (4294967296 - s.toNat + 4294967296 * (s.toNat - 1)) % 2 ^ 32 = 4294967296 - s.toNat := by
      rw [show (2 : Nat) ^ 32 = 4294967296 from rfl, Nat.add_mul_mod_self_left]
      exact Nat.mod_eq_of_lt (by omega)
    omega
  · have h1 : (x / s - 1).toNat = x.toNat / s.toNat - 1 := sub_toNat hq rfl hz
    have h2 : (x.toNat / s.toNat - 1) * s.toNat = x.toNat / s.toNat * s.toNat - s.toNat := by
      rw [Nat.sub_mul, Nat.one_mul]
    have h3 : ((x / s - 1) * s).toNat = (x.toNat / s.toNat - 1) * s.toNat :=
      mul_toNat h1 rfl (by omega)
    refine ⟨by omega, x.toNat / s.toNat - 1, ?_, h3, by omega, by omega⟩
    rcases Nat.eq_zero_or_pos (x.toNat / s.toNat - 1) with h4 | h4
    · rw [h3, h4, Nat.zero_mul] at hne
      exact absurd rfl hne
    · exact h4

/-- What `config` checks, and what it makes of the configuration of `wlfat_up`. -/
theorem config_ok {p : Partition} (hw : config (wlfatConfig ss sc) p = .ok w) : ∃ crc,
    ss % 32 = 0 ∧
    ¬((layOut { wlfatConfig ss sc with crc32 := crc } { partition := p }).flashSize = 0 ∨
      0x80000000 ≤ (layOut { wlfatConfig ss sc with crc32 := crc } { partition := p }).flashSize) ∧
    w = { layOut { wlfatConfig ss sc with crc32 := crc } { partition := p } with
      tempBuff := List.replicate 32 0, configured := true } := by
  have htemp : ¬(32 : UInt32) < 16 := by decide
  refine ⟨espRomCrc32Le wlCfgCrcConst (wlfatConfig ss sc).head, ?_⟩
  unfold config at hw
  simp only [wlfatConfig, htemp, if_false] at hw
  split at hw
  · exact absurd hw nofun
  rename_i hwhole
  split at hw
  · exact absurd hw nofun
  split at hw
  · exact absurd hw nofun
  rename_i hsize
  exact ⟨not_not.mp hwhole, hsize, (Except.ok.inj hw).symm⟩

/-- The sizes of the reserved areas at the end of a partition of `P` bytes. -/
structure Sized (n P : Nat) (w : WlFlash) : Prop where
  ends : w.addrCfg.toNat + w.cfgSize.toNat = P
  last : w.addrState1.toNat / w.ss = n + 1
  state : 64 + 16 * (P / w.ss) ≤ w.ss → w.stateSize.toNat = w.ss
  states : w.ss < 64 + 16 * (P / w.ss) → 2 * w.ss ≤ w.stateSize.toNat
  config : 48 ≤ w.ss → w.cfgSize.toNat = w.ss
  configs : w.ss ≤ w.cfgSize.toNat

/-- **Every chip that `config` accepts is laid out without overlap.** -/
theorem config_laid (hmax : ss.toNat ≤ ffMaxSs) (hgs : hal.dev.geometry.sectorSize = ss.toNat)
    (hgc : hal.dev.geometry.sectorCount = sc.toNat)
    (hw : config (wlfatConfig ss sc) ⟨0, ss * sc, ss, hal⟩ = .ok w) :
    ∃ n, Laid n w ∧ Sized n (ss * sc).toNat w ∧ w.state = {} ∧ w.partition.hal = hal := by
  obtain ⟨crc, hwhole, hsize, rfl⟩ := config_ok hw
  unfold layOut wlfatConfig at hsize ⊢
  dsimp only at hsize ⊢
  -- the sector size is a multiple of 32 bytes
  have hdvd : 32 ∣ ss.toNat := by
    have h := congrArg UInt32.toNat hwhole
    rw [UInt32.toNat_mod] at h
    exact Nat.dvd_of_mod_eq_zero h
  have hs0 : 0 < ss.toNat := by
    refine Nat.pos_of_ne_zero fun h => hsize (.inl ?_)
    have hz : ss = 0 := UInt32.toNat_inj.mp h
    subst hz
    exact UInt32.mul_zero
  have hs32 : 32 ≤ ss.toNat := Nat.le_of_dvd hs0 hdvd
  unfold ffMaxSs at hmax
  -- the size of the partition
  generalize hP : ss * sc = P at *
  have hPle : P.toNat ≤ ss.toNat * sc.toNat := by
    rw [← hP, UInt32.toNat_mul]
    exact Nat.mod_le _ _
  have hPlt := P.toNat_lt
  have hq32 : 32 * (P.toNat / ss.toNat) ≤ P.toNat :=
    Nat.le_trans (Nat.mul_le_mul_right _ hs32) (Nat.mul_div_le _ _)
  -- a state copy: its record and those of the turns, rounded up
  have hfull : (sizeofWlState + P / ss * 16).toNat = 64 + P.toNat / ss.toNat * 16 :=
    add_toNat rfl (mul_toNat (UInt32.toNat_div ..) rfl (by show _ * 16 < _; omega)) (by omega)
  obtain ⟨qf, hf1, hf2, hf3⟩ := roundUp_toNat (a := sizeofWlState + P / ss * 16) hs0 (by omega)
  rw [hfull] at hf2 hf3
  have hstate : ∃ m, (if ss < sizeofWlState + P / ss * 16 then
      (sizeofWlState + P / ss * 16 + ss - 1) / ss * ss else ss).toNat = m ∧
      64 + P.toNat / ss.toNat * 16 ≤ m ∧ m < 64 + P.toNat / ss.toNat * 16 + ss.toNat ∧
      (64 + P.toNat / ss.toNat * 16 ≤ ss.toNat → m = ss.toNat) ∧
      (ss.toNat < 64 + P.toNat / ss.toNat * 16 → 2 * ss.toNat ≤ m) := by
    by_cases hlt : ss < sizeofWlState + P / ss * 16
    · rw [if_pos hlt]
      rw [UInt32.lt_iff_toNat_lt, hfull] at hlt
      -- more than one sector
      have hqf : 1 < qf := Nat.lt_of_mul_lt_mul_right (a := ss.toNat) (by omega)
      exact ⟨_, hf1, hf2, hf3, by omega, fun _ => Nat.mul_le_mul_right _ hqf⟩
    · rw [if_neg hlt]
      rw [UInt32.lt_iff_toNat_lt, hfull] at hlt
      exact ⟨_, rfl, by omega, by omega, fun _ => rfl, by omega⟩
  obtain ⟨qc, hc1, hc2, hc3⟩ := roundUp_toNat (a := sizeofWlConfig) hs0
    (by show 48 + _ < _; omega)
  have h48 : sizeofWlConfig.toNat = 48 := rfl
  rw [h48] at hc2 hc3
  generalize (if ss < sizeofWlState + P / ss * 16 then
      (sizeofWlState + P / ss * 16 + ss - 1) / ss * ss else ss) = S at hstate hsize ⊢
  generalize (sizeofWlConfig + ss - 1) / ss * ss = Z at hc1 hsize ⊢
  obtain ⟨m, hm, hm1, hm2, hm3, hm4⟩ := hstate
  obtain ⟨hx, n, hn, hroom, hhalf, hquot⟩ := flashSize_toNat hs0 (by unfold ffMaxSs; omega) hsize
  unfold ffMaxSs at hx
  -- the reserved sectors fit, or the size would have been refused
  have hX : (P - S * 2 - Z).toNat = (P.toNat + 2 ^ 34 - (2 * m + qc * ss.toNat)) % 2 ^ 32 := by
    have h2 : (2 : UInt32).toNat = 2 := rfl
    rw [UInt32.toNat_sub, UInt32.toNat_sub, UInt32.toNat_mul, hm, hc1, h2]
    omega
  have hfits : 2 * m + qc * ss.toNat ≤ P.toNat := by omega
  have hX' : (P - S * 2 - Z).toNat = P.toNat - (2 * m + qc * ss.toNat) := by omega
  have hbelow : (n + 1) * ss.toNat ≤ (P - S * 2 - Z).toNat := by
    rw [← hquot]
    exact Nat.div_mul_le_self _ _
  have hnle : n + 1 ≤ P.toNat / ss.toNat := by
    rw [← hquot]
    exact Nat.div_le_div_right (by omega)
  have h1 : (P - S * 1 - Z).toNat = P.toNat - m - qc * ss.toNat := by
    rw [UInt32.mul_one]
    exact sub_toNat (sub_toNat rfl hm (by omega)) hc1 (by omega)
  have h0 : (P - Z).toNat = P.toNat - qc * ss.toNat := sub_toNat rfl hc1 (by omega)
  have hqc : 1 ≤ qc := Nat.pos_of_ne_zero fun h => by
    rw [h, Nat.zero_mul] at hc2
    omega
  refine ⟨n, ?_, ?_, rfl, rfl⟩
  · exact {
      configured := rfl
      start := rfl
      startAddr := rfl
      page := rfl
      sectorSize := rfl
      chip := hgs
      temp := rfl
      record := rfl
      buffer := List.length_replicate ..
      whole := hdvd
      ss_pos := hs0
      pos := hn
      room := hroom
      half := hhalf
      below := by
        show _ ≤ (0 + P - S * 2 - Z).toNat
        rw [UInt32.zero_add]
        exact hbelow
      second := by
        show (0 + P - S * 1 - Z).toNat = (0 + P - S * 2 - Z).toNat + S.toNat
        rw [UInt32.zero_add]
        omega
      third := by
        show (0 + P - Z).toNat = (0 + P - S * 1 - Z).toNat + S.toNat
        rw [UInt32.zero_add]
        omega
      ends := by
        show (0 + P - Z).toNat + Z.toNat < _
        rw [UInt32.zero_add]
        omega
      holds := by
        show (0 + P - Z).toNat + Z.toNat ≤ ss.toNat * hal.dev.geometry.sectorCount
        rw [UInt32.zero_add, hgc]
        omega
      records := by
        show _ ≤ S.toNat
        omega
      config := by
        show _ ≤ Z.toNat
        omega }
  · exact {
      ends := by
        show (0 + P - Z).toNat + Z.toNat = P.toNat
        rw [UInt32.zero_add]
        omega
      last := by
        show (0 + P - S * 2 - Z).toNat / ss.toNat = n + 1
        rw [UInt32.zero_add]
        exact hquot
      state := fun h => hm.trans (hm3 (by rw [Nat.mul_comm]; exact h))
      states := fun h => by
        show _ ≤ S.toNat
        rw [hm]
        exact hm4 (by rw [Nat.mul_comm]; exact h)
      config := fun h => by
        have hle : qc < 2 := Nat.lt_of_mul_lt_mul_right (a := ss.toNat) (by
          have h48 : 48 ≤ ss.toNat := h
          omega)
        have hone : qc = 1 := by omega
        rw [hone, Nat.one_mul] at hc1
        exact hc1
      configs := by
        show ss.toNat ≤ Z.toNat
        rw [hc1]
        exact Nat.le_mul_of_pos_left _ hqc }

/-! ## the first state -/

theorem recoverFrom_spared (left : Nat) (i position : UInt32) (w : WlFlash)
    (hi : i.toNat + left < 2 ^ 32) :
    let r := recoverFrom i position left w
    r.1.layout = w.layout ∧ r.1.state = w.state ∧ r.1.dev.flash = w.dev.flash ∧
      (r.2 = position ∨ r.2.toNat < i.toNat + left) := by
  induction left generalizing i position w with
  | zero => exact ⟨rfl, rfl, rfl, .inl rfl⟩
  | succ left ih =>
    unfold recoverFrom
    dsimp only
    have hstate : (w.readTemp (w.recordAddr w.addrState1 i)
      w.cfg.wlPosUpdateRecordSize.toNat).state = w.state := rfl
    have hlay : (w.readTemp (w.recordAddr w.addrState1 i)
      w.cfg.wlPosUpdateRecordSize.toNat).layout = w.layout := readTemp_layout _
    have hflash : (w.readTemp (w.recordAddr w.addrState1 i)
      w.cfg.wlPosUpdateRecordSize.toNat).dev.flash = w.dev.flash := readTemp_flash _
    generalize w.readTemp (w.recordAddr w.addrState1 i) w.cfg.wlPosUpdateRecordSize.toNat = v
      at hlay hflash hstate
    split
    · have hnext : (i + 1).toNat = i.toNat + 1 := add_toNat rfl rfl (by omega)
      obtain ⟨h1, h2, h3, h4⟩ := ih (i + 1) i v (by omega)
      refine ⟨h1.trans hlay, h2.trans hstate, h3.trans hflash, .inr ?_⟩
      rcases h4 with h4 | h4
      · rw [h4]
        omega
      · omega
    · exact ⟨hlay, hstate, hflash, .inr (by show i.toNat < _; omega)⟩

theorem blank_state (d : Device) (hblank : d.flash = blankFlash) (off : Nat) (dst : List UInt8)
    (hdst : dst.length = 64) (hoff : off + 64 ≤ d.geometry.sectorSize * d.geometry.sectorCount) :
    d.fetch off dst = List.replicate 64 0xff := by
  refine List.ext_getElem (by rw [fetch_length, hdst, List.length_replicate]) fun i h1 h2 => ?_
  rw [List.length_replicate] at h2
  have hget : (d.fetch off dst).getD i 0 = d.flash (off + i) :=
    fetch_getD (by rw [hdst]; exact h2) (by omega)
  rw [List.getD_eq_getElem?_getD, List.getElem?_eq_getElem h1] at hget
  rw [List.getElem_replicate]
  exact hget.trans (by rw [hblank]; rfl)

theorem Laid.pread_blank (hw : Laid n w) (hblank : w.dev.flash = blankFlash) {addr : UInt32}
    (haddr : addr = w.addrState1 ∨ addr = w.addrState2) {dst : List UInt8} (hdst : dst.length = 64) :
    ∃ v, w.pread addr dst = (v, List.replicate 64 0xff) ∧ v.layout = w.layout ∧
      v.state = w.state ∧ v.dev.flash = blankFlash := by
  have h1 := hw.second
  have h2 := hw.third
  have h3 := hw.holds
  have h4 := hw.records
  have h5 := hw.chip
  have hbuf := blank_state w.dev hblank addr.toNat dst hdst (by
    rw [h5]
    rcases haddr with rfl | rfl <;> omega)
  refine ⟨(w.pread addr dst).1, Prod.ext rfl ?_, ?_, rfl, ?_⟩
  · simp only [pread, Partition.read, hw.abs]
    split <;> exact hbuf
  · simp only [pread, Partition.read]
    split <;> rfl
  · simp only [pread, Partition.read]
    split <;> exact hblank

theorem Laid.setState (hw : Laid n w) (st : WlState) : Laid n (w.setState st) := hw.of_plan rfl

theorem espRandom_eq (w : WlFlash) : ∃ id s,
    w.espRandom = (id, w.setHal { w.partition.hal with random := s }) :=
  ⟨_, _, rfl⟩

theorem freshState_pos (id : UInt32) : (w.freshState id).wlDummySecPos = 0 := rfl

theorem freshState_moves (id : UInt32) : (w.freshState id).wlDummySecMoveCount = 0 := rfl

theorem freshState_max (id : UInt32) :
    (w.freshState id).wlPartMaxSecPos = 1 + w.flashSize / w.cfg.wlPageSize := rfl

theorem Laid.initSections_placed (hw : Laid n w) (hn : 0 < n) :
    Placed (n := n) ⟨0, 0, Nat.zero_le n, hn⟩ w.initSections ∧ w.initSections.ss = w.ss ∧
      ∀ a < (n + 1) * w.ss, w.initSections.dev.flash a = w.dev.flash a := by
  have hmax : (1 + w.flashSize / w.cfg.wlPageSize).toNat = n + 1 := by
    have hdiv : (w.flashSize / w.cfg.wlPageSize).toNat = n := by
      rw [UInt32.toNat_div, hw.room, hw.page]
      exact Nat.mul_div_cancel _ hw.ss_pos
    have hlt : n * 1 ≤ n * w.ss := Nat.mul_le_mul_left _ hw.ss_pos
    have hhalf := hw.half
    rw [add_toNat (x := 1) rfl hdiv (by omega), Nat.add_comm]
  obtain ⟨id, s, hid⟩ := w.espRandom_eq
  unfold initSections
  rw [hid]
  dsimp only
  -- the layer with its new state in memory
  have hu : Laid n (w.setHal { w.partition.hal with random := s }) := hw.of_layout rfl
  have hfields : ∀ v : WlFlash, v.flashSize = w.flashSize → v.cfg = w.cfg →
      (v.freshState id).wlPartMaxSecPos.toNat = n + 1 := fun v hv1 hv2 => by
    rw [freshState_max, hv1, hv2]
    exact hmax
  have hst := hfields (w.setHal { w.partition.hal with random := s }) rfl rfl
  have hpos := freshState_pos (w := w.setHal { w.partition.hal with random := s }) id
  have hmoves := freshState_moves (w := w.setHal { w.partition.hal with random := s }) id
  generalize freshState id _ = st at hst hpos hmoves
  have hv := hu.setState st
  have h1 := hv.rewriteStates_spared
  have h2 := h1.trans (h1.laid hv).writeCfg_spared
  exact ⟨⟨h2.laid hv, hst, congrArg UInt32.toNat hpos, congrArg UInt32.toNat hmoves⟩, h2.ss, h2.data⟩

/-- `recoverPos` finds some place for the gap. -/
theorem Placed.recoverPos {g : Gap n} (hw : Placed g w) (hlaps : g.laps = 0) :
    (∃ g' : Gap n, Placed g' w.recoverPos) ∧ w.recoverPos.ss = w.ss ∧
      w.recoverPos.dev.flash = w.dev.flash := by
  have hmax := hw.partMax
  have hlt := w.state.wlPartMaxSecPos.toNat_lt
  obtain ⟨h1, h2, h3, h4⟩ := recoverFrom_spared w.state.wlPartMaxSecPos.toNat 0 0 w
    (by rw [UInt32.toNat_zero]; omega)
  have hpos : (recoverFrom 0 0 w.state.wlPartMaxSecPos.toNat w).2.toNat ≤ n := by
    rcases h4 with h4 | h4
    · rw [h4]
      exact Nat.zero_le n
    · rw [UInt32.toNat_zero] at h4
      omega
  unfold WlFlash.recoverPos
  dsimp only
  generalize recoverFrom 0 0 w.state.wlPartMaxSecPos.toNat w = r at h1 h2 h3 hpos
  have hne : r.2 ≠ r.1.state.wlPartMaxSecPos := by
    intro h
    rw [h, h2, hmax] at hpos
    omega
  rw [if_neg hne]
  have hl : Laid n r.1 := hw.toLaid.of_layout h1
  refine ⟨⟨⟨r.2.toNat, 0, hpos, hw.pos⟩, hl.setState _, ?_, rfl, ?_⟩, layout_ss h1, h3⟩
  · exact (congrArg (·.wlPartMaxSecPos.toNat) h2).trans hmax
  · exact (congrArg (·.wlDummySecMoveCount.toNat) h2).trans (hw.moves.trans hlaps)

/-- The record on a blank chip is not sound, and of no known version. -/
theorem blank_record : (WlState.ofBytes (List.replicate 64 0xff)).crc ≠
    (WlState.ofBytes (List.replicate 64 0xff)).crc32 ∧
    (WlState.ofBytes (List.replicate 64 0xff)).version ≠ 1 := by
  decide +kernel

theorem Laid.init_blank (hw : Laid n w) (hblank : w.dev.flash = blankFlash) (hst : w.state = {}) :
    ∃ v, w.init = .ok v ∧ Holding n (fun _ _ => 0xff) v ∧ v.ss = w.ss := by
  obtain ⟨hcrc, hver⟩ := blank_record
  have hlen : w.state.bytes.length = 64 := by
    rw [hst]
    rfl
  obtain ⟨v1, hv1, hl1, hs1, hb1⟩ := hw.pread_blank hblank (.inl rfl) hlen
  have hl1' : Laid n v1 := hw.of_layout hl1
  have hw2 : Laid n ({ v1 with initialized := false }.setState
      (WlState.ofBytes (List.replicate 64 0xff))) := hl1'.of_plan rfl
  obtain ⟨v2, hv2, hl2, hs2, hb2⟩ := hw2.pread_blank hb1 (.inr rfl)
    (List.length_replicate : (List.replicate 64 (0 : UInt8)).length = 64)
  have hw3 : Laid n v2 := hw2.of_layout hl2
  obtain ⟨v3, hv3, hl3, hs3, hb3⟩ := hw3.pread_blank hb2 (.inr rfl)
    (List.length_replicate : (List.replicate 64 (0 : UInt8)).length = 64)
  have hw4 : Laid n v3 := hw3.of_layout hl3
  have hstate : v3.state = WlState.ofBytes (List.replicate 64 0xff) := hs3.trans hs2
  have hupdate : v2.updateV1V2 = (v3, false) := by
    unfold updateV1V2
    rw [hv3]
    dsimp only
    rw [if_neg]
    rw [hstate]
    exact fun h => hver h.2.2.2.1
  obtain ⟨hp, hpss, hpdata⟩ := hw4.initSections_placed hw.pos
  obtain ⟨⟨g, hg⟩, hgss, hgdata⟩ := hp.recoverPos rfl
  have hss : v3.initSections.recoverPos.ss = w.ss := by
    rw [hgss, hpss, layout_ss hl3, layout_ss hl2]
    show v1.ss = w.ss
    exact layout_ss hl1
  refine ⟨{ v3.initSections.recoverPos with initialized := true }, ?_,
    ⟨rfl, g, { hg with }, fun k _ o ho => ?_⟩, hss⟩
  · unfold init
    rw [hw.configured]
    simp only [Bool.not_true, Bool.false_eq_true, if_false, hv1, hv2, hs2]
    rw [if_neg (fun h => hcrc h.1), if_pos ⟨hcrc, hcrc⟩]
    unfold initNew
    rw [hupdate]
    rfl
  · have ho' : o < v3.ss := by
      rw [← hpss, ← hgss]
      exact ho
    show v3.initSections.recoverPos.dev.flash (g.place k * v3.initSections.recoverPos.ss + o) = _
    rw [hgdata, hgss, hpss, hpdata _ (place_lt (g.place_le k) ho'), hb3]
    rfl

end
end WlFlash

/-- **A freshly initialised layer** over a blank chip: every logical sector is blank. -/
theorem wlfatUp_holding {ss sc : UInt32} {hal : Hal} {w : WlFlash} (hmax : ss.toNat ≤ ffMaxSs)
    (hgs : hal.dev.geometry.sectorSize = ss.toNat) (hgc : hal.dev.geometry.sectorCount = sc.toNat)
    (hblank : hal.dev.flash = blankFlash) (hup : wlfatUp ss sc hal = .ok w) :
    ∃ n, w.Holding n (fun _ _ => 0xff) ∧ w.ss = ss.toNat := by
  unfold wlfatUp at hup
  cases hc : WlFlash.config (wlfatConfig ss sc) ⟨0, ss * sc, ss, hal⟩ with
  | error e =>
    rw [hc] at hup
    exact absurd hup nofun
  | ok v =>
    rw [hc] at hup
    obtain ⟨n, hv, -, hst, hhal⟩ := WlFlash.config_laid hmax hgs hgc hc
    have hb : v.dev.flash = blankFlash := by
      show v.partition.hal.dev.flash = _
      rw [hhal]
      exact hblank
    obtain ⟨u, hu, hh, hss⟩ := hv.init_blank hb hst
    dsimp only at hup
    rw [hu] at hup
    cases hup
    refine ⟨n, hh, hss.trans ?_⟩
    obtain ⟨crc, -, -, rfl⟩ := WlFlash.config_ok hc
    rfl

end FlashVis
