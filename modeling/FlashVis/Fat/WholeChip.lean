import FlashVis.Fat.LiveMap
import FlashVis.Fat.BlockDevice

/-!
# Which chips the live map covers

* `WlFlash.Opens`      the boot record that the call accepts, read off the chip;
* `WlFlash.Covers`     a class for every page of the chip, class 4 on the reserved areas;
* `Sized.exact_iff`    the chips whose sectors the map counts right;
* `live_map_covers`    the map covers these chips, of volumes that are not too large, and no others.
-/

namespace FlashVis
open Bounded Walk

namespace WlFlash
variable {n : Nat} {w v : WlFlash} {t : InspectStatics} {pg : UInt32} {b : Bpb}

/-- The boot sector as the call sees it: past the end of a small sector the buffer holds what earlier
calls have left. -/
def bootBuf (t : InspectStatics) (w : WlFlash) : Nat → UInt8 :=
  fun i => if i < w.ss then w.dev.flash ((w.calcAddr 0).toNat + i) else t.sSec i

/-- `ff_live_map` starts to map the volume of the boot record `b`: the sizes fit its buffers, and
the first logical sector holds `b`. -/
structure Opens (t : InspectStatics) (pg : UInt32) (b : Bpb) (w : WlFlash) : Prop where
  fits : liveMapFits w.getSectorSize (w.getFlashSize / w.getSectorSize) pg = true
  signature : w.bootBuf t 510 = 0x55 ∧ w.bootBuf t 511 = 0xAA
  record : parseBpb (w.bootBuf t) = some b
  accepted : b.accepted w.cfg.flashSectorSize = true

/-! ## reading the first sector -/

theorem Laid.calcAddr_le (hw : Laid n w) (addr : UInt32) :
    (w.calcAddr addr).toNat ≤ n * w.ss + w.ss := by
  have hpos : 0 < n * w.ss := Nat.mul_pos hw.pos hw.ss_pos
  have hpage : w.cfg.wlPageSize.toNat = w.ss := by rw [hw.page]; rfl
  have hfit := hw.mul_lt (Nat.le_refl n)
  have hlt : ((w.flashSize - w.state.wlDummySecMoveCount * w.cfg.wlPageSize + addr) %
      w.flashSize).toNat < n * w.ss := by
    rw [UInt32.toNat_mod, hw.room]
    exact Nat.mod_lt _ hpos
  unfold calcAddr
  dsimp only
  split
  · omega
  · rw [add_toNat rfl hpage (by omega)]
    omega

theorem Laid.read_sector (hw : Laid n w) (hq : w.partition.hal.gQuiet = true)
    (hi : w.initialized = true) (addr : UInt32) {dest : List UInt8} (hlen : dest.length = w.ss) :
    w.read addr dest = .ok (w, w.dev.fetch (w.calcAddr addr).toNat dest) := by
  have hpage : w.cfg.wlPageSize.toNat = w.ss := by rw [hw.page]; rfl
  have hlt := hw.mul_lt (Nat.zero_le n)
  have hss := hw.ss_pos
  have hcount : (dest.length.toUInt32 - 1) / w.cfg.wlPageSize = 0 := by
    have hl : dest.length.toUInt32.toNat = w.ss := by
      show (UInt32.ofNat dest.length).toNat = _
      rw [UInt32.toNat_ofNat', hlen, Nat.mod_eq_of_lt (by omega)]
    refine UInt32.toNat_inj.mp ?_
    rw [UInt32.toNat_div, hpage, sub_toNat (y := 1) hl rfl hss]
    exact Nat.div_eq_of_lt (by omega)
  unfold read
  rw [hi]
  dsimp only [Bool.not_true, Bool.false_eq_true, if_false]
  rw [hcount]
  simp only [UInt32.toNat_zero, List.range_zero, List.foldl_nil, Nat.zero_mul, List.drop_zero,
    readPage, pread_quiet hq, List.nil_append]
  have haddr : addr + Nat.toUInt32 0 * w.cfg.wlPageSize = addr := by
    show addr + 0 * _ = _
    rw [UInt32.zero_mul, UInt32.add_zero]
  rw [haddr, hw.start, hw.startAddr, UInt32.zero_add, UInt32.zero_add]
  rfl

theorem Sized.areas {P : Nat} (hs : Sized n P w) :
    w.ss ≤ w.stateSize.toNat ∧ w.ss ≤ w.cfgSize.toNat := by
  refine ⟨?_, hs.configs⟩
  by_cases h : 64 + 16 * (P / w.ss) ≤ w.ss
  · exact Nat.le_of_eq (hs.state h).symm
  · have := hs.states (by omega)
    omega

theorem boot_readSec {P : Nat} (hw : Laid n w) (hs : Sized n P w) (hi : w.initialized = true)
    (t : InspectStatics) (pg : UInt32) :
    (start t pg w).readSec 0 = ({ start t pg w with sSec := w.bootBuf t }, true) := by
  have hq : Laid n (w.setQuiet true) := hw.of_layout rfl
  have hsec : (start t pg w).sSs.toNat = w.ss := by
    show (if !w.configured then 0 else w.cfg.flashSectorSize).toNat = w.ss
    rw [hw.configured]
    rfl
  have hlen : (bytesOf (start t pg w).sSec (start t pg w).sSs.toNat).length = w.ss := by
    rw [hsec]
    simp [bytesOf]
  have h : (start t pg w).wl.read (0 * (start t pg w).sSs)
      (bytesOf (start t pg w).sSec (start t pg w).sSs.toNat) =
      .ok ((start t pg w).wl, w.dev.fetch (w.calcAddr (0 * (start t pg w).sSs)).toNat _) :=
    hq.read_sector rfl hi _ hlen
  rw [hsec, UInt32.zero_mul] at h
  unfold readSec readLogical
  rw [hsec, UInt32.zero_mul, h]
  have hbuf : overlay (start t pg w).sSec (w.dev.fetch (w.calcAddr 0).toNat
      (bytesOf (start t pg w).sSec w.ss)) = w.bootBuf t := by
    funext i
    have hle := hw.calcAddr_le 0
    obtain ⟨hst, hcf⟩ := hs.areas
    have h1 := hw.below
    have h2 := hw.second
    have h3 := hw.third
    have h4 := hw.holds
    rw [Nat.succ_mul] at h1
    unfold overlay bootBuf Device.fetch bytesOf
    by_cases hlt : i < w.ss
    · have hin : (w.calcAddr 0).toNat + i <
          w.dev.geometry.sectorSize * w.dev.geometry.sectorCount := by
        rw [hw.chip]
        omega
      rw [if_pos hlt, List.getD_eq_getElem?_getD]
      simp [hlt, hin]
    · rw [if_neg hlt, List.getD_eq_getElem?_getD]
      simp [hlt]
      rfl
  dsimp only
  rw [hbuf]

/-! ## the checked sizes -/

theorem Laid.sector_eq (hw : Laid n w) : w.getSectorSize = w.cfg.flashSectorSize := by
  unfold getSectorSize
  rw [hw.configured]
  rfl

theorem Laid.sectors_toNat (hw : Laid n w) : (w.getFlashSize / w.getSectorSize).toNat = n := by
  have hsize : w.getFlashSize.toNat = n * w.ss := by
    unfold getFlashSize
    rw [hw.configured]
    exact hw.room
  rw [UInt32.toNat_div, hsize, hw.sector_eq]
  exact Nat.mul_div_cancel _ hw.ss_pos

theorem Laid.start_bounded (hw : Laid n w) (hi : w.initialized = true)
    (hfits : liveMapFits w.getSectorSize (w.getFlashSize / w.getSectorSize) pg = true) :
    (Walk.start t pg w).Bounded ∧ (Walk.start t pg w).sSs.toNat = w.ss ∧ (Walk.start t pg w).sNlog.toNat = n ∧
      w.ss ≤ 4096 ∧ pg.toNat ∣ w.ss := by
  have hn := hw.sectors_toNat
  have hss : w.getSectorSize.toNat = w.ss := by
    rw [hw.sector_eq]
    rfl
  simp only [liveMapFits, Bool.and_eq_true, bne_iff_ne, ne_eq, beq_iff_eq, Bool.not_eq_true',
    decide_eq_false_iff_not, UInt32.lt_iff_toNat_lt] at hfits
  obtain ⟨⟨⟨⟨⟨⟨-, hpg⟩, hmod⟩, hmax⟩, hlog⟩, -⟩, hpages⟩ := hfits
  have hmax : w.ss ≤ 4096 := by
    rw [hss] at hmax
    exact Nat.not_lt.mp hmax
  have hlog : n ≤ 256 := by
    rw [hn] at hlog
    exact Nat.not_lt.mp hlog
  have hdvd : pg.toNat ∣ w.ss := by
    have h := congrArg UInt32.toNat hmod
    rw [UInt32.toNat_mod, hss] at h
    exact Nat.dvd_of_mod_eq_zero h
  have hmul : n * (w.ss / pg.toNat) ≤ 256 * 4096 :=
    Nat.mul_le_mul hlog (Nat.le_trans (Nat.div_le_self ..) hmax)
  have hpages : n * (w.ss / pg.toNat) ≤ bufSize := by
    have hdiv : (w.getSectorSize / pg).toNat = w.ss / pg.toNat := by
      rw [UInt32.toNat_div, hss]
    rw [mul_toNat hn hdiv (by omega)] at hpages
    exact Nat.not_lt.mp hpages
  refine ⟨⟨rfl, hi, ?_, ?_, ?_, ?_, ?_, ?_, ?_⟩, hss, hn, hmax, hdvd⟩
  · exact hss ▸ hmax
  · exact hss ▸ hw.ss_pos
  · exact Nat.pos_of_ne_zero fun h => hpg (UInt32.toNat_inj.mp h)
  · exact hss ▸ hdvd
  · exact hn ▸ hlog
  · show (w.getFlashSize / w.getSectorSize).toNat * (w.getSectorSize.toNat / pg.toNat) ≤ bufSize
    rw [hn, hss]
    exact hpages
  · exact Nat.zero_le _

/-- Opening a volume: the boot record on the chip decides. -/
theorem open_eq {P : Nat} (hw : Laid n w) (hs : Sized n P w) (hi : w.initialized = true)
    (hfits : liveMapFits w.getSectorSize (w.getFlashSize / w.getSectorSize) pg = true) :
    (∃ x, (start t pg w).openVolume = some (x, none) ∧ ∀ b, ¬Opens t pg b w) ∨
      ∃ b, Opens t pg b w ∧ (start t pg w).openVolume =
        some ({ start t pg w with
          sSec := w.bootBuf t
          sDataStart := b.dataStart w.cfg.flashSectorSize
          sNclusters := b.nclusters w.cfg.flashSectorSize }, some b) := by
  have hread := boot_readSec hw hs hi t pg
  have hsec : (start t pg w).sSs = w.cfg.flashSectorSize := hw.sector_eq
  obtain ⟨b, hb⟩ := parseBpb_some (w.bootBuf t)
  unfold openVolume
  rw [hread]
  dsimp only
  rw [do_some (peek_eq (by decide) _), do_some (peek_eq (by decide) _)]
  by_cases hsig : w.bootBuf t 510 ≠ 0x55 ∨ w.bootBuf t 511 ≠ 0xAA
  · refine .inl ⟨_, if_pos hsig, fun b' h => ?_⟩
    rcases hsig with hs | hs
    · exact hs h.signature.1
    · exact hs h.signature.2
  rw [if_neg hsig, do_some hb, hsec]
  rw [not_or, not_not, not_not] at hsig
  by_cases hacc : b.accepted w.cfg.flashSectorSize = true
  · exact .inr ⟨b, ⟨hfits, hsig, hb, hacc⟩, if_pos hacc⟩
  · refine .inl ⟨_, if_neg hacc, fun b' h => hacc ?_⟩
    have hbb : b' = b := Option.some.inj (h.record.symm.trans hb)
    exact hbb ▸ h.accepted

/-! ## the sectors of the chip -/

theorem Sized.sectors_le {P : Nat} (hw : Laid n w) (hs : Sized n P w) :
    n + 4 ≤ P / w.ss ∧ (w.ss < 64 + 16 * (P / w.ss) → n + 6 ≤ P / w.ss) := by
  have hss := hw.ss_pos
  have h1 : (n + 1) * w.ss ≤ w.addrState1.toNat := by
    rw [← hs.last]
    exact Nat.div_mul_le_self _ _
  have h2 := hw.second
  have h3 := hw.third
  have h4 := hs.ends
  obtain ⟨h5, h6⟩ := hs.areas
  refine ⟨?_, fun h => ?_⟩
  · rw [Nat.le_div_iff_mul_le hss, Nat.add_mul]
    rw [Nat.succ_mul] at h1
    omega
  · have h7 := hs.states h
    rw [Nat.le_div_iff_mul_le hss, Nat.add_mul]
    rw [Nat.succ_mul] at h1
    omega

/-- A chip whose state copies fit one sector each: the three areas are the last three sectors. -/
theorem Sized.areas_eq {sc : Nat} (hw : Laid n w) (hs : Sized n (w.ss * sc % 2 ^ 32) w)
    (hmax : w.ss ≤ 4096) (h : 64 + 16 * sc ≤ w.ss) : n + 4 = sc ∧ w.stateSize.toNat = w.ss ∧
      w.cfgSize.toNat = w.ss ∧ w.addrState1.toNat = (n + 1) * w.ss := by
  have hss := hw.ss_pos
  have hlt : w.ss * sc ≤ 4096 * 252 := Nat.mul_le_mul hmax (by omega)
  have hP : w.ss * sc % 2 ^ 32 = w.ss * sc := Nat.mod_eq_of_lt (by omega)
  have hq : w.ss * sc / w.ss = sc := Nat.mul_div_cancel_left _ hss
  rw [hP] at hs
  have h1 := hs.state (by rw [hq]; exact h)
  have h2 := hs.config (by omega)
  have h3 := hw.second
  have h4 := hw.third
  have h5 := hs.ends
  have h6 := (hs.sectors_le hw).1
  rw [hq] at h6
  have h7 : w.addrState1.toNat = (sc - 3) * w.ss := by
    rw [Nat.sub_mul, Nat.mul_comm sc]
    omega
  have h8 := hs.last
  rw [h7, Nat.mul_div_cancel _ hss] at h8
  exact ⟨by omega, h1, h2, by rw [h7, h8]⟩

/-- The layer takes the last three sectors if a state copy fits one; else the map, which always
counts three, misses some. -/
theorem Sized.exact_iff {sc : Nat} (hw : Laid n w) (hs : Sized n (w.ss * sc % 2 ^ 32) w)
    (hmax : w.ss ≤ 4096) : n + 4 ≤ sc ∧ (n + 4 = sc ↔ 64 + 16 * sc ≤ w.ss) := by
  obtain ⟨h1, h2⟩ := hs.sectors_le hw
  have hq : w.ss * sc % 2 ^ 32 / w.ss ≤ sc := by
    refine Nat.div_le_of_le_mul ?_
    exact Nat.mod_le _ _
  refine ⟨Nat.le_trans h1 hq, fun h => ?_, fun h => (hs.areas_eq hw hmax h).1⟩
  have hsc : w.ss * sc % 2 ^ 32 / w.ss = sc := by omega
  rw [hsc] at h2
  by_contra hbig
  have := h2 (by omega)
  omega

/-! ## the map of the chip -/

/-- The bytes of the configuration and the two state copies. -/
def Reserved (w : WlFlash) (a : Nat) : Prop :=
  (w.addrState1.toNat ≤ a ∧ a < w.addrState1.toNat + w.stateSize.toNat) ∨
    (w.addrState2.toNat ≤ a ∧ a < w.addrState2.toNat + w.stateSize.toNat) ∨
    (w.addrCfg.toNat ≤ a ∧ a < w.addrCfg.toNat + w.cfgSize.toNat)

/-- Every page of the chip has a class from 0 to 5, class 4 where the layer keeps its own data. -/
def Covers (pages pageSize : Nat) (w : WlFlash) (out : Out) : Prop :=
  ∀ p < pages, ∃ v, out p = some v ∧ v ≤ 5 ∧ (v = clsWl ↔ w.Reserved (p * pageSize))

/-- The result of a call over a chip of `pages` pages is in order: no access has left its array and,
unless the call returned an error, the map covers the chip. -/
def MapsChip (t : InspectStatics) (pages : Nat) (pg : UInt32) (w : WlFlash) : Prop :=
  ∃ r, ffLiveMap t pages pg (some w) = some r ∧ ∀ out, r.2 = some out → w.Covers pages pg.toNat out

theorem pages_eq {sc : Nat} (hdvd : pg.toNat ∣ w.ss) :
    w.ss * sc / pg.toNat = sc * (w.ss / pg.toNat) := by
  rw [Nat.mul_comm, Nat.mul_div_assoc _ hdvd]

theorem Laid.reserved_iff (hw : Laid n w) (hst : w.stateSize.toNat = w.ss)
    (hcf : w.cfgSize.toNat = w.ss) (h1 : w.addrState1.toNat = (n + 1) * w.ss) :
    w.addrState1.toNat / w.ss = n + 1 ∧ w.addrState2.toNat / w.ss = n + 2 ∧
      w.addrCfg.toNat / w.ss = n + 3 ∧
      ∀ a, w.Reserved a ↔ a / w.ss = n + 1 ∨ a / w.ss = n + 2 ∨ a / w.ss = n + 3 := by
  have hss := hw.ss_pos
  have h2 : w.addrState2.toNat = (n + 2) * w.ss := by
    rw [hw.second, hst, h1, ← Nat.succ_mul]
  have h3 : w.addrCfg.toNat = (n + 3) * w.ss := by
    rw [hw.third, hst, h2, ← Nat.succ_mul]
  unfold Reserved
  rw [hst, hcf, h1, h2, h3]
  exact ⟨Nat.mul_div_cancel _ hss, Nat.mul_div_cancel _ hss, Nat.mul_div_cancel _ hss, fun a => by
    rw [block_iff hss, block_iff hss, block_iff hss]⟩

theorem final_le {v : UInt8} (h : Final v) : v ≤ 5 := by
  rcases h with rfl | rfl | rfl | rfl | rfl <;> decide

theorem Opens.live_map {P pages : Nat} (h : Opens t pg b w) (hw : Laid n w) (hs : Sized n P w)
    (hi : w.initialized = true) (hfit : (n + 4) * (w.ss / pg.toNat) ≤ pages) :
    ∃ y : Walk, y.Bounded ∧ y.ndev.toNat = n + 4 ∧ y.ppp = w.ss / pg.toNat ∧
      (∀ s, y.Pinned s ↔ s = w.addrState1.toNat / w.ss ∨ s = w.addrState2.toNat / w.ss ∨
        s = w.addrCfg.toNat / w.ss) ∧
      ((b.nclusters w.cfg.flashSectorSize + 2).toNat ≤ 0xAAAAAAAA →
        ∃ r out, ffLiveMap t pages pg (some w) = some (r, some out) ∧ y.Mapped (n + 4) out) ∧
      (¬(b.nclusters w.cfg.flashSectorSize + 2).toNat ≤ 0xAAAAAAAA →
        ffLiveMap t pages pg (some w) = none) := by
  obtain ⟨hb, hss, hn, -, -⟩ := hw.start_bounded (t := t) hi h.fits
  rcases open_eq (t := t) hw hs hi h.fits with ⟨-, -, hno⟩ | ⟨b', h', hopen⟩
  · exact absurd h (hno b)
  have hbb : b' = b := Option.some.inj (h'.record.symm.trans h.record)
  subst hbb
  have hacc := h.accepted
  simp only [Bpb.accepted, Bool.and_eq_true, bne_iff_ne] at hacc
  generalize hx : ({ Walk.start t pg w with
    sSec := w.bootBuf t
    sDataStart := b'.dataStart w.cfg.flashSectorSize
    sNclusters := b'.nclusters w.cfg.flashSectorSize } : Walk) = x at hopen
  have hxb : x.Bounded := by
    rw [← hx]
    exact { hb with }
  have hxn : x.ndev.toNat = n + 4 := by
    rw [hxb.ndev_toNat, ← hx]
    exact congrArg (· + 4) hn
  have hxp : x.ppp = w.ss / pg.toNat := by
    rw [x.ppp_eq, ← hx, ← hss]
    rfl
  have hxpin : ∀ s, x.Pinned s ↔ s = w.addrState1.toNat / w.ss ∨ s = w.addrState2.toNat / w.ss ∨
      s = w.addrCfg.toNat / w.ss := by
    intro s
    unfold Walk.Pinned
    rw [UInt32.toNat_div, UInt32.toNat_div, UInt32.toNat_div, ← hx, ← hss]
    rfl
  have hxc : x.sNclusters = b'.nclusters w.cfg.flashSectorSize := by rw [← hx]
  obtain ⟨y, hfat, hyb, hylen, hyc, hyn, hyp, hypin⟩ :=
    readFat_eq hxb (parseBpb_fatsz h.record) hacc.2
  have hrun : ffLiveMap t pages pg (some w) =
      (y.classify pages b').map fun r => (some (r.1.wl.setQuiet false), some r.2) := by
    unfold ffLiveMap
    dsimp only
    rw [h.fits, hopen]
    dsimp only [Bool.not_true, Bool.false_eq_true, if_false]
    rw [hfat]
    rfl
  have htame : y.Tame ↔ (b'.nclusters w.cfg.flashSectorSize + 2).toNat ≤ 0xAAAAAAAA := by
    unfold Tame
    rw [hyc, hxc]
  refine ⟨y, hyb, hyn ▸ hxn, hyp.trans hxp, fun s => hypin ▸ hxpin s, fun ht => ?_, fun ht => ?_⟩
  · have hpages : y.ndev.toNat * y.ppp ≤ pages := by
      rw [hyn, hxn, hyp, hxp]
      exact hfit
    obtain ⟨r, hr, hm⟩ := classify_mapped b' hyb (htame.mpr ht) hpages
    rw [hyn, hxn] at hm
    refine ⟨some (r.1.wl.setQuiet false), r.2, ?_, hm⟩
    rw [hrun, hr]
    rfl
  · have hnone : y.classify pages b' = none := by
      unfold classify logical
      rw [provisional_none hyb hylen (fun h => ht (htame.mp h))]
      rfl
    rw [hrun, hnone]
    rfl

/-- A chip is covered when its reserved areas are single sectors and its volume is not too large. -/
theorem Opens.maps_iff {sc : Nat} (h : Opens t pg b w) (hw : Laid n w)
    (hs : Sized n (w.ss * sc % 2 ^ 32) w) (hi : w.initialized = true) :
    w.MapsChip t (w.ss * sc / pg.toNat) pg ↔
      64 + 16 * sc ≤ w.ss ∧ (b.nclusters w.cfg.flashSectorSize + 2).toNat ≤ 0xAAAAAAAA := by
  obtain ⟨-, -, -, hmax, hdvd⟩ := hw.start_bounded (t := t) hi h.fits
  obtain ⟨hle, hiff⟩ := hs.exact_iff hw hmax
  have hcount : w.ss * sc / pg.toNat = sc * (w.ss / pg.toNat) := pages_eq hdvd
  have hfit : (n + 4) * (w.ss / pg.toNat) ≤ w.ss * sc / pg.toNat := by
    rw [hcount]
    exact Nat.mul_le_mul_right _ hle
  obtain ⟨y, hyb, hyn, hyp, hypin, htame, hwild⟩ := h.live_map hw hs hi hfit
  have hpos : 0 < w.ss / pg.toNat := hyp ▸ hyb.ppp_pos
  constructor
  · rintro ⟨r, hr, hmaps⟩
    have ht : (b.nclusters w.cfg.flashSectorSize + 2).toNat ≤ 0xAAAAAAAA := by
      by_contra ht
      rw [hwild ht] at hr
      exact nomatch hr
    refine ⟨hiff.mp (Nat.le_antisymm hle ?_), ht⟩
    -- the first page behind the sectors that the map counts
    obtain ⟨v, out, hrun, hm⟩ := htame ht
    rw [hrun] at hr
    cases hr
    by_contra hlt
    have hpage : (n + 4) * (w.ss / pg.toNat) < w.ss * sc / pg.toNat := by
      rw [hcount]
      exact Nat.mul_lt_mul_of_pos_right (by omega) hpos
    obtain ⟨c, hc, -⟩ := hmaps out rfl _ hpage
    have hnone := hm.beyond ((n + 4) * (w.ss / pg.toNat)) (by
      rw [hyn, hyp, Nat.mul_div_cancel _ hpos])
    rw [hnone] at hc
    exact nomatch hc
  · rintro ⟨hone, ht⟩
    obtain ⟨hsc, hst, hcf, h1⟩ := hs.areas_eq hw hmax hone
    obtain ⟨v, out, hrun, hm⟩ := htame ht
    refine ⟨_, hrun, fun out' hout p hp => ?_⟩
    cases hout
    obtain ⟨ha1, ha2, ha3, hres⟩ := hw.reserved_iff hst hcf h1
    have hlt : p / (w.ss / pg.toNat) < n + 4 := by
      rw [hcount, ← hsc] at hp
      exact (Nat.div_lt_iff_lt_mul hpos).mpr hp
    have hsec : p * pg.toNat / w.ss = p / (w.ss / pg.toNat) := by
      conv_lhs => rw [← Nat.div_mul_cancel hdvd]
      exact Nat.mul_div_mul_right _ _ (Nat.pos_of_dvd_of_pos hdvd hw.ss_pos)
    have hpin : y.Pinned (p / (w.ss / pg.toNat)) ↔ w.Reserved (p * pg.toNat) := by
      rw [hypin, hres, hsec, ha1, ha2, ha3]
    rw [← hpin]
    rw [← hyp] at hlt ⊢
    by_cases hp : y.Pinned (p / y.ppp)
    · exact ⟨clsWl, hm.pinned p (hyn ▸ hlt) hp, by decide, iff_of_true rfl hp⟩
    · rcases hm.settled _ (hyn ▸ hlt) hp with hs | ⟨hs, -⟩
      · obtain ⟨c, hc, hf⟩ := hs p rfl
        exact ⟨c, hc, final_le hf, iff_of_false (final_ne_wl hf) hp⟩
      · omega

end WlFlash

theorem wlfatUp_sector {ss sc : UInt32} {hal : Hal} {w : WlFlash} (hup : wlfatUp ss sc hal = .ok w) :
    w.cfg.flashSectorSize = ss := by
  unfold wlfatUp at hup
  cases hc : WlFlash.config (wlfatConfig ss sc) ⟨0, ss * sc, ss, hal⟩ with
  | error e =>
    rw [hc] at hup
    exact absurd hup nofun
  | ok v =>
    rw [hc] at hup
    dsimp only at hup
    cases hi : v.init with
    | error e =>
      rw [hi] at hup
      exact absurd hup nofun
    | ok u =>
      rw [hi] at hup
      cases hup
      obtain ⟨crc, -, -, rfl⟩ := WlFlash.config_ok hc
      obtain ⟨hp, -⟩ := WlFlash.init_plan (List.length_replicate ..) rfl hi
      exact congrArg (·.cfg.flashSectorSize) hp

/-- The sectors of a map are at most those that FatFs takes. -/
theorem fits_sector {pg : UInt32} {v : WlFlash}
    (h : liveMapFits v.getSectorSize (v.getFlashSize / v.getSectorSize) pg = true) :
    v.cfg.flashSectorSize.toNat ≤ ffMaxSs := by
  simp only [liveMapFits, Bool.and_eq_true, bne_iff_ne, ne_eq, Bool.not_eq_true',
    decide_eq_false_iff_not, UInt32.lt_iff_toNat_lt] at h
  obtain ⟨⟨⟨⟨⟨⟨hne, -⟩, -⟩, hmax⟩, -⟩, -⟩, -⟩ := h
  unfold WlFlash.getSectorSize at hne hmax
  cases hc : v.configured with
  | false =>
    rw [hc] at hne
    exact absurd rfl hne
  | true =>
    rw [hc] at hmax
    exact Nat.not_lt.mp hmax

/-- A map that the call does not start covers nothing, and is an error. -/
theorem mapsChip_refused {t : InspectStatics} {pages : Nat} {pg : UInt32} {v : WlFlash}
    (h : ¬liveMapFits v.getSectorSize (v.getFlashSize / v.getSectorSize) pg = true) :
    v.MapsChip t pages pg := by
  refine ⟨(some v, none), ?_, fun out hout => nomatch hout⟩
  unfold ffLiveMap
  rw [Bool.not_eq_true] at h
  dsimp only
  rw [h]
  rfl

section
variable {t : InspectStatics} {ss sc pg : UInt32} {hal : Hal} {w v : WlFlash} {b : Bpb}

theorem plan_laid (hgs : hal.dev.geometry.sectorSize = ss.toNat)
    (hgc : hal.dev.geometry.sectorCount = sc.toNat) (hup : wlfatUp ss sc hal = .ok w)
    (hplan : v.plan = w.plan)
    (hfits : liveMapFits v.getSectorSize (v.getFlashSize / v.getSectorSize) pg = true) :
    v.ss = ss.toNat ∧ ∃ n, v.Laid n ∧ v.Sized n (v.ss * sc.toNat % 2 ^ 32) := by
  have hsec : v.cfg.flashSectorSize = ss :=
    (congrArg (·.cfg.flashSectorSize) hplan).trans (wlfatUp_sector hup)
  obtain ⟨n, hw, hs, -⟩ := wlfatUp_sized (hsec ▸ fits_sector hfits) hgs hgc hup
  have hss : v.ss = ss.toNat := congrArg UInt32.toNat hsec
  rw [UInt32.toNat_mul, ← hss] at hs
  exact ⟨hss, n, hw.of_plan hplan, hs.of_plan hplan⟩

theorem opens_maps_iff (hgs : hal.dev.geometry.sectorSize = ss.toNat)
    (hgc : hal.dev.geometry.sectorCount = sc.toNat) (hup : wlfatUp ss sc hal = .ok w)
    (hplan : v.plan = w.plan) (hi : v.initialized = true) (h : v.Opens t pg b) :
    v.MapsChip t (ss.toNat * sc.toNat / pg.toNat) pg ↔ 64 + 16 * sc.toNat ≤ ss.toNat ∧
      (b.nclusters ss + 2).toNat ≤ 0xAAAAAAAA := by
  obtain ⟨hss, n, hw, hs⟩ := plan_laid hgs hgc hup hplan h.fits
  have hsec : v.cfg.flashSectorSize = ss := UInt32.toNat_inj.mp hss
  rw [← hss, ← hsec]
  exact h.maps_iff hw hs hi

/-- **When the live map covers the chip**: over any chip that `wlfat_up` accepts, whatever it holds
then and later (`v`), the call stays inside its arrays and covers every page if and only if, for the
boot record that it accepts, each state copy of the layer fits one sector and no cluster number is
beyond `0xAAAAAAA9`. -/
theorem live_map_covers (hgs : hal.dev.geometry.sectorSize = ss.toNat)
    (hgc : hal.dev.geometry.sectorCount = sc.toNat) (hup : wlfatUp ss sc hal = .ok w)
    (hplan : v.plan = w.plan) (hi : v.initialized = true) :
    v.MapsChip t (ss.toNat * sc.toNat / pg.toNat) pg ↔
      ∀ b, v.Opens t pg b → 64 + 16 * sc.toNat ≤ ss.toNat ∧
        (b.nclusters ss + 2).toNat ≤ 0xAAAAAAAA := by
  by_cases hfits : liveMapFits v.getSectorSize (v.getFlashSize / v.getSectorSize) pg = true
  swap
  · exact iff_of_true (mapsChip_refused hfits) fun b hb => absurd hb.fits hfits
  by_cases hopen : ∃ b, v.Opens t pg b
  · obtain ⟨b, hb⟩ := hopen
    rw [opens_maps_iff hgs hgc hup hplan hi hb]
    refine ⟨fun h b' hb' => ?_, fun h => h b hb⟩
    have hbb : b' = b := Option.some.inj (hb'.record.symm.trans hb.record)
    rw [hbb]
    exact h
  · refine iff_of_true ?_ fun b hb => absurd ⟨b, hb⟩ hopen
    obtain ⟨-, n, hw, hs⟩ := plan_laid hgs hgc hup hplan hfits
    rcases WlFlash.open_eq (t := t) hw hs hi hfits with ⟨x, hx, -⟩ | ⟨b, hb, -⟩
    · refine ⟨(some (x.wl.setQuiet false), none), ?_, fun out hout => nomatch hout⟩
      unfold ffLiveMap
      dsimp only
      rw [hfits, hx]
      rfl
    · exact absurd ⟨b, hb⟩ hopen

end

theorem WlFlash.exists_opens {v : WlFlash} {t : InspectStatics} {pg : UInt32}
    (hfits : liveMapFits v.getSectorSize (v.getFlashSize / v.getSectorSize) pg = true)
    (hsig : v.bootBuf t 510 = 0x55 ∧ v.bootBuf t 511 = 0xAA)
    (hacc : (Walk.parseBpb (v.bootBuf t)).all (·.accepted v.cfg.flashSectorSize) = true) :
    ∃ b, v.Opens t pg b := by
  obtain ⟨b, hb⟩ := Walk.parseBpb_some (v.bootBuf t)
  rw [hb, Option.all_some] at hacc
  exact ⟨b, hfits, hsig, hb, hacc⟩

/-! ## chips of 256 KiB and 1 MiB -/

/-- A chip of 64 sectors of 4 KiB: a state copy fits one of them. -/
def mediumChip : Hal := { dev := createNorDevice ⟨4096, 64, 256, 16⟩ }

/-- A chip of 256 sectors of 4 KiB: a state copy takes two of them. -/
def largeChip : Hal := { dev := createNorDevice ⟨4096, 256, 256, 16⟩ }

theorem mediumChip_up : (wlfatUp 4096 64 mediumChip).toOption.isSome = true := by decide +kernel

theorem largeChip_up : (wlfatUp 4096 256 largeChip).toOption.isSome = true := by decide +kernel

def mediumFat : WlFlash := (wlfatUp 4096 64 mediumChip).toOption.get mediumChip_up

def largeFat : WlFlash := (wlfatUp 4096 256 largeChip).toOption.get largeChip_up

theorem mediumFat_up : wlfatUp 4096 64 mediumChip = .ok mediumFat := Except.eq_ok_get mediumChip_up

theorem largeFat_up : wlfatUp 4096 256 largeChip = .ok largeFat := Except.eq_ok_get largeChip_up

/-- The boot sector of a volume of `n` sectors, on every sector. -/
def bootImage (n : UInt8) : Flash := fun a =>
  (([(11, 0x00), (12, 0x10), (13, 1), (14, 1), (16, 1), (17, 0x80), (19, n), (22, 1), (510, 0x55),
    (511, 0xAA)] : List (Nat × UInt8)).lookup (a % 4096)).getD 0

/-- The layer over other bytes of the chip. -/
def WlFlash.setFlash (flash : Flash) (w : WlFlash) : WlFlash :=
  w.setHal { w.partition.hal with dev := { w.dev with flash := flash } }

theorem WlFlash.setFlash_plan (flash : Flash) (w : WlFlash) : (w.setFlash flash).plan = w.plan := rfl

/-- The chips, formatted. -/
def mediumVolume : WlFlash := mediumFat.setFlash (bootImage 60)

def largeVolume : WlFlash := largeFat.setFlash (bootImage 250)

/-- The statics before the first call. -/
def noStatics : InspectStatics := ⟨fun _ => 0, fun _ => 0, fun _ => 0⟩

theorem mediumVolume_initialized : mediumVolume.initialized = true := by decide +kernel

theorem largeVolume_initialized : largeVolume.initialized = true := by decide +kernel

theorem mediumVolume_plan : mediumVolume.plan = mediumFat.plan :=
  WlFlash.setFlash_plan (bootImage 60) mediumFat

theorem largeVolume_plan : largeVolume.plan = largeFat.plan :=
  WlFlash.setFlash_plan (bootImage 250) largeFat

theorem mediumVolume_opens : ∃ b, mediumVolume.Opens noStatics 256 b :=
  WlFlash.exists_opens (by decide +kernel) (by decide +kernel) (by decide +kernel)

theorem largeVolume_opens : ∃ b, largeVolume.Opens noStatics 256 b :=
  WlFlash.exists_opens (by decide +kernel) (by decide +kernel) (by decide +kernel)

theorem mediumVolume_clusters : (Walk.parseBpb (mediumVolume.bootBuf noStatics)).all
    (fun b => decide ((b.nclusters 4096 + 2).toNat ≤ 0xAAAAAAAA)) = true := by decide +kernel

/-- Every page of the smaller chip is covered, not so of the larger one. -/
theorem live_map_covers_medium : (∃ b, mediumVolume.Opens noStatics 256 b) ∧
    mediumVolume.MapsChip noStatics
      ((4096 : UInt32).toNat * (64 : UInt32).toNat / (256 : UInt32).toNat) 256 ∧
    ¬largeVolume.MapsChip noStatics
      ((4096 : UInt32).toNat * (256 : UInt32).toNat / (256 : UInt32).toNat) 256 := by
  refine ⟨mediumVolume_opens, ?_, ?_⟩
  · refine (live_map_covers rfl rfl mediumFat_up mediumVolume_plan
      mediumVolume_initialized).mpr fun b hb => ⟨by decide, ?_⟩
    have hc := mediumVolume_clusters
    rw [hb.record, Option.all_some] at hc
    exact of_decide_eq_true hc
  · intro h
    obtain ⟨b, hb⟩ := largeVolume_opens
    have hone := ((live_map_covers rfl rfl largeFat_up largeVolume_plan
      largeVolume_initialized).mp h b hb).1
    exact absurd hone (by decide)

theorem live_map_misses_pages : ¬∀ (t : InspectStatics) (ss sc pg : UInt32) (hal : Hal) (w v : WlFlash),
    hal.dev.geometry.sectorSize = ss.toNat → hal.dev.geometry.sectorCount = sc.toNat →
    wlfatUp ss sc hal = .ok w → v.plan = w.plan → v.initialized = true →
    v.MapsChip t (ss.toNat * sc.toNat / pg.toNat) pg := by
  intro h
  obtain ⟨b, hb⟩ := largeVolume_opens
  have hmaps := h noStatics 4096 256 256 largeChip largeFat largeVolume rfl rfl
    largeFat_up largeVolume_plan largeVolume_initialized
  have hone := ((opens_maps_iff rfl rfl largeFat_up largeVolume_plan
    largeVolume_initialized hb).mp hmaps).1
  exact absurd hone (by decide)

end FlashVis
