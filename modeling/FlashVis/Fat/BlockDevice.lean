import FlashVis.Fat.Fresh

/-!
# The block device that FatFs sees

* `DiskOp`, `lastWrite`          the calls of FatFs, and what was last written to a sector;
* `diskWrite_holding`, `diskRead_holding`   one call;
* `WlFlash.Apart`                no two logical sectors share a physical one, and none is reserved;
* `fat_block_device`             a run of calls reads back what was last written.
-/

namespace FlashVis

/-- A call of FatFs, with the buffer it passes. -/
inductive DiskOp where
  | read (sector count : UInt32) (buff : List UInt8)
  | write (buff : List UInt8) (sector count : UInt32)

namespace DiskOp

/-- At least one sector, all of a volume of `n`, and a buffer of their size. -/
def InRange (n ss : Nat) : DiskOp → Prop
  | read s c b | write b s c => 1 ≤ c.toNat ∧ s.toNat + c.toNat ≤ n ∧ b.length = c.toNat * ss

instance (n ss : Nat) : DecidablePred (InRange n ss)
  | read _ _ _ | write _ _ _ => inferInstanceAs (Decidable (_ ∧ _ ∧ _))

def apply (g : Option WlFlash) : DiskOp → Option WlFlash
  | read s c b => (diskRead s c b g).2.1
  | write b s c => (diskWrite b s c g).2

/-- What the call writes to sector `k`, if it covers it. -/
def writes (ss k : Nat) : DiskOp → Option (List UInt8)
  | read _ _ _ => none
  | write b s c =>
    if s.toNat ≤ k ∧ k < s.toNat + c.toNat then some ((b.drop ((k - s.toNat) * ss)).take ss)
    else none

end DiskOp

/-- The bytes of the last write that covered sector `k`. -/
def lastWrite (ss : Nat) (ops : List DiskOp) (k : Nat) : Option (List UInt8) :=
  ops.reverse.findSome? (·.writes ss k)

/-- What sector `k` should hold: what was last written to it, or blank bytes. -/
def sectorBytes (ss : Nat) (ops : List DiskOp) (k : Nat) : List UInt8 :=
  (lastWrite ss ops k).getD (List.replicate ss 0xff)

theorem sectorBytes_concat (ss : Nat) (ops : List DiskOp) (op : DiskOp) (k : Nat) :
    sectorBytes ss (ops ++ [op]) k = (op.writes ss k).getD (sectorBytes ss ops k) := by
  unfold sectorBytes lastWrite
  rw [List.reverse_append, List.reverse_singleton, List.singleton_append, List.findSome?_cons]
  cases op.writes ss k <;> rfl

theorem sectorBytes_length {n ss : Nat} {ops : List DiskOp} (hin : ∀ op ∈ ops, op.InRange n ss)
    (k : Nat) : (sectorBytes ss ops k).length = ss := by
  unfold sectorBytes
  cases h : lastWrite ss ops k with
  | none => exact List.length_replicate ..
  | some b =>
    obtain ⟨op, hop, hw⟩ := List.exists_of_findSome?_eq_some h
    have hr := hin op (List.mem_reverse.mp hop)
    cases op with
    | read s c d => exact absurd hw nofun
    | write d s c =>
      simp only [DiskOp.writes, Option.ite_none_right_eq_some, Option.some.injEq] at hw
      obtain ⟨hk, rfl⟩ := hw
      exact WlFlash.chunk_length hr.2.2 (by omega)

namespace WlFlash
variable {n : Nat} {w v : WlFlash} {C : Nat → Nat → UInt8}

/-- The logical sectors that FatFs is told of. -/
def sectors (w : WlFlash) : Nat := (w.getFlashSize / w.getSectorSize).toNat

theorem Laid.sectors_eq (hw : Laid n w) : w.sectors = n := by
  unfold sectors getFlashSize getSectorSize
  rw [hw.configured]
  show (w.flashSize / w.cfg.flashSectorSize).toNat = n
  rw [UInt32.toNat_div, hw.room]
  exact Nat.mul_div_cancel _ hw.ss_pos

/-! ## one call -/

theorem Laid.getSectorSize_eq (hw : Laid n w) : w.getSectorSize = w.cfg.flashSectorSize := by
  unfold getSectorSize
  rw [hw.configured]
  rfl

theorem Laid.getSectorSize_ne (hw : Laid n w) : ¬w.cfg.flashSectorSize = 0 := by
  intro h
  have hpos := hw.ss_pos
  unfold ss at hpos
  rw [h] at hpos
  exact absurd hpos (by decide)

theorem Laid.bytes_toNat (hw : Laid n w) {count : UInt32} (hc : count.toNat ≤ n) :
    (count * w.cfg.flashSectorSize).toNat = count.toNat * w.ss :=
  hw.sector_toNat rfl hc

/-- **`disk_write`** leaves the buffer in the sectors of its range. -/
theorem diskWrite_holding (h : Holding n C w) {s c : UInt32} {b : List UInt8}
    (hr : (DiskOp.write b s c).InRange n w.ss) : ∃ v, diskWrite b s c (some w) = (.ok, some v) ∧
      v.layout = w.layout ∧ Holding n (fun k o =>
        if s.toNat ≤ k ∧ k < s.toNat + c.toNat then b.getD ((k - s.toNat) * w.ss + o) 0xff
        else C k o) v := by
  obtain ⟨hi, g, hw, -⟩ := id h
  obtain ⟨hc, hin, hlen⟩ := hr
  obtain ⟨v, hv, hvh, hvl⟩ := eraseRange_holding h (Eq.refl s.toNat) (Eq.refl c.toNat) hin
  have hvss : v.ss = w.ss := layout_ss hvl
  have hcfg : v.cfg = w.cfg := congrArg (·.cfg) hvl
  obtain ⟨u, hu, huh, hul⟩ := write_holding hvh (Eq.refl s.toNat) hc hin (by rw [hvss]; exact hlen)
  have htake : b.take (c * w.cfg.flashSectorSize).toNat = b := by
    rw [hw.bytes_toNat (by omega), ← hlen]
    exact List.take_length
  refine ⟨u, ?_, hul.trans hvl, huh.congr fun k _ o _ => ?_⟩
  · unfold diskWrite
    simp only [hw.getSectorSize_eq, if_neg hw.getSectorSize_ne, hv, htake]
    rw [hcfg] at hu
    rw [hu]
  · unfold masked
    rw [hvss]
    dsimp only
    by_cases hk : s.toNat ≤ k ∧ k < s.toNat + c.toNat
    · rw [if_pos hk, if_pos hk, if_pos hk]
      exact UInt8.neg_one_and
    · rw [if_neg hk, if_neg hk, if_neg hk]

/-- **`disk_read`** gives what the sectors of its range hold. -/
theorem diskRead_holding (h : Holding n C w) {s c : UInt32} {b : List UInt8}
    (hr : (DiskOp.read s c b).InRange n w.ss) : ∃ v, diskRead s c b (some w) =
        (.ok, some v, (List.range c.toNat).flatMap fun i => (List.range w.ss).map (C (s.toNat + i))) ∧
      v.layout = w.layout ∧ Holding n C v := by
  obtain ⟨hi, g, hw, -⟩ := id h
  obtain ⟨hc, hin, hlen⟩ := hr
  have htake : b.take (c * w.cfg.flashSectorSize).toNat = b := by
    rw [hw.bytes_toNat (by omega), ← hlen]
    exact List.take_length
  have hdrop : b.drop (c * w.cfg.flashSectorSize).toNat = [] := by
    rw [hw.bytes_toNat (by omega), ← hlen]
    exact List.drop_length
  obtain ⟨v, hv, hvh, hvl⟩ := read_holding h (Eq.refl s.toNat) hc hin hlen
  refine ⟨v, ?_, hvl, hvh⟩
  unfold diskRead
  simp only [hw.getSectorSize_eq, if_neg hw.getSectorSize_ne, htake, hdrop, hv, List.append_nil]

/-! ## where the sectors are -/

/-- The physical sector of logical sector `k`, as the inspector computes it. -/
def physSector (k : UInt32) (w : WlFlash) : UInt32 :=
  w.physAddrOf (k * w.getSectorSize) / w.getSectorSize

/-- A physical sector is one of those that a range of bytes touches. -/
def Touches (w : WlFlash) (addr size p : UInt32) : Prop :=
  addr.toNat / w.ss ≤ p.toNat ∧ p.toNat ≤ (addr.toNat + size.toNat - 1) / w.ss

/-- No two logical sectors share a physical one, and none is the dummy or one of the sectors of the
state copies or of the configuration. -/
structure Apart (w : WlFlash) : Prop where
  inj : ∀ j k : UInt32, j.toNat < w.sectors → k.toNat < w.sectors →
    w.physSector j = w.physSector k → j = k
  aligned : ∀ k : UInt32, k.toNat < w.sectors →
    w.physAddrOf (k * w.getSectorSize) = w.physSector k * w.getSectorSize
  dummy : ∀ k : UInt32, k.toNat < w.sectors → w.physSector k ≠ w.state.wlDummySecPos
  state1 : ∀ k : UInt32, k.toNat < w.sectors → ¬w.Touches w.addrState1 w.stateSize (w.physSector k)
  state2 : ∀ k : UInt32, k.toNat < w.sectors → ¬w.Touches w.addrState2 w.stateSize (w.physSector k)
  config : ∀ k : UInt32, k.toNat < w.sectors → ¬w.Touches w.addrCfg w.cfgSize (w.physSector k)

theorem Placed.physSector_toNat {g : Gap n} (hw : Placed g w) {k : UInt32} (hk : k.toNat < n) :
    (w.physAddrOf (k * w.getSectorSize)).toNat = g.place k.toNat * w.ss ∧
      (w.physSector k).toNat = g.place k.toNat := by
  have haddr := calcAddr_place hw hk (hw.sector_toNat rfl (Nat.le_of_lt hk))
  unfold physSector physAddrOf
  rw [hw.getSectorSize_eq]
  refine ⟨?_, hw.div_toNat haddr⟩
  rw [hw.start, UInt32.zero_add]
  exact haddr

/-- What lies behind the data is touched by no place of the gap. -/
theorem Laid.not_touches (hw : Laid n w) {addr size p : UInt32}
    (haddr : w.addrState1.toNat ≤ addr.toNat) (hp : p.toNat ≤ n) : ¬w.Touches addr size p := by
  rintro ⟨h, -⟩
  have hle : n + 1 ≤ addr.toNat / w.ss :=
    (Nat.le_div_iff_mul_le hw.ss_pos).mpr (Nat.le_trans hw.below haddr)
  omega

theorem Placed.apart {g : Gap n} (hw : Placed g w) : Apart w := by
  have hsec := hw.sectors_eq
  have h2 := hw.second
  have h3 := hw.third
  have hle : ∀ k : UInt32, k.toNat < w.sectors → (w.physSector k).toNat ≤ n := by
    intro k hk
    rw [(hw.physSector_toNat (hsec ▸ hk)).2]
    exact g.place_le _
  refine ⟨fun j k hj hk hjk => ?_, fun k hk => ?_, fun k hk hd => ?_, fun k hk => ?_,
    fun k hk => ?_, fun k hk => ?_⟩
  · rw [hsec] at hj hk
    refine UInt32.toNat_inj.mp (g.place_inj hj hk ?_)
    rw [← (hw.physSector_toNat hj).2, ← (hw.physSector_toNat hk).2, hjk]
  · obtain ⟨h1, h2⟩ := hw.physSector_toNat (hsec ▸ hk)
    refine UInt32.toNat_inj.mp (h1.trans ?_)
    rw [hw.getSectorSize_eq, hw.sector_toNat h2 (g.place_le _)]
  · refine g.place_ne_hole k.toNat ?_
    rw [← (hw.physSector_toNat (hsec ▸ hk)).2, hd, hw.dummy]
  · exact hw.not_touches (Nat.le_refl _) (hle k hk)
  · exact hw.not_touches (by omega) (hle k hk)
  · exact hw.not_touches (by omega) (hle k hk)

/-! ## a run of calls -/

/-- After the calls `ops` every sector holds what was last written to it. -/
theorem run_holding (h : Holding n (fun _ _ => 0xff) w) {ops : List DiskOp}
    (hin : ∀ op ∈ ops, op.InRange n w.ss) : ∃ v, ops.foldl DiskOp.apply (some w) = some v ∧
      v.layout = w.layout ∧ Holding n (fun k o => (sectorBytes w.ss ops k).getD o 0xff) v := by
  induction ops using List.reverseRecOn with
  | nil =>
    refine ⟨w, rfl, rfl, h.congr fun k _ o ho => ?_⟩
    show _ = (List.replicate w.ss 0xff).getD o 0xff
    rw [List.getD_eq_getElem?_getD, List.getElem?_replicate, if_pos ho]
    rfl
  | append_singleton ops op ih =>
    obtain ⟨v, hv, hl, hh⟩ := ih fun o ho => hin o (List.mem_append_left _ ho)
    have hss : v.ss = w.ss := layout_ss hl
    have hop := hin op (List.mem_append_right _ (List.mem_singleton_self op))
    rw [List.foldl_append, hv, List.foldl_cons, List.foldl_nil]
    rw [← hss] at hop
    cases op with
    | read s c b =>
      obtain ⟨u, hu, hul, huh⟩ := diskRead_holding hh hop
      refine ⟨u, ?_, hul.trans hl, huh.congr fun k _ o _ => ?_⟩
      · show (diskRead s c b (some v)).2.1 = _
        rw [hu]
      · rw [sectorBytes_concat]
        rfl
    | write b s c =>
      obtain ⟨u, hu, hul, huh⟩ := diskWrite_holding hh hop
      refine ⟨u, ?_, hul.trans hl, huh.congr fun k _ o ho => ?_⟩
      · show (diskWrite b s c (some v)).2 = _
        rw [hu]
      · have ho' : o < w.ss := by
          rw [← hss, ← layout_ss hul]
          exact ho
        rw [sectorBytes_concat, hss]
        show _ = ((if s.toNat ≤ k ∧ k < s.toNat + c.toNat then
          some ((b.drop ((k - s.toNat) * w.ss)).take w.ss) else none).getD _).getD o 0xff
        by_cases hk : s.toNat ≤ k ∧ k < s.toNat + c.toNat
        · rw [if_pos hk, if_pos hk, Option.getD_some, chunk_getD ho']
        · rw [if_neg hk, if_neg hk, Option.getD_none]

end WlFlash

theorem map_getD_range (b : List UInt8) : (List.range b.length).map (b.getD · 0xff) = b := by
  refine List.ext_getElem (by simp) fun i h1 h2 => ?_
  simp [List.getD_eq_getElem?_getD, h2]

/-- What a volume of `w`'s sectors answers: every call succeeds, a read gives for each sector the
bytes last written to it, and the sectors lie apart on the chip. -/
structure BlockDevice (ops : List DiskOp) (w : WlFlash) : Prop where
  reads : ∀ (s c : UInt32) (b : List UInt8), (DiskOp.read s c b).InRange w.sectors w.ss →
    (diskRead s c b (some w)).1 = .ok ∧ (diskRead s c b (some w)).2.2 =
      (List.range c.toNat).flatMap fun i => sectorBytes w.ss ops (s.toNat + i)
  writes : ∀ (s c : UInt32) (b : List UInt8), (DiskOp.write b s c).InRange w.sectors w.ss →
    (diskWrite b s c (some w)).1 = .ok
  apart : w.Apart

/-- **The FAT block device refines an array of sectors**: after any calls in range over a freshly
initialised layer, each sector reads as last written, wherever the rotation has moved it.  FatFs
refuses to format or mount a chip of sectors larger than `FF_MAX_SS` before its first call. -/
theorem fat_block_device {ss sc : UInt32} {hal : Hal} {w : WlFlash} (hmax : ss.toNat ≤ ffMaxSs)
    (hgs : hal.dev.geometry.sectorSize = ss.toNat) (hgc : hal.dev.geometry.sectorCount = sc.toNat)
    (hblank : hal.dev.flash = blankFlash) (hup : wlfatUp ss sc hal = .ok w) (ops : List DiskOp)
    (hin : ∀ op ∈ ops, op.InRange w.sectors w.ss) :
    ∃ v, ops.foldl DiskOp.apply (some w) = some v ∧ v.sectors = w.sectors ∧ v.ss = w.ss ∧
      BlockDevice ops v := by
  obtain ⟨n, hw, -⟩ := wlfatUp_holding hmax hgs hgc hblank hup
  have hsec : w.sectors = n := by
    obtain ⟨-, g, hp, -⟩ := hw
    exact hp.sectors_eq
  rw [hsec] at hin ⊢
  obtain ⟨v, hv, hl, hh⟩ := WlFlash.run_holding hw hin
  have hss : v.ss = w.ss := WlFlash.layout_ss hl
  obtain ⟨g, hp⟩ : ∃ g : Gap n, WlFlash.Placed g v := by
    obtain ⟨-, g, hp, -⟩ := hh
    exact ⟨g, hp⟩
  refine ⟨v, hv, hp.sectors_eq, hss, fun s c b hr => ?_, fun s c b hr => ?_, hp.apart⟩
  · rw [hp.sectors_eq] at hr
    obtain ⟨u, hu, -, -⟩ := WlFlash.diskRead_holding hh hr
    rw [hu]
    refine ⟨rfl, ?_⟩
    show (List.range c.toNat).flatMap _ = _
    congr 1
    funext i
    have hlen := sectorBytes_length hin (s.toNat + i)
    rw [hss]
    conv_rhs => rw [← map_getD_range (sectorBytes w.ss ops (s.toNat + i)), hlen]
  · rw [hp.sectors_eq] at hr
    obtain ⟨u, hu, -, -⟩ := WlFlash.diskWrite_holding hh hr
    rw [hu]

/-- A layer over a blank chip of ten small sectors. -/
def smallChip : Hal := { dev := createNorDevice ⟨96, 10, 32, 4⟩ }

theorem smallChip_up : (wlfatUp 96 10 smallChip).toOption.isSome = true := by decide +kernel

theorem Except.eq_ok_get {ε α : Type} {e : Except ε α} (h : e.toOption.isSome = true) :
    e = .ok (e.toOption.get h) := by
  cases e with
  | error e => exact absurd h nofun
  | ok a => rfl

def smallLayer : WlFlash := (wlfatUp 96 10 smallChip).toOption.get smallChip_up

/-- Seventeen erases: the last write turns the sectors before the first of its two. -/
def turning : List DiskOp :=
  .write (List.replicate 96 7) 1 1 ::
    List.replicate 8 (.write (List.replicate 96 8 ++ List.replicate 96 9) 0 2)

theorem fat_block_device_turning :
    ∃ v, turning.foldl DiskOp.apply (some smallLayer) = some v ∧ v.sectors = smallLayer.sectors ∧
      v.ss = smallLayer.ss ∧ BlockDevice turning v :=
  fat_block_device (by decide) rfl rfl rfl (Except.eq_ok_get smallChip_up) turning
    (by decide +kernel)

end FlashVis
