import FlashVis.Fat.Rotate

/-!
# What the logical sectors hold

* `WlFlash.Holding`       what the logical sectors hold, wherever the gap is;
* `turn_holding`, `eraseSector_holding`, `writePage_holding`   what each step makes of it;
* `eraseRange_holding`, `write_holding`, `read_holding`   and each call of the layer.
-/

namespace FlashVis
namespace WlFlash
variable {n : Nat} {w w' : WlFlash} {C : Nat → Nat → UInt8}

/-- Byte `o` of logical sector `k` is `C k o`, wherever sector `k` is. -/
def Holding (n : Nat) (C : Nat → Nat → UInt8) (w : WlFlash) : Prop :=
  w.initialized = true ∧ ∃ g : Gap n, Placed g w ∧
    ∀ k < n, ∀ o < w.ss, w.dev.flash (g.place k * w.ss + o) = C k o

theorem Holding.congr {D : Nat → Nat → UInt8} (h : Holding n C w)
    (hCD : ∀ k < n, ∀ o < w.ss, C k o = D k o) : Holding n D w := by
  obtain ⟨hi, g, hw, hC⟩ := h
  exact ⟨hi, g, hw, fun k hk o ho => (hC k hk o ho).trans (hCD k hk o ho)⟩

theorem div_place {s p o : Nat} (ho : o < s) : (p * s + o) / s = p := by
  rw [Nat.mul_comm, Nat.mul_add_div (by omega), Nat.div_eq_of_lt ho, Nat.add_zero]

/-! ## the rotation -/

/-- The spare sector is erased and the block at the source copied into it. -/
theorem Placed.moved {g : Gap n} (hw : Placed g w) {src dst : UInt32}
    (hs : src.toNat = g.source * w.ss) (hd : dst.toNat = g.hole * w.ss) :
    let v := (w.perase dst w.cfg.wlPageSize).copyBlock src dst
    v.layout = w.layout ∧ v.state = w.state ∧
      ∀ p ≤ n, ∀ o < w.ss, v.dev.flash (p * w.ss + o) =
        w.dev.flash ((if p = g.hole then g.source else p) * w.ss + o) := by
  intro v
  have hpage : w.cfg.wlPageSize.toNat = w.ss := by rw [hw.page]; rfl
  have hu : Laid n (w.perase dst w.cfg.wlPageSize) := hw.toLaid.of_layout perase_layout
  obtain ⟨h1, h2, h3⟩ := hu.copyBlock_copied g.source_le g.hole_le g.source_ne_hole hs hd
  have herase : ∀ a, (w.perase dst w.cfg.wlPageSize).dev.flash a =
      if a / w.ss = g.hole then 0xff else w.dev.flash a := by
    intro a
    show (w.dev.erase (w.partition.startAddr + dst).toNat w.cfg.wlPageSize.toNat).1.flash a = _
    rw [hw.abs, hd, hpage, ← hw.chip]
    exact Device.erase_block (hw.chip ▸ hw.ss_pos) _ _
  refine ⟨h1.trans perase_layout, h2, fun p hp o ho => ?_⟩
  refine (h3 _ (place_lt hp ho)).trans ?_
  show (if g.hole * w.ss ≤ p * w.ss + o ∧ p * w.ss + o < g.hole * w.ss + w.ss then
    (w.perase dst w.cfg.wlPageSize).dev.flash (p * w.ss + o) &&&
      (w.perase dst w.cfg.wlPageSize).dev.flash (g.source * w.ss + (p * w.ss + o - g.hole * w.ss))
    else (w.perase dst w.cfg.wlPageSize).dev.flash (p * w.ss + o)) = _
  by_cases hph : p = g.hole
  · -- blank before the copy
    subst hph
    rw [if_pos (by omega), if_pos rfl, herase, herase, div_place ho, if_pos rfl,
      Nat.add_sub_cancel_left, div_place ho, if_neg g.source_ne_hole]
    exact UInt8.neg_one_and
  · rw [if_neg hph, if_neg, herase, div_place ho, if_neg hph]
    intro ⟨ha1, ha2⟩
    apply hph
    rw [← div_place (p := p) ho]
    exact (Nat.div_eq_iff hw.ss_pos).mpr (by omega)

/-- **A turn of the rotation keeps what the sectors hold.** -/
theorem turn_holding (h : Holding n C w) : Holding n C w.turn ∧ w.turn.layout = w.layout := by
  obtain ⟨hi, g, hw, hC⟩ := h
  have hh := g.hole_le
  have hn : n + 1 < 2 ^ 32 := by
    rw [← hw.partMax]
    exact w.state.wlPartMaxSecPos.toNat_lt
  have hpage : w.cfg.wlPageSize.toNat = w.ss := by rw [hw.page]; rfl
  have hpos : (w.state.wlDummySecPos + 1).toNat = g.hole + 1 := add_toNat hw.dummy rfl (by omega)
  have hnext : (if w.state.wlPartMaxSecPos ≤ w.state.wlDummySecPos + 1 then 0
      else w.state.wlDummySecPos + 1).toNat = g.source := by
    have hlap : w.state.wlPartMaxSecPos ≤ w.state.wlDummySecPos + 1 ↔ n < g.hole + 1 := by
      rw [UInt32.le_iff_toNat_le, hw.partMax, hpos]
      omega
    unfold Gap.source
    by_cases hc : n < g.hole + 1
    · rw [if_pos (hlap.mpr hc), if_pos hc]
      rfl
    · rw [if_neg (fun h => hc (hlap.mp h)), if_neg hc, hpos]
  have hsrc := mul_toNat hnext hpage (by have := hw.mul_lt g.source_le; omega)
  have hdst := mul_toNat hw.dummy hpage (by have := hw.mul_lt hh; omega)
  unfold turn
  dsimp only
  rw [hw.start, UInt32.zero_add, UInt32.zero_add]
  obtain ⟨h1, h2, h3⟩ := hw.moved hsrc hdst
  generalize (perase _ _ _).copyBlock _ _ = v at h1 h2 h3
  have hv : Placed g v := ⟨hw.toLaid.of_layout h1, by rw [h2]; exact hw.partMax,
    by rw [h2]; exact hw.dummy, by rw [h2]; exact hw.moves⟩
  have hm := hv.markTurn_spared (by rw [hv.dummy]; exact hh)
  have hvm : Placed g v.markTurn := ⟨hm.laid hv.toLaid, hv.partMax, hv.dummy, hv.moves⟩
  obtain ⟨ha, hs⟩ := hvm.advance
  have hlay : v.markTurn.advance.layout = w.layout := (hs.layout.trans hm.layout).trans h1
  refine ⟨⟨(layout_initialized hlay).trans hi, g.turn, ha, fun k hk o ho => ?_⟩, hlay⟩
  have hss : v.ss = w.ss := layout_ss h1
  rw [layout_ss hlay] at ho ⊢
  have hp := g.turn.place_le k
  rw [hs.data _ (by rw [hm.ss, hss]; exact place_lt hp ho),
    hm.data _ (by rw [hss]; exact place_lt hp ho), h3 _ hp o ho, ← hC k hk o ho, g.turn_place hk]
  congr 3
  have hne := g.place_ne_hole k
  split <;> simp_all

/-- What the sectors hold does not depend on the erase count. -/
theorem Holding.setCount (h : Holding n C w) (count : UInt32) :
    Holding n C (w.setState { w.state with wlSecEraseCycleCount := count }) := by
  obtain ⟨hi, g, hw, hC⟩ := h
  exact ⟨hi, g, ⟨hw.toLaid.of_layout rfl, hw.partMax, hw.dummy, hw.moves⟩, hC⟩

theorem updateWL_holding (h : Holding n C w) :
    Holding n C w.updateWL ∧ w.updateWL.layout = w.layout := by
  unfold updateWL
  dsimp only
  split
  · exact ⟨h.setCount _, rfl⟩
  · exact turn_holding (h.setCount 0)

/-! ## one sector -/

theorem Laid.sector_toNat (hw : Laid n w) {sector : UInt32} {k : Nat} (hs : sector.toNat = k)
    (hk : k ≤ n) : (sector * w.cfg.flashSectorSize).toNat = k * w.ss :=
  mul_toNat hs rfl (by have := hw.mul_lt hk; omega)

theorem Laid.div_toNat (hw : Laid n w) {addr : UInt32} {p : Nat} (h : addr.toNat = p * w.ss) :
    ((w.cfg.wlPartitionStartAddr + addr) / w.cfg.flashSectorSize).toNat = p := by
  rw [hw.start, UInt32.zero_add, UInt32.toNat_div, h]
  exact Nat.mul_div_cancel _ hw.ss_pos

/-- **Erasing a sector** blanks it and no other, although a turn may come first. -/
theorem eraseSector_holding (h : Holding n C w) {sector : UInt32} {k : Nat}
    (hs : sector.toNat = k) (hk : k < n) :
    Holding n (fun j o => if j = k then 0xff else C j o) (w.eraseSector sector) ∧
      (w.eraseSector sector).layout = w.layout := by
  obtain ⟨⟨hi, g, hw, hC⟩, hlay⟩ := updateWL_holding h
  unfold eraseSector
  dsimp only
  generalize w.updateWL = v at hi hw hC hlay
  have haddr := calcAddr_place hw hk (hw.sector_toNat hs (Nat.le_of_lt hk))
  have hphys := hw.div_toNat haddr
  generalize (v.cfg.wlPartitionStartAddr + _) / v.cfg.flashSectorSize = p at hphys
  have hlay' : ({ v with partition := v.partition.eraseSector p } : WlFlash).layout = v.layout := by
    simp [layout, Partition.eraseSector, Hal.call]
  refine ⟨⟨hi, g, ⟨hw.toLaid.of_layout hlay', hw.partMax, hw.dummy, hw.moves⟩, fun j hj o ho => ?_⟩,
    hlay'.trans hlay⟩
  have habs : (v.partition.startAddr + p * v.partition.sectorSize).toNat = g.place k * v.ss := by
    rw [hw.abs, hw.sectorSize]
    exact hw.sector_toNat hphys (g.place_le k)
  have ho' : o < v.ss := ho
  show (v.dev.erase (v.partition.startAddr + p * v.partition.sectorSize).toNat
    v.partition.sectorSize.toNat).1.flash (g.place j * v.ss + o) = if j = k then 0xff else C j o
  have hsz : v.partition.sectorSize.toNat = v.dev.geometry.sectorSize := by
    rw [hw.sectorSize, hw.chip]
    rfl
  rw [habs, hsz, ← hw.chip, Device.erase_block (hw.chip ▸ hw.ss_pos), hw.chip, div_place ho']
  by_cases hjk : j = k
  · rw [if_pos hjk, if_pos (by rw [hjk])]
  · rw [if_neg hjk, if_neg fun hp => hjk (g.place_inj hj hk hp)]
    exact hC j hj o ho'

/-- **Programming a sector** masks it and no other. -/
theorem writePage_holding (h : Holding n C w) {addr : UInt32} {k : Nat} (hk : k < n)
    (ha : addr.toNat = k * w.ss) {src : List UInt8} (hlen : src.length = w.ss) :
    Holding n (fun j o => if j = k then C j o &&& src.getD o 0xff else C j o)
      (w.writePage addr src) := by
  unfold writePage
  obtain ⟨hi, g, hw, hC⟩ := h
  have haddr := calcAddr_place hw hk ha
  refine ⟨hi, g, ⟨hw.toLaid.of_layout rfl, hw.partMax, hw.dummy, hw.moves⟩, fun j hj o ho => ?_⟩
  have ho' : o < w.ss := ho
  rw [hw.start, UInt32.zero_add]
  show (w.pwrite (w.calcAddr addr) src).dev.flash (g.place j * w.ss + o) =
    if j = k then C j o &&& src.getD o 0xff else C j o
  by_cases hjk : j = k
  · subst hjk
    show (w.dev.prog (w.partition.startAddr + w.calcAddr addr).toNat src).1.flash _ = _
    rw [hw.abs, haddr, Device.prog_flash, if_pos, Nat.add_sub_cancel_left, if_pos rfl, hC j hj o ho]
    exact ⟨Nat.le_add_right _ _, hw.on_chip (place_lt (g.place_le j) ho)⟩
  · rw [if_neg hjk, ← hC j hj o ho]
    refine hw.pwrite_out ?_
    rw [haddr, hlen]
    have hne : g.place j ≠ g.place k := fun hp => hjk (g.place_inj hj hk hp)
    rcases Nat.lt_or_gt_of_ne hne with hlt | hlt
    · left
      have hle : (g.place j + 1) * w.ss ≤ g.place k * w.ss := Nat.mul_le_mul_right _ hlt
      rw [Nat.succ_mul] at hle
      omega
    · right
      have hle : (g.place k + 1) * w.ss ≤ g.place j * w.ss := Nat.mul_le_mul_right _ hlt
      rw [Nat.succ_mul] at hle
      omega

/-- **Reading a sector** gives what it holds. -/
theorem readPage_holding (h : Holding n C w) {addr : UInt32} {k : Nat} (hk : k < n)
    (ha : addr.toNat = k * w.ss) {dest : List UInt8} (hlen : dest.length = w.ss) :
    let r := w.readPage addr dest
    Holding n C r.1 ∧ r.1.layout = w.layout ∧ r.1.state = w.state ∧
      r.2 = (List.range w.ss).map (C k) := by
  obtain ⟨hi, g, hw, hC⟩ := h
  have haddr := calcAddr_place hw hk ha
  intro r
  have hlay : r.1.layout = w.layout := by
    simp only [r, readPage, pread, Partition.read]
    split <;> rfl
  have hflash : r.1.dev.flash = w.dev.flash := by
    simp only [r, readPage, pread, Partition.read]
    split <;> rfl
  have hdata : r.2 = w.dev.fetch (g.place k * w.ss) dest := by
    simp only [r, readPage, pread, Partition.read]
    rw [hw.start, UInt32.zero_add, hw.abs, haddr]
    split <;> rfl
  refine ⟨⟨(layout_initialized hlay).trans hi, g,
    ⟨hw.toLaid.of_layout hlay, hw.partMax, hw.dummy, hw.moves⟩, fun j hj o ho => ?_⟩, hlay, rfl, ?_⟩
  · rw [layout_ss hlay] at ho ⊢
    rw [hflash]
    exact hC j hj o ho
  · rw [hdata]
    refine List.ext_getElem (by rw [fetch_length, hlen, List.length_map, List.length_range]) ?_
    intro o h1 h2
    rw [List.length_map, List.length_range] at h2
    have hget := fetch_getD (d := w.dev) (x := 0) (by rw [hlen]; exact h2)
      (hw.on_chip (place_lt (g.place_le k) h2))
    rw [List.getD_eq_getElem?_getD, List.getElem?_eq_getElem h1] at hget
    rw [List.getElem_map, List.getElem_range, ← hC k hk o h2]
    exact hget

/-! ## many sectors -/

theorem sector_add_toNat {start : UInt32} {s i : Nat} (hs : start.toNat = s) (h : s + i < 2 ^ 32) :
    (start + i.toUInt32).toNat = s + i :=
  add_toNat hs (Nat.mod_eq_of_lt (by omega)) h

theorem eraseRange_holding (h : Holding n C w) {sector count : UInt32} {s c : Nat}
    (hs : sector.toNat = s) (hc : count.toNat = c) (hin : s + c ≤ n) :
    ∃ w', w.eraseRange (sector * w.cfg.flashSectorSize) (count * w.cfg.flashSectorSize) = .ok w' ∧
      Holding n (fun j o => if s ≤ j ∧ j < s + c then 0xff else C j o) w' ∧
      w'.layout = w.layout := by
  obtain ⟨hi, g, hw, -⟩ := id h
  have hhalf := hw.half
  have hcount : ((count * w.cfg.flashSectorSize + w.cfg.flashSectorSize - 1) /
      w.cfg.flashSectorSize).toNat = c := by
    have hfit := hw.mul_lt (k := c) (by omega)
    have hpos := hw.ss_pos
    rw [UInt32.toNat_div, sub_toNat (add_toNat (mul_toNat hc rfl (by show c * w.ss < _; omega)) rfl
      hfit) rfl (by show 1 ≤ _ + w.ss; omega)]
    show (c * w.ss + w.ss - 1) / w.ss = c
    rw [Nat.div_eq_iff hpos]
    omega
  have hstart : (sector * w.cfg.flashSectorSize / w.cfg.flashSectorSize).toNat = s := by
    rw [UInt32.toNat_div, hw.sector_toNat hs (by omega)]
    exact Nat.mul_div_cancel _ hw.ss_pos
  unfold eraseRange
  rw [hi]
  dsimp only
  rw [hcount]
  generalize sector * w.cfg.flashSectorSize / w.cfg.flashSectorSize = start at hstart
  refine ⟨_, rfl, Loop.foldl_range_inv (P := fun i (v : WlFlash) =>
    Holding n (fun j o => if s ≤ j ∧ j < s + i then 0xff else C j o) v ∧ v.layout = w.layout) c
    ⟨h.congr fun k _ o _ => by rw [if_neg (by omega)], rfl⟩ fun i hi v hv => ?_⟩
  have hn : s + i < 2 ^ 32 := by
    have hle : n * 1 ≤ n * w.ss := Nat.mul_le_mul_left _ hw.ss_pos
    omega
  obtain ⟨h1, h2⟩ := eraseSector_holding hv.1 (sector_add_toNat hstart hn) (by omega)
  refine ⟨h1.congr fun k _ o _ => ?_, h2.trans hv.2⟩
  by_cases hk : k = s + i
  · rw [if_pos hk, if_pos (by omega)]
  · rw [if_neg hk]
    by_cases hr : s ≤ k ∧ k < s + i
    · rw [if_pos hr, if_pos (by omega)]
    · rw [if_neg hr, if_neg (by omega)]

theorem Laid.pages_toNat (hw : Laid n w) {len c : Nat} (hc : 1 ≤ c) (hcn : c ≤ n)
    (hlen : len = c * w.ss) : ((len.toUInt32 - 1) / w.cfg.wlPageSize).toNat = c - 1 := by
  have hfit := hw.mul_lt hcn
  have hpos := hw.ss_pos
  have hle : 1 * w.ss ≤ c * w.ss := Nat.mul_le_mul_right _ hc
  have hlen' : len.toUInt32.toNat = c * w.ss := by
    rw [hlen]
    exact Nat.mod_eq_of_lt (by omega)
  rw [UInt32.toNat_div, hw.page, sub_toNat hlen' rfl (by show 1 ≤ _; omega)]
  show (c * w.ss - 1) / w.ss = c - 1
  rw [Nat.div_eq_iff hpos, Nat.sub_mul]
  omega

theorem chunk_length {b : List UInt8} {size c i : Nat} (hb : b.length = c * size) (hi : i < c) :
    ((b.drop (i * size)).take size).length = size := by
  have hle : (i + 1) * size ≤ c * size := Nat.mul_le_mul_right _ hi
  rw [Nat.succ_mul] at hle
  simp only [List.length_take, List.length_drop, hb]
  omega

theorem last_chunk {b : List UInt8} {size c : Nat} (hb : b.length = c * size) (hc : 1 ≤ c) :
    b.drop ((c - 1) * size) = (b.drop ((c - 1) * size)).take size := by
  refine (List.take_of_length_le ?_).symm
  rw [List.length_drop, hb, ← Nat.sub_mul]
  have h : c - (c - 1) = 1 := by omega
  rw [h, Nat.one_mul]

theorem chunk_getD {b : List UInt8} {size i o : Nat} {x : UInt8} (ho : o < size) :
    ((b.drop (i * size)).take size).getD o x = b.getD (i * size + o) x := by
  simp only [List.getD_eq_getElem?_getD, List.getElem?_take, List.getElem?_drop, if_pos ho]

theorem Laid.range_toNat (hw : Laid n w) {sector : UInt32} {s c i : Nat} (hs : sector.toNat = s)
    (hin : s + c ≤ n) (hi : i < c) :
    (sector * w.cfg.flashSectorSize + i.toUInt32 * w.cfg.wlPageSize).toNat = (s + i) * w.ss := by
  have hfit := hw.mul_lt (k := s + i) (by omega)
  rw [Nat.add_mul] at hfit ⊢
  have hle : i * 1 ≤ i * w.ss := Nat.mul_le_mul_left _ hw.ss_pos
  rw [hw.page]
  exact add_toNat (mul_toNat hs rfl (by show s * w.ss < _; omega))
    (mul_toNat (Nat.mod_eq_of_lt (by omega)) rfl (by show i * w.ss < _; omega))
    (by show s * w.ss + i * w.ss < _; omega)

/-- What the sectors of a range hold once a buffer has been programmed into the first `i`. -/
def masked (C : Nat → Nat → UInt8) (s i size : Nat) (src : List UInt8) (j o : Nat) : UInt8 :=
  if s ≤ j ∧ j < s + i then C j o &&& src.getD ((j - s) * size + o) 0xff else C j o

theorem masked_turn {s i size : Nat} {src : List UInt8} (h : Holding n (masked C s i size src) w)
    (hss : w.ss = size) {addr : UInt32} (hk : s + i < n) (ha : addr.toNat = (s + i) * w.ss)
    {b : List UInt8} (hlen : b.length = size)
    (hb : ∀ o < size, b.getD o 0xff = src.getD (i * size + o) 0xff) :
    Holding n (masked C s (i + 1) size src)
      (w.writePage addr b) := by
  refine (writePage_holding h hk ha (hlen.trans hss.symm)).congr fun j _ o ho => ?_
  have ho' : o < size := hss ▸ ho
  unfold masked
  by_cases hj : j = s + i
  · subst hj
    rw [if_pos rfl, if_neg (by omega), if_pos (by omega), hb o ho', Nat.add_sub_cancel_left]
  · rw [if_neg hj]
    by_cases hr : s ≤ j ∧ j < s + i
    · rw [if_pos hr, if_pos (by omega)]
    · rw [if_neg hr, if_neg (by omega)]

theorem write_holding (h : Holding n C w) {sector : UInt32} {s c : Nat} (hs : sector.toNat = s)
    (hc : 1 ≤ c) (hin : s + c ≤ n) {src : List UInt8} (hsrc : src.length = c * w.ss) :
    ∃ w', w.write (sector * w.cfg.flashSectorSize) src = .ok w' ∧
      Holding n (masked C s c w.ss src) w' ∧ w'.layout = w.layout := by
  obtain ⟨hi, g, hw, -⟩ := id h
  have hpage : w.cfg.wlPageSize.toNat = w.ss := by rw [hw.page]; rfl
  unfold write
  rw [hi]
  dsimp only
  rw [hw.pages_toNat hc (by omega) hsrc, hpage]
  -- the pages before the last
  have hloop := Loop.foldl_range_inv (P := fun i (v : WlFlash) =>
    Holding n (masked C s i w.ss src) v ∧ v.layout = w.layout)
    (f := fun (v : WlFlash) i =>
      v.writePage (sector * w.cfg.flashSectorSize + i.toUInt32 * w.cfg.wlPageSize)
        ((src.drop (i * w.ss)).take w.ss)) (a := w) (c - 1)
    ⟨h.congr fun k _ o _ => by rw [masked, if_neg (by omega)], rfl⟩ fun i hi v hv => by
      have hss : v.ss = w.ss := layout_ss hv.2
      refine ⟨masked_turn hv.1 hss (by omega) ?_ (chunk_length hsrc (by omega))
        fun o ho => chunk_getD ho, hv.2⟩
      rw [hss]
      exact hw.range_toNat hs hin (by omega)
  generalize (List.range (c - 1)).foldl _ w = v at hloop
  have hss : v.ss = w.ss := layout_ss hloop.2
  have hstep := masked_turn hloop.1 hss (by omega)
    (by rw [hss]; exact hw.range_toNat hs hin (i := c - 1) (by omega))
    (chunk_length hsrc (i := c - 1) (by omega)) fun o ho => chunk_getD ho
  rw [← last_chunk hsrc hc, Nat.sub_add_cancel hc] at hstep
  exact ⟨_, rfl, hstep, hloop.2⟩

theorem read_holding (h : Holding n C w) {sector : UInt32} {s c : Nat} (hs : sector.toNat = s)
    (hc : 1 ≤ c) (hin : s + c ≤ n) {dest : List UInt8} (hdest : dest.length = c * w.ss) :
    ∃ w', w.read (sector * w.cfg.flashSectorSize) dest =
        .ok (w', (List.range c).flatMap fun i => (List.range w.ss).map (C (s + i))) ∧
      Holding n C w' ∧ w'.layout = w.layout := by
  obtain ⟨hi, g, hw, -⟩ := id h
  have hpage : w.cfg.wlPageSize.toNat = w.ss := by rw [hw.page]; rfl
  unfold read
  rw [hi]
  dsimp only
  rw [hw.pages_toNat hc (by omega) hdest, hpage]
  have hloop := Loop.foldl_range_inv (P := fun i (r : WlFlash × List UInt8) =>
    Holding n C r.1 ∧ r.1.layout = w.layout ∧
      r.2 = (List.range i).flatMap fun i => (List.range w.ss).map (C (s + i)))
    (f := fun (r : WlFlash × List UInt8) i =>
      let x := r.1.readPage (sector * w.cfg.flashSectorSize + i.toUInt32 * w.cfg.wlPageSize)
        ((dest.drop (i * w.ss)).take w.ss)
      (x.1, r.2 ++ x.2)) (a := (w, [])) (c - 1)
    ⟨h, rfl, rfl⟩ fun i hi r hr => by
      have hss : r.1.ss = w.ss := layout_ss hr.2.1
      obtain ⟨h1, h2, -, h4⟩ := readPage_holding hr.1 (k := s + i) (by omega)
        (by rw [hss]; exact hw.range_toNat hs hin (i := i) (by omega))
        ((chunk_length hdest (i := i) (by omega)).trans hss.symm)
      refine ⟨h1, h2.trans hr.2.1, ?_⟩
      dsimp only
      rw [h4, hr.2.2, hss, List.range_succ, List.flatMap_append, List.flatMap_singleton]
  generalize (List.range (c - 1)).foldl _ (w, []) = r at hloop
  obtain ⟨v, data⟩ := r
  have hss : v.ss = w.ss := layout_ss hloop.2.1
  obtain ⟨h1, h2, -, h4⟩ := readPage_holding hloop.1 (k := s + (c - 1)) (by omega)
    (by rw [hss]; exact hw.range_toNat hs hin (i := c - 1) (by omega))
    ((chunk_length hdest (i := c - 1) (by omega)).trans hss.symm)
  rw [← last_chunk hdest hc] at h1 h2 h4
  simp only [hss] at h4
  refine ⟨_, ?_, h1, h2.trans hloop.2.1⟩
  have hrange : List.range c = List.range (c - 1) ++ [c - 1] := by
    rw [← List.range_succ, Nat.succ_eq_add_one, Nat.sub_add_cancel hc]
  rw [hrange, List.flatMap_append, List.flatMap_singleton, ← hloop.2.2, ← h4]
  rfl

end WlFlash
end FlashVis
