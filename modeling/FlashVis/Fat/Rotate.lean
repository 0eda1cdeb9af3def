import FlashVis.Fat.Place
import FlashVis.Lib.Loop

/-!
# The rotation keeps what the sectors hold

* `WlFlash.Spared`     a change that leaves the layout and the data area alone;
* `copyBlock_copied`   the copy of a block through a small buffer;
* `markTurn_spared`, `Placed.advance`   the end of a turn, which is a turn of the gap.
-/

namespace FlashVis
namespace WlFlash
variable {n : Nat} {w w' w'' : WlFlash} {addr size : UInt32}

/-! ## frames -/

theorem layout_ss (h : w'.layout = w.layout) : w'.ss = w.ss := by
  show w'.layout.ss = w.layout.ss
  rw [h]

theorem layout_initialized (h : w'.layout = w.layout) : w'.initialized = w.initialized := by
  show w'.layout.initialized = w.layout.initialized
  rw [h]

@[simp] theorem pwrite_layout (src : List UInt8) : (w.pwrite addr src).layout = w.layout := rfl

@[simp] theorem perase_layout : (w.perase addr size).layout = w.layout := by
  simp [layout, perase, Partition.eraseRange, Hal.call]

@[simp] theorem readTemp_layout (len : Nat) : (w.readTemp addr len).layout = w.layout := by
  have hlen : (w.readTemp addr len).tempBuff.length = w.tempBuff.length := by
    simp only [readTemp, Partition.read]
    split <;> simp [Device.fetch] <;> omega
  have hpart : (w.readTemp addr len).partition.hal.dev.geometry = w.dev.geometry := by
    simp only [readTemp, Partition.read]
    split <;> rfl
  have hrest : (w.readTemp addr len).partition.startAddr = w.partition.startAddr ∧
      (w.readTemp addr len).partition.partSize = w.partition.partSize ∧
      (w.readTemp addr len).partition.sectorSize = w.partition.sectorSize := by
    simp only [readTemp, Partition.read]
    split <;> exact ⟨rfl, rfl, rfl⟩
  show layout { w with
    tempBuff := (w.readTemp addr len).tempBuff
    partition := (w.readTemp addr len).partition } = w.layout
  simp [layout, hlen, hpart, hrest, dev]

theorem fillOkBuff_layout (i : UInt32) (h : 16 ≤ w.tempBuff.length) :
    (w.fillOkBuff i).layout = w.layout := by
  have hlen : (w.fillOkBuff i).tempBuff.length = w.tempBuff.length := by
    simp [fillOkBuff, List.length_flatMap, le32]
    omega
  show layout { w with tempBuff := (w.fillOkBuff i).tempBuff } = w.layout
  simp [layout, hlen]

theorem readTemp_flash (len : Nat) : (w.readTemp addr len).dev.flash = w.dev.flash := by
  simp only [dev, readTemp, Partition.read]
  split <;> rfl

theorem Laid.abs (hw : Laid n w) : w.partition.startAddr + addr = addr := by
  rw [hw.startAddr, UInt32.zero_add]

theorem Laid.pwrite_out (hw : Laid n w) {src : List UInt8} {a : Nat}
    (h : a < addr.toNat ∨ addr.toNat + src.length ≤ a) :
    (w.pwrite addr src).dev.flash a = w.dev.flash a := by
  show (w.dev.prog (w.partition.startAddr + addr).toNat src).1.flash a = _
  rw [hw.abs]
  exact Device.prog_flash_out h

theorem Laid.perase_below (hw : Laid n w) (hsize : 0 < size.toNat) {k a : Nat}
    (hk : k * w.ss ≤ addr.toNat) (ha : a < k * w.ss) :
    (w.perase addr size).dev.flash a = w.dev.flash a := by
  show (w.dev.erase (w.partition.startAddr + addr).toNat size.toNat).1.flash a = _
  rw [hw.abs]
  rw [← hw.chip] at hk ha
  exact Device.erase_below (hw.chip ▸ hw.ss_pos) hsize hk ha

/-- A change that leaves the layout and the sectors `0 .. n` alone. -/
structure Spared (n : Nat) (w w' : WlFlash) : Prop where
  layout : w'.layout = w.layout
  data : ∀ a < (n + 1) * w.ss, w'.dev.flash a = w.dev.flash a

theorem Spared.ss (h : Spared n w w') : w'.ss = w.ss := layout_ss h.layout

theorem Spared.trans (h : Spared n w w') (h' : Spared n w' w'') : Spared n w w'' := by
  refine ⟨h'.layout.trans h.layout, fun a ha => ?_⟩
  rw [h'.data a (by rw [h.ss]; exact ha), h.data a ha]

theorem Spared.laid (h : Spared n w w') (hw : Laid n w) : Laid n w' := hw.of_layout h.layout

theorem Laid.pwrite_spared (hw : Laid n w) (addr : UInt32) (src : List UInt8)
    (h : w.addrState1.toNat ≤ addr.toNat) : Spared n w (w.pwrite addr src) := by
  refine ⟨rfl, fun a ha => hw.pwrite_out (.inl ?_)⟩
  exact Nat.lt_of_lt_of_le ha (Nat.le_trans hw.below h)

theorem Laid.writeTemp_spared (hw : Laid n w) (addr : UInt32) (len : Nat)
    (h : w.addrState1.toNat ≤ addr.toNat) : Spared n w (w.writeTemp addr len) :=
  hw.pwrite_spared addr _ h

theorem Laid.perase_spared (hw : Laid n w) (addr : UInt32) {size : UInt32}
    (h : w.addrState1.toNat ≤ addr.toNat) (hsize : 0 < size.toNat) : Spared n w (w.perase addr size) := by
  refine ⟨perase_layout, fun a ha => ?_⟩
  exact hw.perase_below hsize (Nat.le_trans hw.below h) ha

theorem Laid.state_pos (hw : Laid n w) : 0 < w.stateSize.toNat := by
  have h := hw.records
  omega

theorem Laid.rewriteStates_spared (hw : Laid n w) : Spared n w w.rewriteStates := by
  have hs2 : w.addrState1.toNat ≤ w.addrState2.toNat := by
    have h := hw.second
    omega
  have h1 := hw.perase_spared w.addrState1 (Nat.le_refl _) hw.state_pos
  have h2 := h1.trans ((h1.laid hw).pwrite_spared w.addrState1 w.state.bytes (Nat.le_refl _))
  have h3 := h2.trans ((h2.laid hw).perase_spared w.addrState2 hs2 hw.state_pos)
  exact h3.trans ((h3.laid hw).pwrite_spared w.addrState2 w.state.bytes hs2)

theorem Laid.writeCfg_spared (hw : Laid n w) : Spared n w w.writeCfg := by
  have h1 := hw.second
  have h2 := hw.third
  have h3 := hw.config
  have hs : w.addrState1.toNat ≤ w.addrCfg.toNat := by omega
  have h4 : Spared n w (w.perase w.addrCfg w.cfgSize) := hw.perase_spared w.addrCfg hs (by omega)
  exact h4.trans ((h4.laid hw).pwrite_spared w.addrCfg w.cfg.bytes hs)

/-! ## one block through the buffer -/

theorem fetch_length (d : Device) (off : Nat) (dst : List UInt8) :
    (d.fetch off dst).length = dst.length := by
  simp [Device.fetch]

theorem fetch_getD {d : Device} {off i : Nat} {dst : List UInt8} {x : UInt8} (hi : i < dst.length)
    (h : off + i < d.geometry.sectorSize * d.geometry.sectorCount) :
    (d.fetch off dst).getD i x = d.flash (off + i) := by
  simp [Device.fetch, List.getD_eq_getElem?_getD, hi, h]

theorem Laid.on_chip (hw : Laid n w) {a : Nat} (ha : a < (n + 1) * w.ss) :
    a < w.dev.geometry.sectorSize * w.dev.geometry.sectorCount := by
  have h1 := hw.below
  have h2 := hw.second
  have h3 := hw.third
  have h4 := hw.holds
  rw [hw.chip]
  omega

theorem place_lt {p o : Nat} (hp : p ≤ n) (ho : o < w.ss) : p * w.ss + o < (n + 1) * w.ss := by
  have h : p * w.ss ≤ n * w.ss := Nat.mul_le_mul_right _ hp
  rw [Nat.succ_mul]
  omega

/-- A turn of the copy loop moves 32 bytes. -/
theorem Laid.copy_turn (hw : Laid n w) {src dst : UInt32} {p q o : Nat} (hp : p ≤ n)
    (ho : o + 32 ≤ w.ss) (hf : src.toNat = p * w.ss + o)
    (ht : dst.toNat = q * w.ss + o) (a : Nat) (ha : a < (n + 1) * w.ss) :
    ((w.readTemp src 32).writeTemp dst 32).dev.flash a =
      if q * w.ss + o ≤ a ∧ a < q * w.ss + (o + 32) then
        w.dev.flash a &&& w.dev.flash (p * w.ss + (a - q * w.ss))
      else w.dev.flash a := by
  have htake : (w.tempBuff.take 32).length = 32 := by simp [hw.buffer]
  -- what was read
  have hread : (w.readTemp src 32).tempBuff.take 32 = w.dev.fetch src.toNat (w.tempBuff.take 32) := by
    have hr : (w.partition.read src (w.tempBuff.take 32)).2 =
        w.dev.fetch src.toNat (w.tempBuff.take 32) := by
      simp only [Partition.read, hw.abs, dev]
      split <;> rfl
    show ((w.partition.read src (w.tempBuff.take 32)).2 ++ w.tempBuff.drop 32).take 32 = _
    rw [hr]
    have hlen := fetch_length w.dev src.toNat (w.tempBuff.take 32)
    exact List.take_left' (hlen.trans htake)
  have hw' : Laid n (w.readTemp src 32) := hw.of_layout (readTemp_layout 32)
  unfold writeTemp
  rw [hread]
  have hlen := fetch_length w.dev src.toNat (w.tempBuff.take 32)
  by_cases hin : q * w.ss + o ≤ a ∧ a < q * w.ss + (o + 32)
  · show ((w.readTemp src 32).dev.prog
      ((w.readTemp src 32).partition.startAddr + dst).toNat _).1.flash a = _
    rw [hw'.abs, Device.prog_flash, readTemp_flash, if_pos hin, if_pos, fetch_getD]
    · congr 2
      omega
    · omega
    · exact hw.on_chip (by have := place_lt (w := w) (o := a - q * w.ss) hp (by omega); omega)
    · exact ⟨by omega, hw'.on_chip (by rwa [show (w.readTemp src 32).ss = w.ss from rfl])⟩
  · rw [if_neg hin, hw'.pwrite_out (by omega), readTemp_flash]

/-- The first `m` bytes of place `q` are masked with those of place `p`. -/
structure Copied (n p q m : Nat) (w v : WlFlash) : Prop where
  layout : v.layout = w.layout
  state : v.state = w.state
  data : ∀ a < (n + 1) * w.ss, v.dev.flash a =
    if q * w.ss ≤ a ∧ a < q * w.ss + m then
      w.dev.flash a &&& w.dev.flash (p * w.ss + (a - q * w.ss))
    else w.dev.flash a

/-- A copy into another place leaves the source alone. -/
theorem Copied.source {p q m o : Nat} {v : WlFlash} (h : Copied n p q m w v) (hm : m ≤ w.ss)
    (hp : p ≤ n) (hpq : p ≠ q) (ho : o < w.ss) :
    v.dev.flash (p * w.ss + o) = w.dev.flash (p * w.ss + o) := by
  rw [h.data _ (place_lt hp ho), if_neg]
  intro ⟨ha1, ha2⟩
  apply hpq
  have hdiv : (p * w.ss + o) / w.ss = q := by
    rw [Nat.div_eq_iff (by omega)]
    omega
  rw [← hdiv, Nat.mul_comm, Nat.mul_add_div (by omega), Nat.div_eq_of_lt ho, Nat.add_zero]

/-- **The copy of a block** into place `q`. -/
theorem Laid.copyBlock_copied (hw : Laid n w) {src dst : UInt32} {p q : Nat} (hp : p ≤ n)
    (hq : q ≤ n) (hpq : p ≠ q) (hs : src.toNat = p * w.ss) (hd : dst.toNat = q * w.ss) :
    Copied n p q w.ss w (w.copyBlock src dst) := by
  have hfit := hw.mul_lt hp
  have hfit' := hw.mul_lt hq
  have htemp : w.cfg.wlTempBuffSize.toNat = 32 := by rw [hw.temp]; rfl
  have hturns : (w.cfg.wlPageSize / w.cfg.wlTempBuffSize).toNat * 32 = w.ss := by
    rw [UInt32.toNat_div, hw.page, htemp]
    exact Nat.div_mul_cancel hw.whole
  have hloop : Copied n p q ((w.cfg.wlPageSize / w.cfg.wlTempBuffSize).toNat * 32) w
      (w.copyBlock src dst) := by
    refine Loop.foldl_range_inv (P := fun j v => Copied n p q (j * 32) w v) _
      ⟨rfl, rfl, fun a _ => by rw [if_neg (by omega)]⟩ fun j hj v h => ?_
    have hv : Laid n v := hw.of_layout h.layout
    have hss : v.ss = w.ss := layout_ss h.layout
    have hoff : (j.toUInt32 * w.cfg.wlTempBuffSize).toNat = j * 32 :=
      mul_toNat (Nat.mod_eq_of_lt (by omega)) htemp (by omega)
    have hsrc : (src + j.toUInt32 * w.cfg.wlTempBuffSize).toNat = p * v.ss + j * 32 := by
      rw [hss]
      exact add_toNat hs hoff (by omega)
    have hdst : (dst + j.toUInt32 * w.cfg.wlTempBuffSize).toNat = q * v.ss + j * 32 := by
      rw [hss]
      exact add_toNat hd hoff (by omega)
    rw [htemp]
    refine ⟨(readTemp_layout 32).trans h.layout, h.state, fun a ha => ?_⟩
    rw [hv.copy_turn hp (by omega) hsrc hdst a (by rw [hss]; exact ha), hss, h.data a ha]
    by_cases hin : q * w.ss + j * 32 ≤ a ∧ a < q * w.ss + (j * 32 + 32)
    · rw [if_pos hin, if_neg (by omega), if_pos (by omega),
        h.source (by omega) hp hpq (by omega)]
    · rw [if_neg hin]
      by_cases hlow : q * w.ss ≤ a ∧ a < q * w.ss + j * 32
      · rw [if_pos hlow, if_pos (by omega)]
      · rw [if_neg hlow, if_neg (by omega)]
  rwa [hturns] at hloop

/-! ## a turn -/

theorem Laid.recordAddr_toNat (hw : Laid n w) {base i : UInt32} (hi : i.toNat ≤ n)
    (hbase : base = w.addrState1 ∨ base = w.addrState2) :
    (w.recordAddr base i).toNat = base.toNat + 64 + i.toNat * 16 := by
  have h1 := hw.second
  have h2 := hw.third
  have h3 := hw.ends
  have h4 := hw.records
  have h5 : base.toNat + w.stateSize.toNat < 2 ^ 32 := by
    rcases hbase with rfl | rfl <;> omega
  unfold recordAddr
  rw [hw.record]
  exact add_toNat (add_toNat rfl rfl (by show _ + 64 < _; omega)) (mul_toNat rfl rfl (by
    show _ * 16 < _; omega)) (by show _ + 64 + _ * 16 < _; omega)

theorem Laid.fillOkBuff_spared (hw : Laid n w) (i : UInt32) : Spared n w (w.fillOkBuff i) :=
  ⟨fillOkBuff_layout i (by rw [hw.buffer]; decide), fun _ _ => rfl⟩

theorem Laid.markTurn_spared (hw : Laid n w) (hpos : w.state.wlDummySecPos.toNat ≤ n) :
    Spared n w w.markTurn := by
  have hsecond := hw.second
  have hr1 := hw.recordAddr_toNat hpos (.inl rfl)
  have hr2 := hw.recordAddr_toNat hpos (.inr rfl)
  have h1 := hw.fillOkBuff_spared w.state.wlDummySecPos
  have h2 := h1.trans ((h1.laid hw).writeTemp_spared
    (w.recordAddr w.addrState1 w.state.wlDummySecPos) w.cfg.wlPosUpdateRecordSize.toNat
    (by show w.addrState1.toNat ≤ _; omega))
  have h3 := h2.trans ((h2.laid hw).fillOkBuff_spared w.state.wlDummySecPos)
  exact h3.trans ((h3.laid hw).writeTemp_spared
    (w.recordAddr w.addrState2 w.state.wlDummySecPos) w.cfg.wlPosUpdateRecordSize.toNat
    (by show w.addrState1.toNat ≤ _; omega))

@[simp] theorem markTurn_state : w.markTurn.state = w.state := rfl

/-- The end of a turn is a turn of the gap. -/
theorem Placed.advance {g : Gap n} (hw : Placed g w) :
    Placed g.turn w.advance ∧ Spared n w w.advance := by
  have hh := g.hole_le
  have hl := g.laps_lt
  have hn : n + 1 < 2 ^ 32 := by
    rw [← hw.partMax]
    exact w.state.wlPartMaxSecPos.toNat_lt
  have hpos : (w.state.wlDummySecPos + 1).toNat = g.hole + 1 := add_toNat hw.dummy rfl (by omega)
  have hmoves : (w.state.wlDummySecMoveCount + 1).toNat = g.laps + 1 :=
    add_toNat hw.moves rfl (by omega)
  have hmax : (w.state.wlPartMaxSecPos - 1).toNat = n := sub_toNat hw.partMax rfl (Nat.le_add_left _ _)
  have hlap : w.state.wlPartMaxSecPos ≤ w.state.wlDummySecPos + 1 ↔ n < g.hole + 1 := by
    rw [UInt32.le_iff_toNat_le, hw.partMax, hpos]
    omega
  have hwrap : w.state.wlPartMaxSecPos - 1 ≤ w.state.wlDummySecMoveCount + 1 ↔ n ≤ g.laps + 1 := by
    rw [UInt32.le_iff_toNat_le, hmax, hmoves]
  unfold WlFlash.advance Gap.turn
  by_cases h : n < g.hole + 1
  · rw [if_pos (hlap.mpr h), dif_pos h]
    -- only the state record has changed before it is written out
    have hs : ∀ st : WlState, st.wlPartMaxSecPos = w.state.wlPartMaxSecPos →
        Spared n w (w.setState st).rewriteStates := by
      intro st hst
      have h0 : Spared n w (w.setState st) := ⟨by simp [layout, setState, hst], fun _ _ => rfl⟩
      exact h0.trans (h0.laid hw.toLaid).rewriteStates_spared
    refine ⟨⟨(hs _ ?_).laid hw.toLaid, hw.partMax, ?_, ?_⟩, hs _ ?_⟩
    · rfl
    · split <;> rfl
    · show (if w.state.wlPartMaxSecPos - 1 ≤ w.state.wlDummySecMoveCount + 1 then 0
        else w.state.wlDummySecMoveCount + 1).toNat = _
      by_cases hw' : n ≤ g.laps + 1
      · rw [if_pos (hwrap.mpr hw'), dif_pos hw']
        rfl
      · rw [if_neg (fun hc => hw' (hwrap.mp hc)), dif_neg hw']
        exact hmoves
    · rfl
  · rw [if_neg (fun hc => h (hlap.mp hc)), dif_neg h]
    have hs : Spared n w
        (w.setState { w.state with wlDummySecPos := w.state.wlDummySecPos + 1 }) :=
      ⟨rfl, fun _ _ => rfl⟩
    exact ⟨⟨hs.laid hw.toLaid, hw.partMax, hpos, hw.moves⟩, hs⟩

end WlFlash
end FlashVis
