import FlashVis.Fat.Steps

/-!
# The two copies of the state on the chip

* `bytesAt`              the bytes of a range of the chip;
* `WlFlash.Aligned`      the reserved areas are whole sectors, with room for every record;
* `perase_at`, `pwrite_at`   what erasing and programming there do;
* `First`, `Second`      what the two copies hold: a state, and the records of its finished turns;
* `mark_first`           the record of a turn.
-/

namespace FlashVis

/-- The bytes of a range of the chip. -/
def bytesAt (f : Flash) (a len : Nat) : List UInt8 := (List.range len).map fun i => f (a + i)

@[simp] theorem bytesAt_length (f : Flash) (a len : Nat) : (bytesAt f a len).length = len := by
  simp [bytesAt]

theorem bytesAt_getElem {f : Flash} {a len i : Nat} (h : i < (bytesAt f a len).length) :
    (bytesAt f a len)[i] = f (a + i) := by
  simp [bytesAt]

theorem bytesAt_congr {f g : Flash} {a len : Nat} (h : ∀ x, a ≤ x → x < a + len → f x = g x) :
    bytesAt f a len = bytesAt g a len := by
  refine List.map_congr_left fun i hi => h _ (Nat.le_add_right _ _) ?_
  have := List.mem_range.mp hi
  omega

theorem bytesAt_eq {f : Flash} {a : Nat} {l : List UInt8}
    (h : ∀ i < l.length, f (a + i) = l.getD i 0xff) : bytesAt f a l.length = l := by
  refine List.ext_getElem (bytesAt_length ..) fun i h1 h2 => ?_
  rw [bytesAt_getElem, h i h2, List.getD_eq_getElem _ _ h2]

theorem bytesAt_getD {f : Flash} {a len i : Nat} (hi : i < len) (x : UInt8) :
    (bytesAt f a len).getD i x = f (a + i) := by
  rw [List.getD_eq_getElem _ _ (by simpa using hi), bytesAt_getElem]

theorem fetch_bytesAt (d : Device) (off : Nat) (dst : List UInt8)
    (h : off + dst.length ≤ d.geometry.sectorSize * d.geometry.sectorCount) :
    d.fetch off dst = bytesAt d.flash off dst.length := by
  refine List.ext_getElem (by simp [Device.fetch]) fun i h1 h2 => ?_
  have hi : i < dst.length := by simpa using h2
  have hget : (d.fetch off dst).getD i 0 = d.flash (off + i) := WlFlash.fetch_getD hi (by omega)
  rw [List.getD_eq_getElem _ _ h1] at hget
  rw [hget, bytesAt_getElem]

namespace WlFlash
variable {n m : Nat} {w v : WlFlash} {st : WlState} {addr size : UInt32}

/-! ## whole sectors -/

/-- The reserved areas are whole sectors, and a state copy has room for a record of every sector. -/
structure Aligned (w : WlFlash) : Prop where
  first : w.ss ∣ w.addrState1.toNat
  state : w.ss ∣ w.stateSize.toNat
  config : w.ss ∣ w.cfgSize.toNat
  full : 64 + 16 * (w.cfg.wlPartitionSize / w.cfg.flashSectorSize).toNat ≤ w.stateSize.toNat
  rate : w.cfg.wlUpdateRate = 16

theorem Aligned.of_plan (hw : Aligned w) (h : v.plan = w.plan) : Aligned v := by
  have hss : v.ss = w.ss := congrArg (·.cfg.flashSectorSize.toNat) h
  have hcfg : v.cfg = w.cfg := congrArg (·.cfg) h
  have h1 : v.addrState1 = w.addrState1 := congrArg (·.addrState1) h
  have h4 : v.stateSize = w.stateSize := congrArg (·.stateSize) h
  have h5 : v.cfgSize = w.cfgSize := congrArg (·.cfgSize) h
  exact ⟨by rw [hss, h1]; exact hw.first, by rw [hss, h4]; exact hw.state,
    by rw [hss, h5]; exact hw.config, by rw [hcfg, h4]; exact hw.full, by rw [hcfg]; exact hw.rate⟩

/-- A chip whose size is a word is aligned. -/
theorem config_aligned {ss sc : UInt32} {hal : Hal} (hmax : ss.toNat ≤ ffMaxSs)
    (hfit : ss.toNat * sc.toNat < 2 ^ 32)
    (hgs : hal.dev.geometry.sectorSize = ss.toNat) (hgc : hal.dev.geometry.sectorCount = sc.toNat)
    (hw : config (wlfatConfig ss sc) ⟨0, ss * sc, ss, hal⟩ = .ok w) : Aligned w := by
  obtain ⟨n, hl, hs, -, -⟩ := config_laid hmax hgs hgc hw
  obtain ⟨crc, hwhole, -, hweq⟩ := config_ok hw
  have hP : (ss * sc).toNat = ss.toNat * sc.toNat := by
    rw [UInt32.toNat_mul, Nat.mod_eq_of_lt hfit]
  have hss : w.ss = ss.toNat := by
    rw [hweq]
    rfl
  have hcfg : w.cfg.wlPartitionSize = ss * sc ∧ w.cfg.flashSectorSize = ss := by
    rw [hweq]
    exact ⟨rfl, rfl⟩
  have hs0 : 0 < ss.toNat := hss ▸ hl.ss_pos
  have hs32 : 32 ≤ ss.toNat := by
    rw [← hss]
    exact Nat.le_of_dvd hl.ss_pos hl.whole
  unfold ffMaxSs at hmax
  have hPlt := (ss * sc).toNat_lt
  have hq32 : 32 * ((ss * sc).toNat / ss.toNat) ≤ (ss * sc).toNat :=
    Nat.le_trans (Nat.mul_le_mul_right _ hs32) (Nat.mul_div_le _ _)
  have hfull : (sizeofWlState + ss * sc / ss * 16).toNat = 64 + (ss * sc).toNat / ss.toNat * 16 :=
    add_toNat rfl (mul_toNat (UInt32.toNat_div ..) rfl (by show _ * 16 < _; omega)) (by omega)
  -- the areas are rounded up to whole sectors
  obtain ⟨q, hq1, hq2, -⟩ := roundUp_toNat (a := sizeofWlState + ss * sc / ss * 16) hs0 (by omega)
  obtain ⟨r, hr1, -, -⟩ := roundUp_toNat (a := sizeofWlConfig) hs0 (by show 48 + _ < _; omega)
  have hstate : w.stateSize = if ss < sizeofWlState + ss * sc / ss * 16 then
      (sizeofWlState + ss * sc / ss * 16 + ss - 1) / ss * ss else ss := by
    rw [hweq]
    rfl
  have hconfig : w.cfgSize = (sizeofWlConfig + ss - 1) / ss * ss := by
    rw [hweq]
    rfl
  have hS : ss.toNat ∣ w.stateSize.toNat ∧
      64 + (ss * sc).toNat / ss.toNat * 16 ≤ w.stateSize.toNat := by
    rw [hstate]
    split
    · rw [hq1]
      exact ⟨Nat.dvd_mul_left _ _, by omega⟩
    · rename_i hle
      rw [UInt32.lt_iff_toNat_lt, hfull] at hle
      exact ⟨Nat.dvd_refl _, by omega⟩
  have hZ : ss.toNat ∣ w.cfgSize.toNat := by
    rw [hconfig, hr1]
    exact Nat.dvd_mul_left _ _
  rw [← hss] at hS hZ
  have hsecond := hl.second
  have hthird := hl.third
  have hends := hs.ends
  have hdvd : w.ss ∣ (ss * sc).toNat := by
    rw [hP, hss]
    exact Nat.dvd_mul_right _ _
  refine ⟨?_, hS.1, hZ, ?_, ?_⟩
  · have hsum : w.addrState1.toNat + (w.stateSize.toNat + w.stateSize.toNat + w.cfgSize.toNat) =
        (ss * sc).toNat := by omega
    exact (Nat.dvd_add_iff_left ((hS.1.add hS.1).add hZ)).mpr (hsum ▸ hdvd)
  · rw [hcfg.1, hcfg.2, UInt32.toNat_div, Nat.mul_comm, ← hss]
    exact hS.2
  · rw [hweq]
    rfl

theorem Aligned.second (ha : Aligned w) (hw : Laid n w) : w.ss ∣ w.addrState2.toNat := by
  rw [hw.second]
  exact ha.first.add ha.state

/-! ## erasing and programming -/

theorem Laid.perase_at (hw : Laid n w) (ha : w.ss ∣ addr.toNat) (hs : w.ss ∣ size.toNat)
    (hsize : 0 < size.toNat) (x : Nat) : (w.perase addr size).dev.flash x =
      if addr.toNat ≤ x ∧ x < addr.toNat + size.toNat then 0xff else w.dev.flash x := by
  obtain ⟨p, hp⟩ := ha
  obtain ⟨q, hq⟩ := hs
  have hss := hw.ss_pos
  have hq0 : 0 < q := by
    refine Nat.pos_of_ne_zero fun h => ?_
    rw [hq, h] at hsize
    exact absurd hsize (Nat.lt_irrefl 0)
  have hdev : 0 < w.dev.geometry.sectorSize := by
    rw [hw.chip]
    exact hss
  show (w.dev.erase (w.partition.startAddr + addr).toNat size.toNat).1.flash x = _
  rw [hw.abs, Device.erase_flash hdev hsize, hw.chip]
  have hlow : addr.toNat / w.ss ≤ x / w.ss ↔ addr.toNat ≤ x := by
    rw [hp, Nat.mul_div_cancel_left _ hss, Nat.le_div_iff_mul_le hss, Nat.mul_comm]
  have hlast : (addr.toNat + size.toNat - 1) / w.ss = p + q - 1 := by
    have hmul : w.ss * (p + q) = w.ss * (p + q - 1) + w.ss := by
      rw [← Nat.mul_succ]
      congr 1
      omega
    rw [hp, hq, ← Nat.mul_add, Nat.div_eq_iff hss, Nat.mul_comm (p + q - 1)]
    omega
  have hhigh : x / w.ss ≤ (addr.toNat + size.toNat - 1) / w.ss ↔ x < addr.toNat + size.toNat := by
    rw [hlast, hp, hq, ← Nat.mul_add, Nat.mul_comm, ← Nat.div_lt_iff_lt_mul hss]
    omega
  simp only [hlow, hhigh]

theorem Laid.pwrite_at (hw : Laid n w) (src : List UInt8)
    (hfit : addr.toNat + src.length ≤ w.ss * w.dev.geometry.sectorCount) (x : Nat) :
    (w.pwrite addr src).dev.flash x = if addr.toNat ≤ x ∧ x < addr.toNat + src.length then
      w.dev.flash x &&& src.getD (x - addr.toNat) 0xff else w.dev.flash x := by
  by_cases hx : addr.toNat ≤ x ∧ x < addr.toNat + src.length
  · show (w.dev.prog (w.partition.startAddr + addr).toNat src).1.flash x = _
    rw [hw.abs, Device.prog_flash, if_pos hx, if_pos]
    exact ⟨hx.1, by rw [hw.chip]; omega⟩
  · rw [if_neg hx]
    exact hw.pwrite_out (by omega)

/-- What is programmed into blank bytes, or once more, is there. -/
theorem Laid.pwrite_bytes (hw : Laid n w) {src : List UInt8}
    (hfit : addr.toNat + src.length ≤ w.ss * w.dev.geometry.sectorCount)
    (h : ∀ i < src.length, w.dev.flash (addr.toNat + i) = 0xff ∨
      w.dev.flash (addr.toNat + i) = src.getD i 0xff) :
    bytesAt (w.pwrite addr src).dev.flash addr.toNat src.length = src := by
  refine bytesAt_eq fun i hi => ?_
  rw [hw.pwrite_at src hfit, if_pos (by omega), Nat.add_sub_cancel_left]
  rcases h i hi with h | h
  · rw [h]
    exact UInt8.neg_one_and
  · rw [h, UInt8.and_self]

/-! ## the copies -/

/-- Where the record of turn `j` is in the copy at `a`. -/
def recordPlace (a j : Nat) : Nat := a + 64 + j * 16

/-- The first copy holds the state `st` and the records of its turns below `m`. -/
structure First (n : Nat) (st : WlState) (m : Nat) (w : WlFlash) : Prop where
  header : bytesAt w.dev.flash w.addrState1.toNat 64 = st.bytes
  done : ∀ j ≤ n, j < m →
    bytesAt w.dev.flash (recordPlace w.addrState1.toNat j) 16 = st.turnRecord j.toUInt32
  rest : ∀ j ≤ n, m ≤ j →
    bytesAt w.dev.flash (recordPlace w.addrState1.toNat j) 16 = List.replicate 16 0xff

/-- The second copy holds the state `st`. -/
def Second (st : WlState) (w : WlFlash) : Prop :=
  bytesAt w.dev.flash w.addrState2.toNat 64 = st.bytes

theorem First.congr (h : First n st m w) (hw : Laid n w) (ha : v.addrState1 = w.addrState1)
    (hf : ∀ x, w.addrState1.toNat ≤ x → x < w.addrState2.toNat → v.dev.flash x = w.dev.flash x) :
    First n st m v := by
  have hsecond := hw.second
  have hrecords := hw.records
  have hplace : ∀ j ≤ n, bytesAt v.dev.flash (recordPlace v.addrState1.toNat j) 16 =
      bytesAt w.dev.flash (recordPlace w.addrState1.toNat j) 16 := by
    intro j hj
    unfold recordPlace
    rw [ha]
    exact bytesAt_congr fun x h1 h2 => hf x (by omega) (by omega)
  refine ⟨?_, fun j hj hm => (hplace j hj).trans (h.done j hj hm),
    fun j hj hm => (hplace j hj).trans (h.rest j hj hm)⟩
  rw [ha, ← h.header]
  exact bytesAt_congr fun x h1 h2 => hf x h1 (by omega)

theorem Second.congr (h : Second st w) (ha : v.addrState2 = w.addrState2)
    (hf : ∀ x, w.addrState2.toNat ≤ x → x < w.addrState2.toNat + 64 →
      v.dev.flash x = w.dev.flash x) : Second st v := by
  unfold Second
  rw [ha, ← show bytesAt w.dev.flash w.addrState2.toNat 64 = st.bytes from h]
  exact bytesAt_congr hf

/-! ## the record of a turn -/

theorem fillOkBuff_take (i : UInt32) :
    (w.fillOkBuff i).tempBuff.take 16 = w.state.turnRecord i := by
  have hfill : (w.fillOkBuff i).tempBuff = w.state.turnRecord i ++ w.tempBuff.drop 16 := by
    unfold fillOkBuff WlState.turnRecord WlState.turnWords
    rw [List.flatMap_map]
    rfl
  rw [hfill]
  exact List.take_left' (WlState.turnRecord_length _ _)

theorem Laid.mark_eq (hw : Laid n w) (base i : UInt32) :
    (Step.mark base i).run w =
      { (w.pwrite (w.recordAddr base i) (w.state.turnRecord i)) with
        tempBuff := (w.fillOkBuff i).tempBuff } := by
  have hlen : (w.fillOkBuff i).cfg.wlPosUpdateRecordSize.toNat = 16 := by
    show w.cfg.wlPosUpdateRecordSize.toNat = 16
    rw [hw.record]
    rfl
  show (w.fillOkBuff i).pwrite (w.recordAddr base i) ((w.fillOkBuff i).tempBuff.take _) = _
  rw [hlen, fillOkBuff_take]
  rfl

/-- A record changes nothing but its place. -/
theorem Laid.mark_out (hw : Laid n w) {base i : UInt32} (hi : i.toNat ≤ n)
    (hbase : base = w.addrState1 ∨ base = w.addrState2) {x : Nat}
    (hx : x < recordPlace base.toNat i.toNat ∨ recordPlace base.toNat i.toNat + 16 ≤ x) :
    ((Step.mark base i).run w).dev.flash x = w.dev.flash x := by
  have haddr := hw.recordAddr_toNat hi hbase
  unfold recordPlace at hx
  rw [hw.mark_eq]
  show (w.pwrite (w.recordAddr base i) (w.state.turnRecord i)).dev.flash x = _
  refine hw.pwrite_out ?_
  rw [WlState.turnRecord_length, haddr]
  omega

/-- **The record of the finished turn**, in the first copy. -/
theorem Laid.mark_first (hw : Laid n w) (h : First n st m w) (hid : w.state.wlDeviceId = st.wlDeviceId)
    {i : UInt32} (hi : i.toNat = min m n) :
    First n st (i.toNat + 1) ((Step.mark w.addrState1 i).run w) := by
  have hin : i.toNat ≤ n := by omega
  have hsecond := hw.second
  have hthird := hw.third
  have hholds := hw.holds
  have hrecords := hw.records
  have haddr := hw.recordAddr_toNat hin (.inl rfl)
  have hlen := WlState.turnRecord_length w.state i
  have hrec : w.state.turnRecord i = st.turnRecord i := by
    unfold WlState.turnRecord WlState.turnWords
    rw [hid]
  have hiu : i.toNat.toUInt32 = i := UInt32.toNat_inj.mp (Nat.mod_eq_of_lt i.toNat_lt)
  have hfit : (w.recordAddr w.addrState1 i).toNat + (w.state.turnRecord i).length ≤
      w.ss * w.dev.geometry.sectorCount := by omega
  -- the place is blank, or the record is there already
  have hplace : ∀ k < (w.state.turnRecord i).length,
      w.dev.flash ((w.recordAddr w.addrState1 i).toNat + k) = 0xff ∨
        w.dev.flash ((w.recordAddr w.addrState1 i).toNat + k) = (w.state.turnRecord i).getD k 0xff := by
    intro k hk
    rw [hlen] at hk
    have hget : w.dev.flash ((w.recordAddr w.addrState1 i).toNat + k) =
        (bytesAt w.dev.flash (recordPlace w.addrState1.toNat i.toNat) 16).getD k 0xff := by
      rw [bytesAt_getD hk, haddr]
      rfl
    rw [hget]
    by_cases hm : i.toNat < m
    · right
      rw [h.done _ hin hm, hiu, hrec]
    · left
      rw [h.rest _ hin (Nat.le_of_not_lt hm), List.getD_eq_getElem _ _ (by simpa using hk),
        List.getElem_replicate]
  have hwrite := hw.pwrite_bytes hfit hplace
  rw [haddr, hlen] at hwrite
  have hout : ∀ x, x < recordPlace w.addrState1.toNat i.toNat ∨
      recordPlace w.addrState1.toNat i.toNat + 16 ≤ x →
      ((Step.mark w.addrState1 i).run w).dev.flash x = w.dev.flash x :=
    fun x hx => hw.mark_out hin (.inl rfl) hx
  have hhere : bytesAt ((Step.mark w.addrState1 i).run w).dev.flash
      (recordPlace w.addrState1.toNat i.toNat) 16 = st.turnRecord i := by
    rw [hw.mark_eq, ← hrec]
    exact hwrite
  have hthere : ∀ j ≤ n, j ≠ i.toNat → bytesAt ((Step.mark w.addrState1 i).run w).dev.flash
      (recordPlace w.addrState1.toNat j) 16 =
        bytesAt w.dev.flash (recordPlace w.addrState1.toNat j) 16 := by
    intro j hj hne
    refine bytesAt_congr fun x h1 h2 => hout x ?_
    unfold recordPlace at *
    omega
  have ha : ((Step.mark w.addrState1 i).run w).addrState1 = w.addrState1 := rfl
  refine ⟨?_, fun j hj hjm => ?_, fun j hj hjm => ?_⟩
  · rw [ha, ← h.header]
    refine bytesAt_congr fun x h1 h2 => hout x (.inl ?_)
    unfold recordPlace
    omega
  · rw [ha]
    by_cases hji : j = i.toNat
    · subst hji
      rw [hhere, hiu]
    · rw [hthere j hj hji, h.done j hj (by omega)]
  · rw [ha, hthere j hj (by omega), h.rest j hj (by omega)]

end WlFlash
end FlashVis
