import FlashVis.Fat.Copies

/-!
# What `init` recovers

* `WlState.Sound`      a state as it is written to the chip;
* `First.recoverPos`   the search finds how many turns of the lap are finished;
* `init_same`, `init_ahead`, `init_second`, `init_first`   `init` over two copies of one state, over
  a second copy that is behind, and over a single copy.
-/

namespace FlashVis

/-- A state as it is written to the chip: of `n` sectors after `laps` laps, at the start of a lap. -/
structure WlState.Sound (n laps : Nat) (version : UInt32) (st : WlState) : Prop where
  reserved : st.reserved.length = 7
  crc : st.crc = st.crc32
  version : st.version = version
  partMax : st.wlPartMaxSecPos.toNat = n + 1
  moves : st.wlDummySecMoveCount.toNat = laps
  dummy : st.wlDummySecPos = 0
  count : st.wlSecEraseCycleCount = 0
  rate : st.wlMaxSecEraseCycleCount = 16

theorem WlState.bytes_length {st : WlState} (h : st.reserved.length = 7) : st.bytes.length = 64 := by
  have hlen : st.words.length = 16 := by
    unfold WlState.words
    simp only [List.length_append, List.length_cons, List.length_nil, h]
  have hle : ∀ l : List UInt32, (l.flatMap le32).length = 4 * l.length := by
    intro l
    induction l with
    | nil => rfl
    | cons v l ih =>
      rw [List.flatMap_cons, List.length_append, ih, List.length_cons, Nat.mul_succ, Nat.add_comm]
      rfl
  rw [WlState.bytes_words, hle, hlen]

theorem WlState.ofBytes_eq {st : WlState} (h : st.reserved.length = 7) :
    WlState.ofBytes st.bytes = st := by
  have := WlState.ofBytes_bytes h []
  rwa [List.append_nil] at this

namespace WlFlash
variable {n m laps : Nat} {w v : WlFlash} {st : WlState} {addr : UInt32}

/-! ## reading -/

/-- A change of the buffer and of the reported events only. -/
structure Still (w v : WlFlash) : Prop where
  plan : v.plan = w.plan
  state : v.state = w.state
  flash : v.dev.flash = w.dev.flash

theorem Still.refl (w : WlFlash) : Still w w := ⟨rfl, rfl, rfl⟩

theorem Still.trans {u : WlFlash} (h : Still w v) (h' : Still v u) : Still w u :=
  ⟨h'.plan.trans h.plan, h'.state.trans h.state, h'.flash.trans h.flash⟩

theorem plan_addrState1 (h : v.plan = w.plan) : v.addrState1 = w.addrState1 :=
  congrArg (·.addrState1) h

theorem plan_addrState2 (h : v.plan = w.plan) : v.addrState2 = w.addrState2 :=
  congrArg (·.addrState2) h

theorem plan_cfg (h : v.plan = w.plan) : v.cfg = w.cfg := congrArg (·.cfg) h

theorem plan_ss (h : v.plan = w.plan) : v.ss = w.ss := congrArg (·.cfg.flashSectorSize.toNat) h

theorem Laid.area_fits (hw : Laid n w) (h : addr = w.addrState1 ∨ addr = w.addrState2) :
    addr.toNat + w.stateSize.toNat ≤ w.dev.geometry.sectorSize * w.dev.geometry.sectorCount := by
  have h1 := hw.second
  have h2 := hw.third
  have h3 := hw.holds
  rw [hw.chip]
  rcases h with rfl | rfl <;> omega

theorem Laid.pread_eq (hw : Laid n w) (ha : addr = w.addrState1 ∨ addr = w.addrState2)
    {dst : List UInt8} (hdst : dst.length = 64) :
    (w.pread addr dst).2 = bytesAt w.dev.flash addr.toNat 64 ∧ Still w (w.pread addr dst).1 := by
  have hfit := hw.area_fits ha
  have hrec := hw.records
  refine ⟨?_, pread_plan _, rfl, ?_⟩
  · have hfetch := fetch_bytesAt w.dev addr.toNat dst (by omega)
    rw [hdst] at hfetch
    rw [← hfetch]
    simp only [pread, Partition.read, hw.abs]
    split <;> rfl
  · simp only [pread, Partition.read]
    split <;> rfl

theorem Laid.readTemp_take (hw : Laid n w) {base i : UInt32} (hi : i.toNat ≤ n)
    (hbase : base = w.addrState1 ∨ base = w.addrState2) :
    (w.readTemp (w.recordAddr base i) w.cfg.wlPosUpdateRecordSize.toNat).tempBuff =
      bytesAt w.dev.flash (recordPlace base.toNat i.toNat) 16 ++ w.tempBuff.drop 16 ∧
    Still w (w.readTemp (w.recordAddr base i) w.cfg.wlPosUpdateRecordSize.toNat) := by
  have hlen : w.cfg.wlPosUpdateRecordSize.toNat = 16 := by
    rw [hw.record]
    rfl
  have haddr := hw.recordAddr_toNat hi hbase
  have hfit := hw.area_fits hbase
  have hrec := hw.records
  have htake : (w.tempBuff.take 16).length = 16 := by simp [hw.buffer]
  rw [hlen]
  refine ⟨?_, readTemp_plan 16, rfl, readTemp_flash 16⟩
  have hfetch := fetch_bytesAt w.dev (w.recordAddr base i).toNat (w.tempBuff.take 16) (by omega)
  rw [htake, haddr] at hfetch
  have hread : (w.partition.read (w.recordAddr base i) (w.tempBuff.take 16)).2 =
      w.dev.fetch (w.recordAddr base i).toNat (w.tempBuff.take 16) := by
    simp only [Partition.read, hw.abs]
    split <;> rfl
  show (w.partition.read (w.recordAddr base i) (w.tempBuff.take 16)).2 ++ w.tempBuff.drop 16 = _
  rw [hread, haddr, hfetch]
  rfl

theorem First.still (h : First n st m w) (hs : Still w v) : First n st m v := by
  have ha := plan_addrState1 hs.plan
  refine ⟨?_, ?_, ?_⟩ <;> rw [ha, hs.flash]
  · exact h.header
  · exact h.done
  · exact h.rest

theorem First.ofBytes (h : First n st m w) (hst : st.reserved.length = 7) :
    WlState.ofBytes (bytesAt w.dev.flash w.addrState1.toNat 64) = st := by
  rw [h.header]
  exact WlState.ofBytes_eq hst

theorem Second.ofBytes (h : Second st w) (hst : st.reserved.length = 7) :
    WlState.ofBytes (bytesAt w.dev.flash w.addrState2.toNat 64) = st := by
  rw [show bytesAt _ _ _ = st.bytes from h]
  exact WlState.ofBytes_eq hst

/-! ## the search -/

/-- **The search** for the first turn that has no record. -/
theorem First.recoverFrom_eq (hw : Laid n w) (h : First n st m w)
    (hid : w.state.wlDeviceId = st.wlDeviceId) (left : Nat) (i position : UInt32)
    (hi : i.toNat + left = n + 1) (him : i.toNat ≤ m) (hlast : left = 0 → position.toNat = n) :
    (recoverFrom i position left w).2.toNat = min m n := by
  induction left generalizing i position w with
  | zero =>
    have := hlast rfl
    show position.toNat = _
    omega
  | succ left ih =>
    have hin : i.toNat ≤ n := by omega
    have hiu : i.toNat.toUInt32 = i := UInt32.toNat_inj.mp (Nat.mod_eq_of_lt i.toNat_lt)
    obtain ⟨hbuf, hstill⟩ := hw.readTemp_take hin (.inl rfl)
    unfold recoverFrom
    dsimp only
    generalize w.readTemp (w.recordAddr w.addrState1 i) w.cfg.wlPosUpdateRecordSize.toNat = u
      at hbuf hstill
    have hrec : st.turnRecord i = u.state.turnRecord i := by
      unfold WlState.turnRecord WlState.turnWords
      rw [hstill.state, hid]
    by_cases hm : i.toNat < m
    · rw [h.done _ hin hm, hiu, hrec] at hbuf
      rw [okBuffSet_record hbuf, if_pos rfl]
      have hnext : (i + 1).toNat = i.toNat + 1 := by
        have hlt := i.toNat_lt
        have h1 := hw.records
        have h2 := hw.second
        have h3 := hw.third
        have h4 := hw.ends
        exact add_toNat rfl rfl (by omega)
      exact ih (hw.of_plan hstill.plan) (h.still hstill) (hstill.state ▸ hid) _ _ (by omega) (by omega)
        fun _ => by omega
    · rw [h.rest _ hin (Nat.le_of_not_lt hm)] at hbuf
      rw [okBuffSet_blank hbuf, if_neg Bool.false_ne_true]
      show i.toNat = _
      omega

/-- **`recoverPos`** counts the finished turns. -/
theorem First.recoverPos (hw : Laid n w) (h : First n st m w)
    (hid : w.state.wlDeviceId = st.wlDeviceId) (hmax : w.state.wlPartMaxSecPos.toNat = n + 1) :
    ∃ p : UInt32, p.toNat = min m n ∧ w.recoverPos.state = { w.state with wlDummySecPos := p } ∧
      w.recoverPos.plan = w.plan ∧ w.recoverPos.dev.flash = w.dev.flash := by
  have hlt := w.state.wlPartMaxSecPos.toNat_lt
  obtain ⟨h1, h2, h3, -⟩ := recoverFrom_spared w.state.wlPartMaxSecPos.toNat 0 0 w
    (by rw [UInt32.toNat_zero]; omega)
  have hpos := h.recoverFrom_eq hw hid w.state.wlPartMaxSecPos.toNat 0 0
    (by rw [UInt32.toNat_zero, hmax, Nat.zero_add]) (Nat.zero_le _) fun h0 => absurd (h0.symm.trans hmax) (Nat.succ_ne_zero n).symm
  have hplan := recoverPos_plan (w := w)
  unfold WlFlash.recoverPos at hplan ⊢
  dsimp only at hplan ⊢
  generalize recoverFrom 0 0 w.state.wlPartMaxSecPos.toNat w = r at h1 h2 h3 hpos hplan ⊢
  have hne : r.2 ≠ r.1.state.wlPartMaxSecPos := by
    intro h
    rw [h, h2, hmax] at hpos
    omega
  rw [if_neg hne] at hplan ⊢
  refine ⟨r.2, hpos, ?_, hplan, h3⟩
  show { r.1.state with wlDummySecPos := r.2 } = _
  rw [h2]

/-! ## the records that are copied -/

theorem ends_le (hw : Laid n w) (h : addr = w.addrState1 ∨ addr = w.addrState2) :
    addr.toNat + w.stateSize.toNat < 2 ^ 32 := by
  have h1 := hw.second
  have h2 := hw.third
  have h3 := hw.ends
  rcases h with rfl | rfl <;> omega

/-- Copying records changes nothing before the first record of the copy. -/
theorem Aligned.copyRecords (ha : Aligned w) (hw : Laid n w) (src : UInt32) {dst : UInt32}
    (hdst : dst = w.addrState1 ∨ dst = w.addrState2) :
    (w.copyRecords src dst).plan = w.plan ∧ (w.copyRecords src dst).state = w.state ∧
      ∀ x < dst.toNat + 64, (w.copyRecords src dst).dev.flash x = w.dev.flash x := by
  have hfull := ha.full
  have hend := ends_le hw hdst
  have hlen : w.cfg.wlPosUpdateRecordSize.toNat = 16 := by
    rw [hw.record]
    rfl
  refine Loop.foldl_range_inv (P := fun _ (v : WlFlash) => v.plan = w.plan ∧ v.state = w.state ∧
    ∀ x < dst.toNat + 64, v.dev.flash x = w.dev.flash x) _ ⟨rfl, rfl, fun _ _ => rfl⟩
    fun i hi v hv => ?_
  obtain ⟨hplan, hstate, hflash⟩ := hv
  have hv : Laid n v := hw.of_plan hplan
  have hread : ∀ a len, (v.readTemp a len).dev.flash = v.dev.flash := fun a len => readTemp_flash len
  dsimp only
  split
  · refine ⟨(readTemp_plan _).trans hplan, hstate, fun x hx => ?_⟩
    have hiu : i.toUInt32.toNat = i := Nat.mod_eq_of_lt (by omega)
    have haddr : ((v.readTemp (v.recordAddr src i.toUInt32)
        w.cfg.wlPosUpdateRecordSize.toNat).recordAddr dst i.toUInt32).toNat =
          dst.toNat + 64 + i * 16 := by
      show (v.recordAddr dst i.toUInt32).toNat = _
      unfold recordAddr
      rw [hv.record]
      exact add_toNat (add_toNat rfl rfl (by show _ + 64 < _; omega))
        (mul_toNat hiu rfl (by show _ * 16 < _; omega)) (by show _ + 64 + _ * 16 < _; omega)
    have hu : Laid n (v.readTemp (v.recordAddr src i.toUInt32) w.cfg.wlPosUpdateRecordSize.toNat) :=
      hv.of_plan (readTemp_plan _)
    show (pwrite _ _ _).dev.flash x = _
    rw [hu.pwrite_out (.inl (by rw [haddr]; omega)), hread]
    exact hflash x hx
  · refine ⟨(readTemp_plan _).trans hplan, hstate, fun x hx => ?_⟩
    rw [hread]
    exact hflash x hx

/-- The copy at `dst` has started over with the state `st` and no records. -/
structure Restarted (st : WlState) (dst : UInt32) (w v : WlFlash) : Prop where
  plan : v.plan = w.plan
  state : v.state = w.state
  header : bytesAt v.dev.flash dst.toNat 64 = st.bytes
  blank : ∀ x, dst.toNat + 64 ≤ x → x < dst.toNat + w.stateSize.toNat → v.dev.flash x = 0xff
  out : ∀ x, x < dst.toNat ∨ dst.toNat + w.stateSize.toNat ≤ x → v.dev.flash x = w.dev.flash x

theorem Aligned.base (ha : Aligned w) (hw : Laid n w)
    (h : addr = w.addrState1 ∨ addr = w.addrState2) : w.ss ∣ addr.toNat := by
  rcases h with rfl | rfl
  · exact ha.first
  · exact ha.second hw

theorem Aligned.restart (ha : Aligned w) (hw : Laid n w) (hst : st.reserved.length = 7)
    {dst : UInt32} (hdst : dst = w.addrState1 ∨ dst = w.addrState2) :
    Restarted st dst w ((w.perase dst w.stateSize).pwrite dst st.bytes) := by
  have hlen := WlState.bytes_length hst
  have hfit := hw.area_fits hdst
  rw [hw.chip] at hfit
  have hrec := hw.records
  have herase := hw.perase_at (ha.base hw hdst) ha.state hw.state_pos
  have heplan : (w.perase dst w.stateSize).plan = w.plan := perase_plan _
  have hestate : (w.perase dst w.stateSize).state = w.state := rfl
  generalize w.perase dst w.stateSize = e at herase heplan hestate
  have he : Laid n e := hw.of_plan heplan
  have hfit' : dst.toNat + st.bytes.length ≤ e.ss * e.dev.geometry.sectorCount := by
    have hgeo : e.dev.geometry = w.dev.geometry := congrArg (·.partition.hal.dev.geometry) heplan
    rw [plan_ss heplan, hgeo, hlen]
    omega
  have hwrite := he.pwrite_bytes hfit' fun i hi => .inl (by rw [herase, if_pos (by omega)])
  rw [hlen] at hwrite
  refine ⟨(pwrite_plan _).trans heplan, hestate, hwrite, fun x h1 h2 => ?_, fun x hx => ?_⟩
  · rw [he.pwrite_out (.inr (by omega)), herase, if_pos (by omega)]
  · rw [he.pwrite_out (by omega), herase, if_neg (by omega)]

theorem Restarted.first (h : Restarted st w.addrState1 w v) (hw : Laid n w) : First n st 0 v := by
  have hrec := hw.records
  have ha := plan_addrState1 h.plan
  refine ⟨?_, fun j _ hj => absurd hj (Nat.not_lt_zero j), fun j hj _ => ?_⟩ <;> rw [ha]
  · exact h.header
  · refine List.ext_getElem (by simp) fun i h1 h2 => ?_
    have hi : i < 16 := by simpa using h1
    rw [bytesAt_getElem, List.getElem_replicate]
    unfold recordPlace
    exact h.blank _ (by omega) (by omega)

theorem Aligned.rewriteStates (ha : Aligned w) (hw : Laid n w) (hst : w.state.reserved.length = 7) :
    First n w.state 0 w.rewriteStates ∧ Second w.state w.rewriteStates ∧
      w.rewriteStates.state = w.state ∧
      ∀ x < w.addrState1.toNat, w.rewriteStates.dev.flash x = w.dev.flash x := by
  have hr := ha.restart hw hst (.inl rfl)
  have hrewrite : ∀ x, (w.perase w.addrState1 w.stateSize).pwrite w.addrState1 w.state.bytes = x →
      w.rewriteStates = (x.perase x.addrState2 x.stateSize).pwrite x.addrState2 w.state.bytes := by
    intro x hx
    subst hx
    rfl
  generalize (w.perase w.addrState1 w.stateSize).pwrite w.addrState1 w.state.bytes = x at hr hrewrite
  have hx : Laid n x := hw.of_plan hr.plan
  have hx2 := hx.second
  have hx1 := plan_addrState1 hr.plan
  have hr' := (ha.of_plan hr.plan).restart hx hst (.inr rfl)
  rw [hrewrite x rfl]
  refine ⟨(hr.first hw).congr hx (plan_addrState1 hr'.plan) fun y _ hy => hr'.out y (.inl hy), ?_,
    hr'.state.trans hr.state, fun y hy => ?_⟩
  · unfold Second
    rw [plan_addrState2 hr'.plan]
    exact hr'.header
  · rw [hr'.out y (.inl (by rw [← hx1] at hy; omega)), hr.out y (.inl hy)]

/-- The copy at `dst` has started over with the state `st` and the records of the other copy. -/
structure Restored (st : WlState) (dst : UInt32) (w v : WlFlash) : Prop where
  plan : v.plan = w.plan
  state : v.state = w.state
  header : bytesAt v.dev.flash dst.toNat 64 = st.bytes
  data : ∀ x < dst.toNat, v.dev.flash x = w.dev.flash x

theorem Aligned.restore (ha : Aligned w) (hw : Laid n w) (hst : st.reserved.length = 7) (src : UInt32)
    {dst : UInt32} (hdst : dst = w.addrState1 ∨ dst = w.addrState2) :
    Restored st dst w (((w.perase dst w.stateSize).pwrite dst st.bytes).copyRecords src dst) := by
  obtain ⟨hplan, hstate, hheader, -, hout⟩ := ha.restart hw hst hdst
  generalize (w.perase dst w.stateSize).pwrite dst st.bytes = p at hplan hstate hheader hout
  have hbase : dst = p.addrState1 ∨ dst = p.addrState2 := by
    rw [plan_addrState1 hplan, plan_addrState2 hplan]
    exact hdst
  obtain ⟨h1, h2, h3⟩ := (ha.of_plan hplan).copyRecords (hw.of_plan hplan) src hbase
  refine ⟨h1.trans hplan, h2.trans hstate, ?_, fun x hx => ?_⟩
  · rw [← hheader]
    exact bytesAt_congr fun x _ hx => h3 x hx
  · rw [h3 x (by omega), hout x (.inl hx)]

/-! ## `init` -/

/-- What `init` starts from: both states read, the first one in memory. -/
theorem Laid.init_eq (hw : Laid n w) (hlen : w.state.reserved.length = 7) {s1 s2 : WlState}
    (h1 : WlState.ofBytes (bytesAt w.dev.flash w.addrState1.toNat 64) = s1)
    (h2 : WlState.ofBytes (bytesAt w.dev.flash w.addrState2.toNat 64) = s2) :
    ∃ u : WlFlash, u.plan = w.plan ∧ u.dev.flash = w.dev.flash ∧ u.state = s1 ∧
      w.init = .ok { (if s1.crc = s1.crc32 ∧ s2.crc = s2.crc32 then u.initSound s1.crc s2.crc
        else if s1.crc ≠ s1.crc32 ∧ s2.crc ≠ s2.crc32 then u.initNew
        else u.initBroken (s1.crc = s1.crc32) s2) with initialized := true } := by
  obtain ⟨hb1, hr1⟩ := hw.pread_eq (.inl rfl) (WlState.bytes_length hlen)
  have hplan1 : ({ (w.pread w.addrState1 w.state.bytes).1 with initialized := false }.setState s1 :
      WlFlash).plan = w.plan := hr1.plan
  obtain ⟨hb2, hr2⟩ := (hw.of_plan hplan1).pread_eq (.inr rfl)
    (List.length_replicate : (List.replicate 64 (0 : UInt8)).length = 64)
  have hflash1 : ({ (w.pread w.addrState1 w.state.bytes).1 with initialized := false }.setState s1 :
      WlFlash).dev.flash = w.dev.flash := hr1.flash
  have ha2 : ({ (w.pread w.addrState1 w.state.bytes).1 with initialized := false }.setState s1 :
      WlFlash).addrState2 = w.addrState2 := plan_addrState2 hplan1
  rw [hflash1, ha2] at hb2
  unfold init
  rw [hw.configured]
  simp only [Bool.not_true, Bool.false_eq_true, if_false]
  rw [hb1, h1]
  rw [ha2] at hr2
  rw [ha2, hb2, h2]
  exact ⟨_, hr2.plan.trans hplan1, hr2.flash.trans hflash1, hr2.state, by rw [hr2.state]; rfl⟩

/-- The end of a recovery: the restored copy at `a` is read into memory. -/
theorem Laid.reread (hw : Laid n w) (ha : addr = w.addrState1 ∨ addr = w.addrState2)
    (hst : st.reserved.length = 7) (hlen : w.state.reserved.length = 7)
    (hb : bytesAt w.dev.flash addr.toNat 64 = st.bytes) :
    WlState.ofBytes (w.pread addr w.state.bytes).2 = st ∧ Still w (w.pread addr w.state.bytes).1 := by
  obtain ⟨h1, h2⟩ := hw.pread_eq ha (WlState.bytes_length hlen)
  refine ⟨?_, h2⟩
  rw [h1, hb]
  exact WlState.ofBytes_eq hst

section
variable (hw : Laid n w) (ha : Aligned w) (hs : st.Sound n laps w.cfg.version)

include hw ha hs

/-- **No second copy**: it starts over with the state of the first, which is in memory. -/
theorem initBroken_first (hst : w.state = st) (copy : WlState) :
    Restored st w.addrState2 w (w.initBroken true copy) := by
  obtain ⟨hp1, hst1, hb1, hd1⟩ := ha.restore hw hs.reserved w.addrState1 (.inr rfl)
  have hinit : ∀ x, ((w.perase w.addrState2 w.stateSize).pwrite w.addrState2 st.bytes).copyRecords
      w.addrState1 w.addrState2 = x → w.initBroken true copy =
      if ((x.pread x.addrState2 x.state.bytes).1.setState
        (.ofBytes (x.pread x.addrState2 x.state.bytes).2)).state.version ≠
        ((x.pread x.addrState2 x.state.bytes).1.setState
          (.ofBytes (x.pread x.addrState2 x.state.bytes).2)).cfg.version then
        ((x.pread x.addrState2 x.state.bytes).1.setState
          (.ofBytes (x.pread x.addrState2 x.state.bytes).2)).initSections
      else (x.pread x.addrState2 x.state.bytes).1.setState
        (.ofBytes (x.pread x.addrState2 x.state.bytes).2) := by
    intro x hx
    rw [← hx, ← hst]
    rfl
  generalize ((w.perase w.addrState2 w.stateSize).pwrite w.addrState2 st.bytes).copyRecords
    w.addrState1 w.addrState2 = x at hp1 hst1 hb1 hd1 hinit
  rw [hinit x rfl]
  have hx : Laid n x := hw.of_plan hp1
  have hx2 := plan_addrState2 hp1
  obtain ⟨h1, h2⟩ := hx.reread (.inr rfl) hs.reserved
    (by rw [hst1, hst]; exact hs.reserved) (by rw [hx2]; exact hb1)
  rw [h1, if_neg]
  · refine ⟨h2.plan.trans hp1, ?_, ?_, fun a ha => ?_⟩
    · exact hst.symm
    · show bytesAt (x.pread x.addrState2 x.state.bytes).1.dev.flash _ _ = _
      rw [h2.flash]
      exact hb1
    · show (x.pread x.addrState2 x.state.bytes).1.dev.flash a = _
      rw [h2.flash]
      exact hd1 a ha
  · show ¬st.version ≠ (x.pread x.addrState2 x.state.bytes).1.cfg.version
    rw [plan_cfg h2.plan, plan_cfg hp1, hs.version]
    exact fun h => h rfl

/-- **No first copy**: it starts over with the state of the second, and the lap counts as finished. -/
theorem initBroken_second (hlen : w.state.reserved.length = 7) :
    (w.initBroken false st).plan = w.plan ∧
      (∃ q : UInt32, q.toNat = n ∧ (w.initBroken false st).state = { st with wlDummySecPos := q }) ∧
      ∀ x < w.addrState1.toNat, (w.initBroken false st).dev.flash x = w.dev.flash x := by
  obtain ⟨hp1, hst1, hb1, hd1⟩ := ha.restore hw hs.reserved w.addrState2 (.inl rfl)
  have hinit : ∀ x y z, ((w.perase w.addrState1 w.stateSize).pwrite w.addrState1 st.bytes).copyRecords
      w.addrState2 w.addrState1 = x → x.pread x.addrState1 x.state.bytes = (y, z) →
      w.initBroken false st =
      if (y.setState { WlState.ofBytes z with
          wlDummySecPos := (WlState.ofBytes z).wlPartMaxSecPos - 1 }).state.version ≠
        (y.setState { WlState.ofBytes z with
          wlDummySecPos := (WlState.ofBytes z).wlPartMaxSecPos - 1 }).cfg.version then
        (y.setState { WlState.ofBytes z with
          wlDummySecPos := (WlState.ofBytes z).wlPartMaxSecPos - 1 }).initSections
      else y.setState { WlState.ofBytes z with
          wlDummySecPos := (WlState.ofBytes z).wlPartMaxSecPos - 1 } := by
    intro x y z hx hy
    have h1 : (x.pread x.addrState1 x.state.bytes).1 = y := congrArg Prod.fst hy
    have h2 : (x.pread x.addrState1 x.state.bytes).2 = z := congrArg Prod.snd hy
    rw [← h1, ← h2, ← hx]
    rfl
  generalize ((w.perase w.addrState1 w.stateSize).pwrite w.addrState1 st.bytes).copyRecords
    w.addrState2 w.addrState1 = x at hp1 hst1 hb1 hd1 hinit
  have hx : Laid n x := hw.of_plan hp1
  have hx1 := plan_addrState1 hp1
  obtain ⟨h1, h2⟩ := hx.reread (.inl rfl) hs.reserved (by rw [hst1]; exact hlen)
    (by rw [hx1]; exact hb1)
  generalize hy : x.pread x.addrState1 x.state.bytes = r at h1 h2
  obtain ⟨y, z⟩ := r
  dsimp only at h1 h2
  rw [hinit x y z rfl hy, h1, if_neg]
  · refine ⟨h2.plan.trans hp1, ⟨st.wlPartMaxSecPos - 1, ?_, rfl⟩, fun a ha => ?_⟩
    · exact sub_toNat hs.partMax rfl (Nat.le_add_left _ _)
    · show y.dev.flash a = _
      rw [h2.flash]
      exact hd1 a ha
  · show ¬st.version ≠ y.cfg.version
    rw [plan_cfg h2.plan, plan_cfg hp1, hs.version]
    exact fun h => h rfl

end

/-- A layer that is up with the state `st` and the dummy sector at `p`. -/
structure Recovered (st : WlState) (p : Nat) (w v : WlFlash) : Prop where
  plan : v.plan = w.plan
  initialized : v.initialized = true
  state : ∃ q : UInt32, q.toNat = p ∧ v.state = { st with wlDummySecPos := q }
  data : ∀ x < w.addrState1.toNat, v.dev.flash x = w.dev.flash x

section
variable {s2 : WlState} (hw : Laid n w) (ha : Aligned w) (hlen : w.state.reserved.length = 7)
  (hs : st.Sound n laps w.cfg.version)

include hw hlen hs

/-- **Two sound copies**: the position is that of the first. -/
theorem init_same (h : First n st m w)
    (h2 : WlState.ofBytes (bytesAt w.dev.flash w.addrState2.toNat 64) = s2)
    (hs2 : s2.crc = s2.crc32) (heq : st.crc = s2.crc) : ∃ v, w.init = .ok v ∧
      Recovered st (min m n) w v ∧ v.dev.flash = w.dev.flash := by
  have h1 := h.ofBytes hs.reserved
  obtain ⟨u, hplan, hflash, hstate, hinit⟩ := hw.init_eq hlen h1 h2
  have hu : Laid n u := hw.of_plan hplan
  have hfu : First n st m u := h.congr hw (plan_addrState1 hplan) fun x _ _ => congrFun hflash x
  have hver : ¬u.state.version ≠ u.cfg.version := by
    rw [hstate, plan_cfg hplan, hs.version]
    exact fun h => h rfl
  obtain ⟨p, hp, hst, hpl, hfl⟩ := hfu.recoverPos hu (congrArg (·.wlDeviceId) hstate)
    ((congrArg (·.wlPartMaxSecPos.toNat) hstate).trans hs.partMax)
  rw [if_pos ⟨hs.crc, hs2⟩] at hinit
  unfold initSound at hinit
  rw [if_neg hver, if_neg (not_not.mpr heq)] at hinit
  refine ⟨_, hinit, ⟨hpl.trans hplan, rfl, ⟨p, hp, ?_⟩, fun x _ => ?_⟩, hfl.trans hflash⟩
  · show u.recoverPos.state = _
    rw [hst, hstate]
  · show u.recoverPos.dev.flash x = _
    rw [hfl, hflash]

include ha

/-- **A second copy that is behind**: it starts over with the state of the first. -/
theorem init_ahead (h : First n st m w)
    (h2 : WlState.ofBytes (bytesAt w.dev.flash w.addrState2.toNat 64) = s2)
    (hs2 : s2.crc = s2.crc32) (hne : st.crc ≠ s2.crc) : ∃ v, w.init = .ok v ∧
      Recovered st (min m n) w v ∧ First n st m v ∧ Second st v := by
  have h1 := h.ofBytes hs.reserved
  obtain ⟨u, hplan, hflash, hstate, hinit⟩ := hw.init_eq hlen h1 h2
  have hu : Laid n u := hw.of_plan hplan
  have hver : ¬u.state.version ≠ u.cfg.version := by
    rw [hstate, plan_cfg hplan, hs.version]
    exact fun h => h rfl
  obtain ⟨hp1, hst1, hb1, hd1⟩ := (ha.of_plan hplan).restore hu hs.reserved u.addrState1 (.inr rfl)
  rw [if_pos ⟨hs.crc, hs2⟩] at hinit
  unfold initSound at hinit
  rw [if_neg hver, if_pos hne] at hinit
  dsimp only at hinit
  have hbytes : ((u.perase u.addrState2 u.stateSize).state.bytes) = st.bytes :=
    congrArg WlState.bytes hstate
  rw [hbytes] at hinit
  change _ = Except.ok { WlFlash.recoverPos (((u.perase u.addrState2 u.stateSize).pwrite u.addrState2
    st.bytes).copyRecords u.addrState1 u.addrState2) with initialized := true } at hinit
  generalize ((u.perase u.addrState2 u.stateSize).pwrite u.addrState2 st.bytes).copyRecords
    u.addrState1 u.addrState2 = x at hp1 hst1 hb1 hd1 hinit
  have hxplan := hp1.trans hplan
  have hx : Laid n x := hw.of_plan hxplan
  have hdata : ∀ a < w.addrState2.toNat, x.dev.flash a = w.dev.flash a := fun a ha => by
    rw [hd1 a (by rw [plan_addrState2 hplan]; exact ha), hflash]
  have hfx : First n st m x := h.congr hw (plan_addrState1 hxplan) fun a _ ha => hdata a ha
  have hxstate : x.state = st := hst1.trans hstate
  obtain ⟨p, hp, hst, hpl, hfl⟩ := hfx.recoverPos hx (congrArg (·.wlDeviceId) hxstate)
    ((congrArg (·.wlPartMaxSecPos.toNat) hxstate).trans hs.partMax)
  have hsecond := hw.second
  refine ⟨_, hinit, ⟨hpl.trans hxplan, rfl, ⟨p, hp, ?_⟩, fun a ha => ?_⟩, ?_, ?_⟩
  · show x.recoverPos.state = _
    rw [hst, hxstate]
  · show x.recoverPos.dev.flash a = _
    rw [hfl]
    exact hdata a (by omega)
  · exact hfx.congr hx (plan_addrState1 hpl) fun a _ _ => congrFun hfl a
  · show bytesAt x.recoverPos.dev.flash x.recoverPos.addrState2.toNat 64 = _
    rw [hfl, plan_addrState2 hpl, plan_addrState2 hp1]
    exact hb1

/-- **No second copy**: it starts over with the state of the first. -/
theorem init_first (h : First n st m w)
    (h2 : WlState.ofBytes (bytesAt w.dev.flash w.addrState2.toNat 64) = s2)
    (hs2 : s2.crc ≠ s2.crc32) : ∃ v, w.init = .ok v ∧
      Recovered st 0 w v ∧ First n st m v ∧ Second st v := by
  have h1 := h.ofBytes hs.reserved
  obtain ⟨u, hplan, hflash, hstate, hinit⟩ := hw.init_eq hlen h1 h2
  have hu : Laid n u := hw.of_plan hplan
  have hs' : st.Sound n laps u.cfg.version := by
    rw [plan_cfg hplan]
    exact hs
  obtain ⟨hp1, hst1, hb1, hd1⟩ := initBroken_first hu (ha.of_plan hplan) hs' hstate s2
  rw [if_neg (fun hc => hs2 hc.2), if_neg (fun hc => hc.1 hs.crc), decide_eq_true hs.crc] at hinit
  generalize u.initBroken true s2 = x at hp1 hst1 hb1 hd1 hinit
  have hxplan := hp1.trans hplan
  have hdata : ∀ a < w.addrState2.toNat, x.dev.flash a = w.dev.flash a := fun a ha => by
    rw [hd1 a (by rw [plan_addrState2 hplan]; exact ha), hflash]
  have hsecond := hw.second
  refine ⟨_, hinit, ⟨hxplan, rfl, ⟨0, rfl, ?_⟩, fun a ha => hdata a (by omega)⟩, ?_, ?_⟩
  · show x.state = _
    rw [hst1, hstate, ← hs.dummy]
  · exact h.congr hw (plan_addrState1 hxplan) fun a _ ha => hdata a ha
  · show bytesAt x.dev.flash x.addrState2.toNat 64 = _
    rw [plan_addrState2 hp1]
    exact hb1

/-- **No first copy**: the lap of the second counts as finished. -/
theorem init_second {s1 : WlState} (h : Second st w)
    (h1 : WlState.ofBytes (bytesAt w.dev.flash w.addrState1.toNat 64) = s1)
    (hs1 : s1.crc ≠ s1.crc32) : ∃ v, w.init = .ok v ∧ Recovered st n w v := by
  have h2 := h.ofBytes hs.reserved
  obtain ⟨u, hplan, hflash, hstate, hinit⟩ := hw.init_eq hlen h1 h2
  have hu : Laid n u := hw.of_plan hplan
  have hs' : st.Sound n laps u.cfg.version := by
    rw [plan_cfg hplan]
    exact hs
  have hlen' : u.state.reserved.length = 7 := by
    rw [hstate, ← h1]
    rfl
  obtain ⟨hp1, ⟨q, hq, hst1⟩, hd1⟩ := initBroken_second hu (ha.of_plan hplan) hs' hlen'
  rw [if_neg (fun hc => hs1 hc.1), if_neg (fun hc => hc.2 hs.crc), decide_eq_false hs1] at hinit
  refine ⟨_, hinit, ⟨hp1.trans hplan, rfl, ⟨q, hq, hst1⟩, fun a ha => ?_⟩⟩
  show (u.initBroken false st).dev.flash a = _
  rw [hd1 a (by rw [plan_addrState1 hplan]; exact ha), hflash]

end

end WlFlash
end FlashVis
