import FlashVis.Fat.Remount
import FlashVis.Lib.Cut

/-!
# A turn of the rotation, cut off anywhere

* `Bare`            the first copy of the state is not sound;
* `Mounts`          what `wlfat_up` makes of the chip when the power comes back;
* `Within`          only one place has changed;
* `Placed.copy_within`, `Placed.erase_within`   the copy of a turn changes the gap alone;
* `Shown.mark`      the record of a turn, and the chip between its two copies.
-/

namespace FlashVis

/-- A state record cannot change in its lap count and keep its check sum. -/
theorem WlState.crc_moves {st : WlState} {x : UInt32}
    (h : ({ st with wlDummySecMoveCount := x } : WlState).crc = st.crc) :
    x = st.wlDummySecMoveCount := by
  have hsplit : ∀ y : UInt32, ({ st with wlDummySecMoveCount := y } : WlState).headV2 =
      le32 st.wlDummySecPos ++ le32 st.wlPartMaxSecPos ++ le32 y ++
        ([st.wlSecEraseCycleCount, st.wlMaxSecEraseCycleCount, st.wlBlockSize,
          st.version].flatMap le32 ++ le32 st.wlDeviceId ++ st.reserved.flatMap le32) := by
    intro y
    unfold WlState.headV2 WlState.headV1
    simp only [List.flatMap_cons, List.flatMap_nil, List.append_nil, List.append_assoc]
  have hself : st.headV2 = ({ st with wlDummySecMoveCount := st.wlDummySecMoveCount } : WlState).headV2 :=
    rfl
  unfold WlState.crc at h
  rw [hself, hsplit, hsplit] at h
  exact le32_injective (espRomCrc32Le_word _ _ h)

namespace WlFlash
variable {n m : Nat} {ss sc : UInt32} {C : Nat → Nat → UInt8} {b w v : WlFlash} {st : WlState}
  {g : Gap n}

/-- The first copy of the state is not sound. -/
def Bare (w : WlFlash) : Prop :=
  (WlState.ofBytes (bytesAt w.dev.flash w.addrState1.toNat 64)).crc ≠
    (WlState.ofBytes (bytesAt w.dev.flash w.addrState1.toNat 64)).crc32

instance (w : WlFlash) : Decidable w.Bare := inferInstanceAs (Decidable (_ ≠ _))

/-- The chip mounts with the contents `C`; where the first copy is sound, as a layer that its chip
shows. -/
structure Mounts (n : Nat) (ss sc : UInt32) (b : WlFlash) (C : Nat → Nat → UInt8) (w : WlFlash) :
    Prop where
  plan : w.plan = b.plan
  mount : ∃ v, wlfatUp ss sc w.partition.hal = .ok v ∧ v.plan = b.plan ∧ Holding n C v ∧
    (¬w.Bare → Kept n C v)

/-! ## frames -/

theorem Shown.congr (h : Shown g C st m w) (hw : Laid n w) (hp : v.plan = w.plan)
    (hload : Loaded g C v) (hf : ∀ x, w.addrState1.toNat ≤ x → v.dev.flash x = w.dev.flash x) :
    Shown g C st m v := by
  have h2 := hw.second
  refine ⟨hload, ?_, h.hole, ?_, ?_⟩
  · rw [plan_cfg hp]
    exact h.sound
  · exact h.first.congr hw (plan_addrState1 hp) fun x hx _ => hf x hx
  · exact h.second.congr (plan_addrState2 hp) fun x hx _ => hf x (by omega)

theorem Shown.mounts (hb : Starts n ss sc b) (h : Shown g C st m w) (hplan : w.plan = b.plan) :
    Mounts n ss sc b C w := by
  obtain ⟨v, hv, hp, hk⟩ := h.mount hb hplan
  exact ⟨hplan, v, hv, hp, hk.holding, fun _ => hk⟩

/-- Only place `p` has changed. -/
structure Within (p : Nat) (w v : WlFlash) : Prop where
  plan : v.plan = w.plan
  state : v.state = w.state
  flash : ∀ x, x < p * w.ss ∨ p * w.ss + w.ss ≤ x → v.dev.flash x = w.dev.flash x

theorem Within.loaded (h : Within g.hole w v) (hl : Loaded g C w) : Loaded g C v := by
  intro k hk o ho
  rw [plan_ss h.plan] at ho ⊢
  rw [h.flash _ ?_]
  · exact hl k hk o ho
  · have hne := g.place_ne_hole k
    rcases Nat.lt_or_gt_of_ne hne with hlt | hlt
    · left
      have hle : (g.place k + 1) * w.ss ≤ g.hole * w.ss := Nat.mul_le_mul_right _ hlt
      rw [Nat.succ_mul] at hle
      omega
    · right
      have hle : (g.hole + 1) * w.ss ≤ g.place k * w.ss := Nat.mul_le_mul_right _ hlt
      rw [Nat.succ_mul] at hle
      omega

theorem Within.shown (h : Within g.hole w v) (hw : Laid n w) (hs : Shown g C st m w) :
    Shown g C st m v := by
  refine hs.congr hw h.plan (h.loaded hs.loaded) fun x hx => h.flash x (.inr ?_)
  have hle : (g.hole + 1) * w.ss ≤ (n + 1) * w.ss :=
    Nat.mul_le_mul_right _ (Nat.succ_le_succ g.hole_le)
  have hbelow := hw.below
  rw [Nat.succ_mul] at hle
  omega

/-! ## the copy of a block -/

/-- Where a turn copies from and to. -/
theorem Placed.turnAddrs (hw : Placed g w) : w.turnAddrs.1.toNat = g.source * w.ss ∧
    w.turnAddrs.2.toNat = g.hole * w.ss := by
  have hh := g.hole_le
  have hn : n + 1 < 2 ^ 32 := by
    rw [← hw.partMax]
    exact w.state.wlPartMaxSecPos.toNat_lt
  have hpage : w.cfg.wlPageSize.toNat = w.ss := by rw [hw.page]; rfl
  have hpos : (w.state.wlDummySecPos + 1).toNat = g.hole + 1 := add_toNat hw.dummy rfl (by omega)
  have hnext : (if w.state.wlPartMaxSecPos ≤ w.state.wlDummySecPos + 1 then 0
      else w.state.wlDummySecPos + 1).toNat = g.source := by
    have hlap : w.state.wlPartMaxSecPos ≤ w.state.wlDummySecPos + 1 ↔ n < g.hole + 1 := by
      rw [UInt32.le_iff_toNat_le, hw.partMax, hpos]
      omega
    unfold Gap.source
    by_cases hc : n < g.hole + 1
    · rw [if_pos (hlap.mpr hc), if_pos hc]
      rfl
    · rw [if_neg (fun h => hc (hlap.mp h)), if_neg hc, hpos]
  unfold WlFlash.turnAddrs
  dsimp only
  rw [hw.start, UInt32.zero_add, UInt32.zero_add]
  exact ⟨mul_toNat hnext hpage (by have := hw.mul_lt g.source_le; omega),
    mul_toNat hw.dummy hpage (by have := hw.mul_lt hh; omega)⟩

theorem Placed.erase_within (hw : Placed g w) :
    Within g.hole w (w.perase w.turnAddrs.2 w.cfg.wlPageSize) := by
  have hpage : w.cfg.wlPageSize.toNat = w.ss := by rw [hw.page]; rfl
  have haddr := hw.turnAddrs.2
  refine ⟨perase_plan _, rfl, fun x hx => ?_⟩
  rw [hw.perase_at (haddr ▸ Nat.dvd_mul_left _ _) (hpage ▸ Nat.dvd_refl _) (hpage ▸ hw.ss_pos), if_neg]
  rw [haddr, hpage]
  omega

theorem Placed.copy_within (hw : Placed g w) (h : Within g.hole w v) {s : Step}
    (hs : s ∈ w.copySteps w.turnAddrs.1 w.turnAddrs.2) : Within g.hole w (s.run v) := by
  have htemp : w.cfg.wlTempBuffSize.toNat = 32 := by rw [hw.temp]; rfl
  have hpage : w.cfg.wlPageSize.toNat = w.ss := by rw [hw.page]; rfl
  have hfit := hw.mul_lt g.hole_le
  unfold copySteps at hs
  obtain ⟨i, hi, rfl⟩ := List.mem_map.mp hs
  have hi : i < (w.cfg.wlPageSize / w.cfg.wlTempBuffSize).toNat := List.mem_range.mp hi
  rw [UInt32.toNat_div, hpage, htemp] at hi
  have hin : (i + 1) * 32 ≤ w.ss := Nat.le_trans (Nat.mul_le_mul_right _ hi) (Nat.div_mul_le_self _ _)
  rw [Nat.succ_mul] at hin
  have hoff : (i.toUInt32 * w.cfg.wlTempBuffSize).toNat = i * 32 :=
    mul_toNat (Nat.mod_eq_of_lt (by omega)) htemp (by omega)
  have hdst : (w.turnAddrs.2 + i.toUInt32 * w.cfg.wlTempBuffSize).toNat = g.hole * w.ss + i * 32 :=
    add_toNat hw.turnAddrs.2 hoff (by omega)
  refine ⟨(readTemp_plan _).trans h.plan, h.state, fun x hx => ?_⟩
  have hv : Laid n v := hw.of_plan h.plan
  have hu : Laid n (v.readTemp (w.turnAddrs.1 + i.toUInt32 * w.cfg.wlTempBuffSize)
      w.cfg.wlTempBuffSize.toNat) := hv.of_plan (readTemp_plan _)
  show (pwrite _ _ _).dev.flash x = _
  rw [hu.pwrite_out ?_, readTemp_flash]
  · exact h.flash x hx
  · rw [hdst, List.length_take, htemp]
    omega

theorem Placed.loaded_turn (hw : Placed g w) (hl : Loaded g C w) :
    Loaded g.turn C ((w.perase w.turnAddrs.2 w.cfg.wlPageSize).copyBlock w.turnAddrs.1 w.turnAddrs.2) := by
  obtain ⟨h1, -, h3⟩ := hw.moved hw.turnAddrs.1 hw.turnAddrs.2
  intro k hk o ho
  rw [layout_ss h1] at ho ⊢
  have hp := g.turn.place_le k
  rw [h3 _ hp o ho, ← hl k hk o ho, g.turn_place hk]
  congr 3
  have hne := g.place_ne_hole k
  split <;> simp_all

/-! ## the records of a turn -/

theorem Laid.mark_plan (hw : Laid n w) (base i : UInt32) : ((Step.mark base i).run w).plan = w.plan := by
  have hlay : (w.fillOkBuff i).layout = w.layout := fillOkBuff_layout i (by rw [hw.buffer]; decide)
  exact plan_of_layout (Eq.trans rfl hlay)

/-- The block of a turn has been copied and the turn recorded in the first copy. -/
structure Marked (g : Gap n) (C : Nat → Nat → UInt8) (st : WlState) (w : WlFlash) : Prop where
  loaded : Loaded g C w
  turned : Loaded g.turn C w
  sound : st.Sound n g.laps w.cfg.version
  first : First n st (g.hole + 1) w
  second : Second st w

theorem Marked.shown_turn (h : Marked g C st w) (hh : g.hole < n) :
    Shown g.turn C st (g.hole + 1) w := by
  obtain ⟨h1, h2⟩ := g.turn_inside hh
  exact ⟨h.turned, h2 ▸ h.sound, by omega, h.first, h.second⟩

theorem Marked.shown_lap (h : Marked g C st w) (hh : g.hole = n) : Shown g C st (g.hole + 1) w :=
  ⟨h.loaded, h.sound, by omega, h.first, h.second⟩

theorem Marked.mounts (hb : Starts n ss sc b) (h : Marked g C st w) (hplan : w.plan = b.plan) :
    Mounts n ss sc b C w := by
  rcases Nat.lt_or_eq_of_le g.hole_le with hh | hh
  · exact (h.shown_turn hh).mounts hb hplan
  · exact (h.shown_lap hh).mounts hb hplan

theorem Marked.congr (h : Marked g C st w) (hw : Laid n w) (hp : v.plan = w.plan)
    (hf : ∀ x < w.addrState2.toNat + 64, v.dev.flash x = w.dev.flash x) : Marked g C st v := by
  have h2 := hw.second
  refine ⟨?_, ?_, ?_, ?_, ?_⟩
  · exact h.loaded.congr hw (plan_ss hp) fun x hx => hf x (by omega)
  · exact h.turned.congr hw (plan_ss hp) fun x hx => hf x (by omega)
  · rw [plan_cfg hp]
    exact h.sound
  · exact h.first.congr hw (plan_addrState1 hp) fun x _ hx => hf x (by omega)
  · exact h.second.congr (plan_addrState2 hp) fun x _ hx => hf x hx

/-- **The first record** of a turn: from now on the chip shows the turn. -/
theorem Shown.mark (hw : Laid n w) (h : Shown g C st m w) (hturn : Loaded g.turn C w)
    (hid : w.state.wlDeviceId = st.wlDeviceId) {i : UInt32} (hi : i.toNat = g.hole) :
    Marked g C st ((Step.mark w.addrState1 i).run w) := by
  have hp := hw.mark_plan w.addrState1 i
  have h2 := hw.second
  have hrec := hw.records
  have hin : i.toNat ≤ n := hi ▸ g.hole_le
  have hout : ∀ x, x < w.addrState1.toNat ∨ w.addrState2.toNat ≤ x →
      ((Step.mark w.addrState1 i).run w).dev.flash x = w.dev.flash x := by
    intro x hx
    refine hw.mark_out hin (.inl rfl) ?_
    unfold recordPlace
    omega
  have hfirst := hw.mark_first h.first hid (hi.trans h.hole)
  rw [hi] at hfirst
  refine ⟨?_, ?_, ?_, hfirst, ?_⟩
  · exact h.loaded.congr hw (plan_ss hp) fun x hx => hout x (.inl hx)
  · exact hturn.congr hw (plan_ss hp) fun x hx => hout x (.inl hx)
  · rw [plan_cfg hp]
    exact h.sound
  · exact h.second.congr (plan_addrState2 hp) fun x hx _ => hout x (.inr hx)

theorem Marked.mark (hw : Laid n w) (h : Marked g C st w) {i : UInt32} (hi : i.toNat = g.hole) :
    Marked g C st ((Step.mark w.addrState2 i).run w) := by
  refine h.congr hw (hw.mark_plan _ _) fun x hx => hw.mark_out (hi ▸ g.hole_le) (.inr rfl) (.inl ?_)
  unfold recordPlace
  omega

/-! ## the end of a lap -/

theorem lapState_sound {s : WlState} {version : UInt32} (hs : s.reserved.length = 7)
    (hver : s.version = version) (hmax : s.wlPartMaxSecPos.toNat = n + 1)
    (hmoves : s.wlDummySecMoveCount.toNat = g.laps) (hcount : s.wlSecEraseCycleCount = 0)
    (hrate : s.wlMaxSecEraseCycleCount = 16) (hh : g.hole = n) :
    (lapState s).Sound n g.turn.laps version := by
  have hl := g.laps_lt
  have hn : n + 1 < 2 ^ 32 := by
    rw [← hmax]
    exact s.wlPartMaxSecPos.toNat_lt
  have hnext : (s.wlDummySecMoveCount + 1).toNat = g.laps + 1 := add_toNat hmoves rfl (by omega)
  have hlast : (s.wlPartMaxSecPos - 1).toNat = n := sub_toNat hmax rfl (Nat.le_add_left _ _)
  refine ⟨hs, rfl, hver, hmax, ?_, rfl, hcount, hrate⟩
  rw [(g.turn_lap hh).2]
  show (if s.wlPartMaxSecPos - 1 ≤ s.wlDummySecMoveCount + 1 then 0
    else s.wlDummySecMoveCount + 1).toNat = _
  have hwrap : s.wlPartMaxSecPos - 1 ≤ s.wlDummySecMoveCount + 1 ↔ n ≤ g.laps + 1 := by
    rw [UInt32.le_iff_toNat_le, hlast, hnext]
  by_cases hw : n ≤ g.laps + 1
  · rw [if_pos (hwrap.mpr hw), if_pos hw]
    rfl
  · rw [if_neg (fun h => hw (hwrap.mp h)), if_neg hw]
    exact hnext

/-- The two states of a lap's end have the same check sum only if they are the same. -/
theorem lapState_crc {s st : WlState} (hst : st = { s with wlDummySecPos := 0, wlSecEraseCycleCount := 0 })
    (hcount : s.wlSecEraseCycleCount = 0) (hcrc : st.crc = st.crc32)
    (h : (lapState s).crc = st.crc) : lapState s = st := by
  have hform : lapState s = { ({ st with
      wlDummySecMoveCount := (lapState s).wlDummySecMoveCount } : WlState) with
      crc32 := (lapState s).crc } := by
    rw [hst]
    unfold lapState
    simp only [WlState.mk.injEq, hcount, true_and]
    rfl
  have hsame : ({ st with wlDummySecMoveCount := (lapState s).wlDummySecMoveCount } : WlState).crc =
      (lapState s).crc := by
    rw [hst]
    unfold lapState WlState.crc WlState.headV2 WlState.headV1
    simp only [hcount]
  have hmoves := WlState.crc_moves (hsame.trans h)
  rw [hform, hmoves, h, hcrc]

end WlFlash
end FlashVis
