import FlashVis.Fat.Turn

/-!
# The end of a lap, cut off anywhere

At the end of a lap both copies of the state start over, the first one first.

* `mounts_bare`    the first copy is erased: the second one still shows the lap that ends;
* `mounts_ahead`   the first copy shows the next lap already, the second one still the old;
* `mounts_single`  the second copy is erased;
* `Kept.turn`      a turn of the rotation, cut off at any step and not cut off;
* `Kept.update`    and `updateWL`, which turns at every sixteenth erase.
-/

namespace FlashVis
namespace WlFlash
variable {n m : Nat} {ss sc : UInt32} {C : Nat → Nat → UInt8} {b w v : WlFlash} {st : WlState}
  {g : Gap n} {addr : UInt32}

theorem Aligned.erased (ha : Aligned w) (hw : Laid n w)
    (haddr : addr = w.addrState1 ∨ addr = w.addrState2) (x : Nat) :
    (w.perase addr w.stateSize).dev.flash x =
      if addr.toNat ≤ x ∧ x < addr.toNat + w.stateSize.toNat then 0xff else w.dev.flash x :=
  hw.perase_at (ha.base hw haddr) ha.state hw.state_pos x

theorem erased_unsound {f : Flash} {a : Nat} (h : ∀ x, a ≤ x → x < a + 64 → f x = 0xff) :
    (WlState.ofBytes (bytesAt f a 64)).crc ≠ (WlState.ofBytes (bytesAt f a 64)).crc32 := by
  have hb : bytesAt f a 64 = List.replicate 64 0xff := by
    refine List.ext_getElem (by simp) fun i h1 h2 => ?_
    rw [bytesAt_getElem, List.getElem_replicate]
    exact h _ (Nat.le_add_right _ _) (by simpa using h1)
  rw [hb]
  exact blank_record.1

section
variable (hb : Starts n ss sc b) (hplan : w.plan = b.plan)

include hb hplan

/-- The first copy is erased: the lap counts as finished. -/
theorem mounts_bare (hload : Loaded g C w) (hs : st.Sound n g.laps w.cfg.version) (hh : g.hole = n)
    (h2 : Second st w)
    (h1 : ∀ x, w.addrState1.toNat ≤ x → x < w.addrState1.toNat + 64 → w.dev.flash x = 0xff) :
    Mounts n ss sc b C w := by
  have hbare : w.Bare := erased_unsound h1
  obtain ⟨hlaid, hal, hlen, hu, hflash⟩ := hb.over hplan
  generalize hx : b.setHal w.partition.hal = u at hlaid hal hlen hu hflash
  have hw : Laid n w := hb.laid.of_plan hplan
  have hs' : st.Sound n g.laps u.cfg.version := by
    rw [plan_cfg hu]
    exact hs
  have hunsound := erased_unsound (f := u.dev.flash) (a := u.addrState1.toNat) (by
    rw [hflash, plan_addrState1 hu]
    exact h1)
  have hsecond : Second st u := h2.congr (plan_addrState2 hu) fun x _ _ => congrFun hflash x
  obtain ⟨v, hv, hrec⟩ := init_second hlaid hal hlen hs' hsecond rfl hunsound
  refine ⟨hplan, v, hb.configured.wlfatUp (hx ▸ hv), hrec.plan.trans (hu.trans hplan),
    ⟨hrec.initialized, g, hrec.placed hlaid hh.symm hs', ?_⟩, fun h => absurd hbare h⟩
  have hlu : Loaded g C u := hload.congr hw (plan_ss hu) fun x _ => congrFun hflash x
  exact hlu.congr hlaid (plan_ss hrec.plan) hrec.data

/-- The first copy shows `g` after `m` turns, the second holds another sound state. -/
theorem mounts_ahead {old : WlState} (hload : Loaded g C w) (hs : st.Sound n g.laps w.cfg.version)
    (hh : g.hole = min m n) (h1 : First n st m w) (h2 : Second old w) (hold : old.reserved.length = 7)
    (hcrc : old.crc = old.crc32) (hne : st.crc ≠ old.crc) : Mounts n ss sc b C w := by
  obtain ⟨hlaid, hal, hlen, hu, hflash⟩ := hb.over hplan
  generalize hx : b.setHal w.partition.hal = u at hlaid hal hlen hu hflash
  have hw : Laid n w := hb.laid.of_plan hplan
  have hs' : st.Sound n g.laps u.cfg.version := by
    rw [plan_cfg hu]
    exact hs
  have hfirst : First n st m u := h1.congr hw (plan_addrState1 hu) fun x _ _ => congrFun hflash x
  have hsecond : Second old u := h2.congr (plan_addrState2 hu) fun x _ _ => congrFun hflash x
  obtain ⟨v, hv, hrec, hf, hsec⟩ :=
    init_ahead hlaid hal hlen hs' hfirst (hsecond.ofBytes hold) hcrc hne
  have hkept := hrec.kept hlaid hh.symm (hload.congr hw (plan_ss hu) fun x _ => congrFun hflash x)
    hs' hh hf hsec
  exact ⟨hplan, v, hb.configured.wlfatUp (hx ▸ hv), hrec.plan.trans (hu.trans hplan),
    hkept.holding, fun _ => hkept⟩

theorem mounts_single (hload : Loaded g C w) (hs : st.Sound n g.laps w.cfg.version)
    (hh : g.hole = 0) (h1 : First n st 0 w)
    (h2 : ∀ x, w.addrState2.toNat ≤ x → x < w.addrState2.toNat + 64 → w.dev.flash x = 0xff) :
    Mounts n ss sc b C w := by
  obtain ⟨hlaid, hal, hlen, hu, hflash⟩ := hb.over hplan
  generalize hx : b.setHal w.partition.hal = u at hlaid hal hlen hu hflash
  have hw : Laid n w := hb.laid.of_plan hplan
  have hs' : st.Sound n g.laps u.cfg.version := by
    rw [plan_cfg hu]
    exact hs
  have hfirst : First n st 0 u := h1.congr hw (plan_addrState1 hu) fun x _ _ => congrFun hflash x
  have hunsound := erased_unsound (f := u.dev.flash) (a := u.addrState2.toNat) (by
    rw [hflash, plan_addrState2 hu]
    exact h2)
  obtain ⟨v, hv, hrec, hf, hsec⟩ := init_first hlaid hal hlen hs' hfirst rfl hunsound
  have hkept := hrec.kept hlaid hh.symm (hload.congr hw (plan_ss hu) fun x _ => congrFun hflash x)
    hs' (hh.trans (Nat.zero_min n).symm) hf hsec
  exact ⟨hplan, v, hb.configured.wlfatUp (hx ▸ hv), hrec.plan.trans (hu.trans hplan),
    hkept.holding, fun _ => hkept⟩

end

/-! ## the end of a turn -/

/-- **Both copies start over**: the four calls of the end of a lap. -/
theorem Marked.rewrite (hb : Starts n ss sc b) (h : Marked g C st w) (hplan : w.plan = b.plan)
    (hh : g.hole = n) (hnew : w.state.Sound n g.turn.laps w.cfg.version)
    (hcrc : w.state.crc = st.crc → w.state = st) :
    Cut.Always (Mounts n ss sc b C) Step.run w.rewriteSteps w ∧
      Shown g.turn C w.state 0 (Step.runAll w w.rewriteSteps) ∧
      (Step.runAll w w.rewriteSteps).plan = w.plan := by
  have hw : Laid n w := hb.laid.of_plan hplan
  have ha : Aligned w := hb.aligned.of_plan hplan
  have h2 := hw.second
  have hrec := hw.records
  have hzero : g.turn.hole = min 0 n := by
    rw [(g.turn_lap hh).1]
    exact (Nat.zero_min n).symm
  have hm0 := h.mounts hb hplan
  -- the first copy is erased
  have hm1 : Mounts n ss sc b C (w.perase w.addrState1 w.stateSize) := by
    have hf1 := ha.erased hw (.inl rfl)
    have hp1 : (w.perase w.addrState1 w.stateSize).plan = w.plan := perase_plan _
    refine mounts_bare hb (hp1.trans hplan) (h.loaded.congr hw (plan_ss hp1) fun x hx => ?_)
      (by rw [plan_cfg hp1]; exact h.sound) hh
      (h.second.congr (plan_addrState2 hp1) fun x hx _ => ?_) fun x hx hlt => ?_
    · rw [hf1, if_neg (by omega)]
    · rw [hf1, if_neg (by omega)]
    · rw [plan_addrState1 hp1] at hx hlt
      rw [hf1, if_pos (by omega)]
  -- and shows the next lap
  have hr2 := ha.restart hw hnew.reserved (.inl rfl)
  have halways : ∀ x, (w.perase w.addrState1 w.stateSize).pwrite w.addrState1 w.state.bytes = x →
      Mounts n ss sc b C x → Mounts n ss sc b C (x.perase x.addrState2 x.stateSize) →
      Mounts n ss sc b C (Step.runAll w w.rewriteSteps) →
      Cut.Always (Mounts n ss sc b C) Step.run w.rewriteSteps w := by
    intro x hx h2 h3 h4
    subst hx
    exact ⟨hm0, hm1, h2, h3, h4⟩
  generalize (w.perase w.addrState1 w.stateSize).pwrite w.addrState1 w.state.bytes = x at hr2 halways
  have hx : Laid n x := hw.of_plan hr2.plan
  have hax : Aligned x := ha.of_plan hr2.plan
  have hpx := hr2.plan.trans hplan
  have hx1 := plan_addrState1 hr2.plan
  have hx2 := plan_addrState2 hr2.plan
  have hfirst : First n w.state 0 x := hr2.first hw
  have hload : Loaded g.turn C x := h.turned.congr hw (plan_ss hr2.plan) fun y hy => hr2.out y (.inl hy)
  have hold : Second st x := h.second.congr hx2 fun y hy _ => hr2.out y (.inr (by omega))
  have hsx : w.state.Sound n g.turn.laps x.cfg.version := by
    rw [plan_cfg hr2.plan]
    exact hnew
  have hm2 : Mounts n ss sc b C x := by
    by_cases hsame : w.state.crc = st.crc
    · have hst := hcrc hsame
      exact Shown.mounts hb (m := 0) ⟨hload, hsx, hzero, hfirst, hst ▸ hold⟩ hpx
    · exact mounts_ahead hb hpx hload hsx hzero hfirst hold h.sound.reserved h.sound.crc hsame
  -- the second copy is erased
  have hsecond := hx.second
  have hm3 : Mounts n ss sc b C (x.perase x.addrState2 x.stateSize) := by
    have hf3 := hax.erased hx (.inr rfl)
    have hp3 : (x.perase x.addrState2 x.stateSize).plan = x.plan := perase_plan _
    refine mounts_single hb (hp3.trans hpx) (hload.congr hx (plan_ss hp3) fun y hy => ?_)
      (by rw [plan_cfg hp3]; exact hsx) (g.turn_lap hh).1
      (hfirst.congr hx (plan_addrState1 hp3) fun y _ hy => ?_) fun y hy hlt => ?_
    · rw [hf3, if_neg (by omega)]
    · rw [hf3, if_neg (by omega)]
    · rw [plan_addrState2 hp3] at hy hlt
      rw [hf3, if_pos (by have := hx.records; omega)]
  -- and shows the next lap as well
  rw [rewriteSteps_run] at halways ⊢
  obtain ⟨h1st, h2nd, -, hbelow⟩ := ha.rewriteStates hw hnew.reserved
  have hplan' := rewriteStates_plan (w := w)
  have hshown : Shown g.turn C w.state 0 w.rewriteStates := by
    refine ⟨h.turned.congr hw (plan_ss hplan') hbelow, ?_, hzero, h1st, h2nd⟩
    rw [plan_cfg hplan']
    exact hnew
  exact ⟨halways x rfl hm2 hm3 (hshown.mounts hb (hplan'.trans hplan)), hshown, hplan'⟩

/-! ## a turn -/

theorem Shown.setState (h : Shown g C st m w) (hw : Laid n w) (s : WlState) :
    Shown g C st m (w.setState s) :=
  h.congr hw rfl h.loaded fun _ _ => rfl

/-- **The end of a turn.** -/
theorem Marked.advance (hb : Starts n ss sc b) (h : Marked g C w.stored w) (hplan : w.plan = b.plan)
    (hp : Placed g w) (hi : w.initialized = true) (hcount : w.state.wlSecEraseCycleCount = 0) :
    Cut.Always (Mounts n ss sc b C) Step.run w.advanceSteps w ∧
      Kept n C (Step.runAll w w.advanceSteps) := by
  have hw : Laid n w := hp.toLaid
  have hn : n + 1 < 2 ^ 32 := by
    rw [← hp.partMax]
    exact w.state.wlPartMaxSecPos.toNat_lt
  have hh := g.hole_le
  have hpos : (w.state.wlDummySecPos + 1).toNat = g.hole + 1 := add_toNat hp.dummy rfl (by omega)
  have hlap : w.state.wlPartMaxSecPos ≤ w.state.wlDummySecPos + 1 ↔ n < g.hole + 1 := by
    rw [UInt32.le_iff_toNat_le, hp.partMax, hpos]
    omega
  have hm := h.mounts hb hplan
  have hrate : w.state.wlMaxSecEraseCycleCount = 16 := h.sound.rate
  have hmetered : w.state.wlSecEraseCycleCount < w.state.wlMaxSecEraseCycleCount := by
    rw [hcount, hrate]
    decide
  unfold advanceSteps
  dsimp only
  rcases Nat.lt_or_eq_of_le hh with hlt | heq
  · -- inside a lap
    rw [if_neg (fun hc => by have := hlap.mp hc; omega)]
    obtain ⟨h1, h2⟩ := g.turn_inside hlt
    have hshown := (h.shown_turn hlt).setState hw
      { w.state with wlDummySecPos := w.state.wlDummySecPos + 1 }
    refine ⟨⟨hm, hshown.mounts hb hplan⟩, hi, hmetered, g.turn, g.hole + 1,
      ⟨hw.of_plan rfl, hp.partMax, ?_, ?_⟩, hshown⟩
    · rw [h1]
      exact hpos
    · rw [h2]
      exact hp.moves
  · -- at the end of a lap
    rw [if_pos (hlap.mpr (by omega))]
    have hnew : (lapState w.state).Sound n g.turn.laps w.cfg.version :=
      lapState_sound h.sound.reserved h.sound.version hp.partMax hp.moves hcount hrate heq
    have hmarked : Marked g C w.stored (w.setState (lapState w.state)) :=
      h.congr hw rfl fun _ _ => rfl
    obtain ⟨h1, h2, h3⟩ := hmarked.rewrite hb hplan heq hnew
      (lapState_crc rfl hcount h.sound.crc)
    have hrun : ∀ u, Step.runAll (w.setState (lapState w.state))
        (w.setState (lapState w.state)).rewriteSteps = u →
        u.state = lapState w.state ∧ u.initialized = true := by
      intro u hu
      rw [← hu]
      exact ⟨rfl, hi⟩
    refine ⟨⟨hm, h1⟩, ?_⟩
    rw [Step.runAll_cons]
    show Kept n C (Step.runAll (w.setState (lapState w.state)) _)
    generalize Step.runAll (w.setState (lapState w.state)) _ = u at h2 h3 hrun
    obtain ⟨hstate, hi'⟩ := hrun u rfl
    have hz := (g.turn_lap heq).1
    have hstored : u.stored = lapState w.state := by
      unfold stored
      rw [hstate]
      unfold lapState
      simp only [hcount]
    refine ⟨hi', ?_, g.turn, 0, ⟨hw.of_plan h3, ?_, ?_, ?_⟩, ?_⟩
    · rw [hstate]
      exact hmetered
    · rw [hstate]
      exact hp.partMax
    · rw [hstate, hz]
      rfl
    · rw [hstate]
      exact hnew.moves
    · rw [hstored]
      exact h2

theorem Like.of_plan (hp : v.plan = w.plan) (hs : v.state = w.state) : Like w v :=
  ⟨hs, plan_cfg hp, congrArg (·.flashSize) hp, congrArg (·.stateSize) hp, plan_addrState1 hp,
    plan_addrState2 hp⟩

/-- The copy of the block, cut off anywhere, and at its end. -/
theorem Kept.copied (hb : Starts n ss sc b) (hp : Placed g w) (hs : Shown g C w.stored m w)
    (hplan : w.plan = b.plan) :
    Cut.Always (Mounts n ss sc b C) Step.run (w.copySteps w.turnAddrs.1 w.turnAddrs.2)
        (w.perase w.turnAddrs.2 w.cfg.wlPageSize) ∧
      ∃ x, Step.runAll (w.perase w.turnAddrs.2 w.cfg.wlPageSize)
          (w.copySteps w.turnAddrs.1 w.turnAddrs.2) = x ∧ x.initialized = w.initialized ∧
        Within g.hole w x ∧ Loaded g.turn C x := by
  have hall : Cut.Always (Within g.hole w) Step.run (w.copySteps w.turnAddrs.1 w.turnAddrs.2)
      (w.perase w.turnAddrs.2 w.cfg.wlPageSize) :=
    .of_inv hp.erase_within fun s hs v hv => hp.copy_within hv hs
  refine ⟨hall.mono fun v hv => (hv.shown hp.toLaid hs).mounts hb (hv.plan.trans hplan),
    _, rfl, runAll_initialized _, hall.last, ?_⟩
  have hfold := copySteps_run (w := w.perase w.turnAddrs.2 w.cfg.wlPageSize) w.turnAddrs.1 w.turnAddrs.2
  change Step.runAll _ (w.copySteps w.turnAddrs.1 w.turnAddrs.2) = _ at hfold
  rw [hfold]
  exact hp.loaded_turn hs.loaded

/-- **A turn of the rotation** keeps what the sectors hold, wherever it is cut off. -/
theorem Kept.turn (hb : Starts n ss sc b) (h : Kept n C w) (hplan : w.plan = b.plan)
    (hcount : w.state.wlSecEraseCycleCount = 0) :
    Cut.Always (Mounts n ss sc b C) Step.run w.turnSteps w ∧ Kept n C w.turn := by
  obtain ⟨hi, -, g, m, hp, hs⟩ := h
  obtain ⟨hcopy, x, hx, hxi, hwithin, hturned⟩ := Kept.copied hb hp hs hplan
  have hlx : Laid n x := hp.of_plan hwithin.plan
  have hsx := hwithin.shown hp.toLaid hs
  have hx1 : w.addrState1 = x.addrState1 := (plan_addrState1 hwithin.plan).symm
  have hid : x.state.wlDeviceId = w.stored.wlDeviceId := congrArg (·.wlDeviceId) hwithin.state
  -- the two records
  have hp1 := hlx.mark_plan w.addrState1 w.state.wlDummySecPos
  have hm1 := hsx.mark hlx hturned hid hp.dummy
  rw [← hx1] at hm1
  have hs1 : ((Step.mark w.addrState1 w.state.wlDummySecPos).run x).state = w.state := hwithin.state
  have hi1 : ((Step.mark w.addrState1 w.state.wlDummySecPos).run x).initialized = true := hxi.trans hi
  have hrun : ∀ y, (Step.mark w.addrState1 w.state.wlDummySecPos).run x = y →
      w.turn = Step.runAll ((Step.mark w.addrState2 w.state.wlDummySecPos).run y) w.advanceSteps := by
    intro y hy
    rw [← turnSteps_run, turnSteps, Step.runAll_cons, Step.runAll_append, Step.runAll_append]
    show Step.runAll (Step.runAll (Step.runAll (w.perase _ _) _) _) _ = _
    rw [hx, ← hy]
    rfl
  generalize hy : (Step.mark w.addrState1 w.state.wlDummySecPos).run x = y at hp1 hm1 hs1 hi1 hrun
  have hyplan := hp1.trans hwithin.plan
  have hly : Laid n y := hp.of_plan hyplan
  have hy2 : w.addrState2 = y.addrState2 := (plan_addrState2 hyplan).symm
  have hp2 := hly.mark_plan w.addrState2 w.state.wlDummySecPos
  have hm2 := hm1.mark hly hp.dummy
  rw [← hy2] at hm2
  have hs2 : ((Step.mark w.addrState2 w.state.wlDummySecPos).run y).state = w.state := hs1
  have hi2 : ((Step.mark w.addrState2 w.state.wlDummySecPos).run y).initialized = true := hi1
  rw [hrun y rfl]
  generalize hz : (Step.mark w.addrState2 w.state.wlDummySecPos).run y = z at hp2 hm2 hs2 hi2
  have hzplan := hp2.trans hyplan
  have hpz : Placed g z := ⟨hp.of_plan hzplan, by rw [hs2]; exact hp.partMax,
    by rw [hs2]; exact hp.dummy, by rw [hs2]; exact hp.moves⟩
  have hstored : z.stored = w.stored := by
    unfold stored
    rw [hs2]
  rw [← hstored] at hm2
  obtain ⟨hadv, hkept⟩ := hm2.advance hb (hzplan.trans hplan) hpz hi2 (by rw [hs2]; exact hcount)
  rw [(Like.of_plan hzplan hs2).advanceSteps] at hadv hkept
  have hmarks : Cut.Always (Mounts n ss sc b C) Step.run (w.markSteps ++ w.advanceSteps) x := by
    refine ⟨hsx.mounts hb (hwithin.plan.trans hplan), ?_⟩
    rw [hy]
    refine ⟨hm1.mounts hb (hyplan.trans hplan), ?_⟩
    rw [hz]
    exact hadv
  have hrest : Cut.Always (Mounts n ss sc b C) Step.run
      (w.copySteps w.turnAddrs.1 w.turnAddrs.2 ++ (w.markSteps ++ w.advanceSteps))
      (w.perase w.turnAddrs.2 w.cfg.wlPageSize) := by
    refine hcopy.append ?_
    change Cut.Always _ _ _ (Step.runAll _ _)
    rw [hx]
    exact hmarks
  refine ⟨⟨hs.mounts hb hplan, ?_⟩, hkept⟩
  rw [List.append_assoc]
  exact hrest

theorem Kept.update (hb : Starts n ss sc b) (h : Kept n C w) (hplan : w.plan = b.plan) :
    Cut.Always (Mounts n ss sc b C) Step.run w.updateSteps w ∧ Kept n C w.updateWL := by
  have hcount : ∀ c, c < w.state.wlMaxSecEraseCycleCount →
      Kept n C (w.setState { w.state with wlSecEraseCycleCount := c }) := by
    intro c hc
    obtain ⟨hi, -, g, m, hp, hs⟩ := h
    exact ⟨hi, hc, g, m, ⟨hp.of_plan rfl, hp.partMax, hp.dummy, hp.moves⟩, hs.setState hp.toLaid _⟩
  have hm : ∀ {u}, Kept n C u → u.plan = b.plan → Mounts n ss sc b C u := by
    intro u hu hplan
    obtain ⟨-, -, g, m, hp, hs⟩ := hu
    exact hs.mounts hb hplan
  unfold updateSteps updateWL
  dsimp only
  split
  · rename_i hc
    exact ⟨⟨hm h hplan, hm (hcount _ hc) hplan⟩, hcount _ hc⟩
  · obtain ⟨h1, h2⟩ := (hcount 0 (UInt32.lt_of_le_of_lt UInt32.zero_le h.metered)).turn hb hplan rfl
    exact ⟨⟨hm h hplan, h1⟩, h2⟩

end WlFlash
end FlashVis
