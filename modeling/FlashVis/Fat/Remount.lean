import FlashVis.Fat.Recover

/-!
# Mounting a chip again

* `Loaded`         what the places of a gap hold;
* `Shown`          a chip that shows a gap: both copies hold its state, the first its finished turns;
* `WlFlash.Kept`   a layer whose chip shows what it has in memory;
* `Shown.mount`    `wlfat_up` over such a chip is such a layer, with the same contents.
-/

namespace FlashVis
namespace WlFlash
variable {n m : Nat} {ss sc : UInt32} {C : Nat → Nat → UInt8} {b w v : WlFlash} {st : WlState}

/-- The state as it was last written to the chip. -/
def stored (w : WlFlash) : WlState :=
  { w.state with wlDummySecPos := 0, wlSecEraseCycleCount := 0 }

/-- Byte `o` of logical sector `k` is at its place in the gap. -/
def Loaded (g : Gap n) (C : Nat → Nat → UInt8) (w : WlFlash) : Prop :=
  ∀ k < n, ∀ o < w.ss, w.dev.flash (g.place k * w.ss + o) = C k o

/-- A chip that shows the gap `g`: `st` is in both copies, with the records of `m` turns. -/
structure Shown (g : Gap n) (C : Nat → Nat → UInt8) (st : WlState) (m : Nat) (w : WlFlash) : Prop where
  loaded : Loaded g C w
  sound : st.Sound n g.laps w.cfg.version
  hole : g.hole = min m n
  first : First n st m w
  second : Second st w

/-- A layer whose chip shows what it has in memory. -/
structure Kept (n : Nat) (C : Nat → Nat → UInt8) (w : WlFlash) : Prop where
  initialized : w.initialized = true
  metered : w.state.wlSecEraseCycleCount < w.state.wlMaxSecEraseCycleCount
  shown : ∃ (g : Gap n) (m : Nat), Placed g w ∧ Shown g C w.stored m w

theorem Kept.holding (h : Kept n C w) : Holding n C w := by
  obtain ⟨hi, -, g, m, hp, hs⟩ := h
  exact ⟨hi, g, hp, hs.loaded⟩

theorem Loaded.congr {g : Gap n} (h : Loaded g C w) (hw : Laid n w) (hss : v.ss = w.ss)
    (hf : ∀ x < w.addrState1.toNat, v.dev.flash x = w.dev.flash x) : Loaded g C v := by
  intro k hk o ho
  rw [hss] at ho ⊢
  have hlt := place_lt (w := w) (g.place_le k) ho
  rw [hf _ (Nat.lt_of_lt_of_le hlt hw.below)]
  exact h k hk o ho

/-! ## the layer that is brought up -/

theorem config_setHal {p : Partition} (hb : config (wlfatConfig ss sc) p = .ok b) (hal : Hal) :
    config (wlfatConfig ss sc) { p with hal := hal } = .ok (b.setHal hal) := by
  have htemp : ¬(32 : UInt32) < 16 := by decide
  unfold config at hb ⊢
  simp only [wlfatConfig, htemp, if_false] at hb ⊢
  split at hb
  · cases hb
  rename_i h1
  split at hb
  · cases hb
  rename_i h2
  split at hb
  · cases hb
  rename_i h3
  rw [if_neg h1, if_neg h2]
  refine (if_neg h3).trans ?_
  rw [← Except.ok.inj hb]
  rfl

/-- The layer that `wlfat_up` configures, before `init`. -/
def Configured (ss sc : UInt32) (b : WlFlash) : Prop :=
  ∃ hal, config (wlfatConfig ss sc) ⟨0, ss * sc, ss, hal⟩ = .ok b

theorem Configured.wlfatUp (hb : Configured ss sc b) {hal : Hal}
    (hv : (b.setHal hal).init = .ok v) : FlashVis.wlfatUp ss sc hal = .ok v := by
  obtain ⟨hal0, hc⟩ := hb
  unfold FlashVis.wlfatUp
  rw [show (⟨0, ss * sc, ss, hal⟩ : Partition) = { (⟨0, ss * sc, ss, hal0⟩ : Partition) with hal := hal }
    from rfl, config_setHal hc hal]
  dsimp only
  rw [hv]

theorem Configured.state (hb : Configured ss sc b) : b.state = {} := by
  obtain ⟨hal, hc⟩ := hb
  obtain ⟨crc, -, -, rfl⟩ := config_ok hc
  rfl

theorem setHal_plan (h : w.plan = b.plan) : (b.setHal w.partition.hal).plan = w.plan := by
  have hgeo : w.partition.hal.dev.geometry = b.partition.hal.dev.geometry :=
    congrArg (·.partition.hal.dev.geometry) h
  rw [h]
  simp only [plan, layout, setHal, hgeo]

/-! ## mounting -/

theorem Recovered.placed {p : Nat} {g : Gap n} (h : Recovered st p w v) (hw : Laid n w)
    (hp : p = g.hole) (hs : st.Sound n g.laps w.cfg.version) : Placed g v := by
  obtain ⟨q, hq, hstate⟩ := h.state
  refine ⟨hw.of_plan h.plan, ?_, ?_, ?_⟩ <;> rw [hstate]
  · exact hs.partMax
  · exact hq.trans hp
  · exact hs.moves

/-- A layer that has recovered the state of a chip that shows `g`. -/
theorem Recovered.kept {p : Nat} {g : Gap n} (h : Recovered st p w v) (hw : Laid n w)
    (hp : p = g.hole) (hload : Loaded g C w) (hs : st.Sound n g.laps w.cfg.version)
    (hhole : g.hole = min m n) (hfirst : First n st m v) (hsecond : Second st v) : Kept n C v := by
  obtain ⟨q, -, hstate⟩ := h.state
  have hstored : v.stored = st := by
    unfold stored
    rw [hstate]
    have h1 := hs.dummy
    have h2 := hs.count
    cases st
    simp only [WlState.mk.injEq, true_and, and_true] at h1 h2 ⊢
    exact ⟨h1.symm, h2.symm⟩
  refine ⟨h.initialized, ?_, g, m, h.placed hw hp hs, ?_⟩
  · rw [hstate]
    show st.wlSecEraseCycleCount < st.wlMaxSecEraseCycleCount
    rw [hs.count, hs.rate]
    decide
  rw [hstored]
  refine ⟨hload.congr hw (plan_ss h.plan) h.data, ?_, hhole, hfirst, hsecond⟩
  rw [plan_cfg h.plan]
  exact hs

/-- The layer that starts over a chip. -/
structure Starts (n : Nat) (ss sc : UInt32) (b : WlFlash) : Prop where
  configured : Configured ss sc b
  laid : Laid n b
  aligned : Aligned b

section
variable {g : Gap n} (hb : Starts n ss sc b)

include hb

theorem Starts.over (hplan : w.plan = b.plan) : let u := b.setHal w.partition.hal
    Laid n u ∧ Aligned u ∧ u.state.reserved.length = 7 ∧ u.plan = w.plan ∧ u.dev.flash = w.dev.flash := by
  have hu := setHal_plan hplan
  refine ⟨hb.laid.of_plan (hu.trans hplan), hb.aligned.of_plan (hu.trans hplan), ?_, hu, rfl⟩
  show b.state.reserved.length = 7
  rw [hb.configured.state]
  rfl

/-- **`wlfat_up` over a chip that shows a gap** gives the layer back, with the same contents. -/
theorem Shown.mount (h : Shown g C st m w) (hplan : w.plan = b.plan) :
    ∃ v, wlfatUp ss sc w.partition.hal = .ok v ∧ v.plan = b.plan ∧ Kept n C v := by
  obtain ⟨hlaid, -, hlen, hu, hflash⟩ := hb.over hplan
  generalize hx : b.setHal w.partition.hal = u at hlaid hlen hu hflash
  have hw : Laid n w := hb.laid.of_plan hplan
  have hfirst : First n st m u := h.first.congr hw (plan_addrState1 hu) fun x _ _ => congrFun hflash x
  have hsecond : Second st u := h.second.congr (plan_addrState2 hu) fun x _ _ => congrFun hflash x
  have hs : st.Sound n g.laps u.cfg.version := by
    rw [plan_cfg hu]
    exact h.sound
  obtain ⟨v, hv, hrec, hfl⟩ :=
    init_same hlaid hlen hs hfirst (hsecond.ofBytes hs.reserved) h.sound.crc rfl
  refine ⟨v, hb.configured.wlfatUp (hx ▸ hv), hrec.plan.trans (hu.trans hplan), ?_⟩
  refine hrec.kept hlaid h.hole.symm (h.loaded.congr hw (plan_ss hu) fun x _ => congrFun hflash x)
    hs h.hole ?_ ?_
  · exact hfirst.congr hlaid (plan_addrState1 hrec.plan) fun x _ _ => congrFun hfl x
  · exact hsecond.congr (plan_addrState2 hrec.plan) fun x _ _ => congrFun hfl x

end

/-! ## a blank chip -/

theorem Aligned.initSections (ha : Aligned w) (hw : Laid n w) :
    ∃ st : WlState, st.Sound n 0 w.cfg.version ∧ w.initSections.state = st ∧
      First n st 0 w.initSections ∧ Second st w.initSections ∧
      ∀ x < w.addrState1.toNat, w.initSections.dev.flash x = w.dev.flash x := by
  have hmax : (1 + w.flashSize / w.cfg.wlPageSize).toNat = n + 1 := by
    have hdiv : (w.flashSize / w.cfg.wlPageSize).toNat = n := by
      rw [UInt32.toNat_div, hw.room, hw.page]
      exact Nat.mul_div_cancel _ hw.ss_pos
    have hlt : n * 1 ≤ n * w.ss := Nat.mul_le_mul_left _ hw.ss_pos
    have hhalf := hw.half
    rw [add_toNat (x := 1) rfl hdiv (by omega), Nat.add_comm]
  obtain ⟨id, s, hid⟩ := w.espRandom_eq
  unfold WlFlash.initSections
  rw [hid]
  dsimp only
  have hu : (w.setHal { w.partition.hal with random := s }).plan = w.plan := rfl
  have hsound : ((w.setHal { w.partition.hal with random := s }).freshState id).Sound n 0
      w.cfg.version := by
    refine ⟨rfl, rfl, rfl, hmax, rfl, rfl, ?_, ?_⟩
    · rfl
    · show (if w.cfg.wlUpdateRate ≠ 0 then w.cfg.wlUpdateRate else _) = 16
      rw [ha.rate]
      rfl
  generalize (w.setHal { w.partition.hal with random := s }).freshState id = st at hsound
  have hx : ((w.setHal { w.partition.hal with random := s }).setState st).plan = w.plan := hu
  have hxs : ((w.setHal { w.partition.hal with random := s }).setState st).state = st := rfl
  have hxf : ((w.setHal { w.partition.hal with random := s }).setState st).dev.flash = w.dev.flash := rfl
  generalize (w.setHal { w.partition.hal with random := s }).setState st = x at hx hxs hxf
  have hlx : Laid n x := hw.of_plan hx
  obtain ⟨h1, h2, h3, h4⟩ := (ha.of_plan hx).rewriteStates hlx (by rw [hxs]; exact hsound.reserved)
  have hrp := (rewriteStates_plan (w := x)).trans hx
  rw [hxs] at h1 h2
  generalize x.rewriteStates = y at h1 h2 h3 h4 hrp
  -- the configuration lies behind both copies
  have hly : Laid n y := hw.of_plan hrp
  have hay : Aligned y := ha.of_plan hrp
  have hsecond := hly.second
  have hthird := hly.third
  have hconfig := hly.config
  have hrec := hly.records
  have hout : ∀ z < y.addrCfg.toNat, y.writeCfg.dev.flash z = y.dev.flash z := by
    intro z hz
    have hcfg : y.ss ∣ y.addrCfg.toNat := by
      rw [hthird]
      exact (hay.second hly).add hay.state
    have he : Laid n (y.perase y.addrCfg y.cfgSize) := hly.of_plan (perase_plan _)
    show ((y.perase y.addrCfg y.cfgSize).pwrite y.addrCfg _).dev.flash z = _
    rw [he.pwrite_out (.inl hz), hly.perase_at hcfg hay.config (by omega), if_neg (by omega)]
  have hwp := writeCfg_plan (w := y)
  refine ⟨st, hsound, h3.trans hxs, ?_, ?_, fun z hz => ?_⟩
  · exact h1.congr hly (plan_addrState1 hwp) fun z _ hz => hout z (by omega)
  · exact h2.congr (plan_addrState2 hwp) fun z _ hz => hout z (by omega)
  · have hz1 := plan_addrState1 hrp
    have hz2 := plan_addrState1 hx
    rw [hout z (by rw [← hz1] at hz; omega), h4 z (by rw [hz2]; exact hz), hxf]

theorem setHal_geometry {hal : Hal} (hgeo : hal.dev.geometry = b.dev.geometry) :
    (b.setHal hal).plan = b.plan := by
  have hgeo' : hal.dev.geometry = b.partition.hal.dev.geometry := hgeo
  simp only [plan, layout, setHal, hgeo']

/-- **`wlfat_up` over a blank chip** gives a layer of blank sectors, which its chip shows. -/
theorem Starts.fresh (hb : Starts n ss sc b) {hal : Hal} (hgeo : hal.dev.geometry = b.dev.geometry)
    (hblank : hal.dev.flash = blankFlash) :
    ∃ v, wlfatUp ss sc hal = .ok v ∧ v.plan = b.plan ∧ Kept n (fun _ _ => 0xff) v := by
  have hp := setHal_geometry hgeo
  have hst : (b.setHal hal).state = {} := hb.configured.state
  have hfl : (b.setHal hal).dev.flash = blankFlash := hblank
  generalize hx : b.setHal hal = w at hp hst hfl
  have hw : Laid n w := hb.laid.of_plan hp
  have ha : Aligned w := hb.aligned.of_plan hp
  obtain ⟨hcrc, hver⟩ := blank_record
  have hff : ∀ (f : Flash), f = blankFlash → ∀ a, bytesAt f a 64 = List.replicate 64 0xff := by
    intro f hf a
    refine List.ext_getElem (by simp) fun i h1 h2 => ?_
    rw [bytesAt_getElem, List.getElem_replicate, hf]
    rfl
  obtain ⟨u, hup, huf, hus, hinit⟩ := hw.init_eq (by rw [hst]; rfl)
    (congrArg WlState.ofBytes (hff _ hfl _)) (congrArg WlState.ofBytes (hff _ hfl _))
  have hu : Laid n u := hw.of_plan hup
  -- there is no state of version 1 either
  have hread := hu.pread_eq (.inr rfl)
    (List.length_replicate : (List.replicate 64 (0 : UInt8)).length = 64)
  have hupdate : u.updateV1V2 = ((u.pread u.addrState2 (List.replicate 64 0)).1, false) := by
    unfold updateV1V2
    dsimp only
    rw [if_neg]
    rw [hread.2.state, hus]
    exact fun h => hver h.2.2.2.1
  obtain ⟨hrp, hrs, hrf⟩ := hread.2
  rw [if_neg (fun h => hcrc h.1), if_pos ⟨hcrc, hcrc⟩, initNew, hupdate] at hinit
  simp only [Bool.false_eq_true, if_false] at hinit
  generalize (u.pread u.addrState2 (List.replicate 64 0)).1 = y at hrp hrf hinit
  have hyp := hrp.trans hup
  have hy : Laid n y := hw.of_plan hyp
  obtain ⟨st, hsound, hstate, h1, h2, hdata⟩ := (ha.of_plan hyp).initSections hy
  have hip := (initSections_plan (w := y)).trans hyp
  generalize y.initSections = z at hstate h1 h2 hdata hip hinit
  have hz : Laid n z := hw.of_plan hip
  obtain ⟨q, hq, hrs', hrp', hrf'⟩ := h1.recoverPos hz (congrArg (·.wlDeviceId) hstate)
    ((congrArg (·.wlPartMaxSecPos.toNat) hstate).trans hsound.partMax)
  have hversion : z.cfg.version = y.cfg.version := by
    rw [plan_cfg hip, plan_cfg hyp]
  have hrec : Recovered st 0 z { z.recoverPos with initialized := true } := by
    refine ⟨hrp', rfl, ⟨q, hq.trans (Nat.zero_min n), ?_⟩, fun x _ => congrFun hrf' x⟩
    show z.recoverPos.state = _
    rw [hrs', hstate]
  refine ⟨{ z.recoverPos with initialized := true }, hb.configured.wlfatUp (hx ▸ hinit),
    hrp'.trans (hip.trans hp), ?_⟩
  refine hrec.kept (g := ⟨0, 0, Nat.zero_le n, hw.pos⟩) hz rfl (fun k hk o ho => ?_)
    (by rw [hversion]; exact hsound) (Nat.zero_min n).symm ?_ ?_
  · have hlt := place_lt (w := z) (Gap.place_le ⟨0, 0, Nat.zero_le n, hw.pos⟩ k) ho
    have hbelow := hz.below
    have ha1 : z.addrState1 = y.addrState1 := by
      rw [plan_addrState1 hip, plan_addrState1 hyp]
    rw [hdata _ (by rw [← ha1]; omega), hrf, huf, hfl]
    rfl
  · exact h1.congr hz (plan_addrState1 hrp') fun x _ _ => congrFun hrf' x
  · exact h2.congr (plan_addrState2 hrp') fun x _ _ => congrFun hrf' x

end WlFlash
end FlashVis
