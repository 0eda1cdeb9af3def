import FlashVis.Fat.Lap

/-!
# A write, cut off anywhere

* `Torn`                 a write that was cut off: each of its sectors is as before, blank or written;
* `MountsTorn`           the chip mounts again with such sectors;
* `Kept.eraseEach`, `Kept.putEach`   the two loops of a write, cut off at any step;
* `Kept.diskWrite`       a `disk_write`, cut off at any step and not cut off.
-/

namespace FlashVis
namespace WlFlash
variable {n : Nat} {ss sc : UInt32} {C D : Nat → Nat → UInt8} {b w v : WlFlash}

/-! ## one sector -/

theorem Placed.unique {g g' : Gap n} (h : Placed g w) (h' : Placed g' v) (hs : v.state = w.state) :
    g' = g := by
  have h1 : g'.hole = g.hole := by rw [← h'.dummy, hs, h.dummy]
  have h2 : g'.laps = g.laps := by rw [← h'.moves, hs, h.moves]
  cases g
  cases g'
  simp only [Gap.mk.injEq]
  exact ⟨h1, h2⟩

/-- A change of what the sectors hold, with no change behind the data. -/
theorem Kept.of_holding (h : Kept n C w) (hv : Holding n D v) (hp : v.plan = w.plan)
    (hs : v.state = w.state) (hf : ∀ x, w.addrState1.toNat ≤ x → v.dev.flash x = w.dev.flash x) :
    Kept n D v := by
  obtain ⟨-, hm, g, m, hpl, hsh⟩ := h
  obtain ⟨hi, g', hpl', hload⟩ := hv
  have hg := hpl.unique hpl' hs
  subst hg
  have hw : Laid n w := hpl.toLaid
  have h2 := hw.second
  have hstored : v.stored = w.stored := by
    unfold stored
    rw [hs]
  refine ⟨hi, hs ▸ hm, g', m, hpl', ?_⟩
  rw [hstored]
  refine ⟨hload, ?_, hsh.hole, hsh.first.congr hw (plan_addrState1 hp) fun x hx _ => hf x hx,
    hsh.second.congr (plan_addrState2 hp) fun x hx _ => hf x (by omega)⟩
  rw [plan_cfg hp]
  exact hsh.sound

theorem Kept.mounts (hb : Starts n ss sc b) (h : Kept n C w) (hplan : w.plan = b.plan) :
    Mounts n ss sc b C w := by
  obtain ⟨-, -, g, m, -, hs⟩ := h
  exact hs.mounts hb hplan

theorem Kept.laid (h : Kept n C w) : Laid n w := by
  obtain ⟨-, -, g, m, hp, -⟩ := h
  exact hp.toLaid

theorem Kept.congr (h : Kept n C w) (hCD : ∀ k < n, ∀ o < w.ss, C k o = D k o) : Kept n D w := by
  obtain ⟨hi, hm, g, m, hp, hs⟩ := h
  exact ⟨hi, hm, g, m, hp, fun k hk o ho => (hs.loaded k hk o ho).trans (hCD k hk o ho), hs.sound,
    hs.hole, hs.first, hs.second⟩

/-- **Erasing a sector**, cut off anywhere. -/
theorem Kept.eraseSector (hb : Starts n ss sc b) (h : Kept n C w) (hplan : w.plan = b.plan)
    {sector : UInt32} {k : Nat} (hs : sector.toNat = k) (hk : k < n) :
    Cut.Always (fun u => Mounts n ss sc b C u ∨
        Mounts n ss sc b (fun j o => if j = k then 0xff else C j o) u)
      Step.run (w.eraseSectorSteps sector) w ∧
    Kept n (fun j o => if j = k then 0xff else C j o) (w.eraseSector sector) ∧
    (w.eraseSector sector).plan = w.plan := by
  obtain ⟨halways, hkept⟩ := h.update hb hplan
  obtain ⟨herased, hlay⟩ := eraseSector_holding h.holding hs hk
  have hup : w.updateWL.plan = w.plan := plan_of_layout (updateWL_holding h.holding).2
  have hplan' := plan_of_layout hlay
  have hfinal : Kept n (fun j o => if j = k then 0xff else C j o) (w.eraseSector sector) := by
    refine hkept.of_holding herased (hplan'.trans hup.symm) rfl fun x hx => ?_
    obtain ⟨-, g, hp, -⟩ := hkept.holding
    have hle := g.place_le k
    have hbelow := hp.below
    have haddr := calcAddr_place hp hk (hp.sector_toNat hs (Nat.le_of_lt hk))
    have hphys := hp.div_toNat haddr
    unfold WlFlash.eraseSector
    dsimp only
    generalize w.updateWL = v at hp hbelow hphys hx
    generalize (v.cfg.wlPartitionStartAddr + _) / v.cfg.flashSectorSize = p at hphys
    have habs : (v.partition.startAddr + p * v.partition.sectorSize).toNat = g.place k * v.ss := by
      rw [hp.abs, hp.sectorSize]
      exact hp.sector_toNat hphys hle
    have hsz : v.partition.sectorSize.toNat = v.dev.geometry.sectorSize := by
      rw [hp.sectorSize, hp.chip]
      rfl
    show (v.dev.erase (v.partition.startAddr + p * v.partition.sectorSize).toNat
      v.partition.sectorSize.toNat).1.flash x = v.dev.flash x
    rw [habs, hsz, ← hp.chip, Device.erase_block (hp.chip ▸ hp.ss_pos), hp.chip, if_neg]
    intro hdiv
    have hlt : x < (g.place k + 1) * v.ss := (Nat.div_lt_iff_lt_mul hp.ss_pos).mp (by omega)
    have hmul : (g.place k + 1) * v.ss ≤ (n + 1) * v.ss := Nat.mul_le_mul_right _ (by omega)
    omega
  refine ⟨?_, hfinal, hplan'⟩
  unfold eraseSectorSteps
  refine (halways.mono fun u hu => .inl hu).append ⟨.inl ?_, .inr ?_⟩
  · change Mounts n ss sc b C (Step.runAll w w.updateSteps)
    rw [updateSteps_run]
    exact hkept.mounts hb (hup.trans hplan)
  · change Mounts n ss sc b _ ((Step.eraseSector _).run (Step.runAll w w.updateSteps))
    rw [updateSteps_run]
    exact hfinal.mounts hb (hplan'.trans hplan)

/-- **Programming a sector.** -/
theorem Kept.writePage (h : Kept n C w) {addr : UInt32} {k : Nat} (hk : k < n)
    (ha : addr.toNat = k * w.ss) {src : List UInt8} (hlen : src.length = w.ss)
    (hv : Holding n D (w.writePage addr src)) : Kept n D (w.writePage addr src) := by
  refine h.of_holding hv (pwrite_plan _) rfl fun x hx => ?_
  obtain ⟨-, g, hp, -⟩ := h.holding
  have hle := g.place_le k
  have hbelow := hp.below
  have haddr := calcAddr_place hp hk ha
  have hmul : (g.place k + 1) * w.ss ≤ (n + 1) * w.ss := Nat.mul_le_mul_right _ (by omega)
  rw [Nat.succ_mul] at hmul
  unfold WlFlash.writePage
  rw [hp.start, UInt32.zero_add]
  exact hp.pwrite_out (.inr (by rw [haddr, hlen]; omega))

/-! ## a write -/

/-- `D` holds in each sector what `C` holds in it, or, in a sector of the range, blank bytes or the
bytes of the buffer. -/
def Torn (s c size : Nat) (buff : List UInt8) (C D : Nat → Nat → UInt8) : Prop :=
  ∀ k, (∀ o < size, D k o = C k o) ∨ (s ≤ k ∧ k < s + c ∧ ((∀ o < size, D k o = 0xff) ∨
    ∀ o < size, D k o = buff.getD ((k - s) * size + o) 0xff))

theorem Torn.refl (s c size : Nat) (buff : List UInt8) (C : Nat → Nat → UInt8) :
    Torn s c size buff C C := fun _ => .inl fun _ _ => rfl

/-- What the sectors hold once the first `i` of the range are erased. -/
def blanked (s i : Nat) (C : Nat → Nat → UInt8) (k o : Nat) : UInt8 :=
  if s ≤ k ∧ k < s + i then 0xff else C k o

theorem torn_blanked {s c size i : Nat} {buff : List UInt8} (hi : i ≤ c) :
    Torn s c size buff C (blanked s i C) := by
  intro k
  unfold blanked
  by_cases hk : s ≤ k ∧ k < s + i
  · exact .inr ⟨hk.1, by omega, .inl fun _ _ => if_pos hk⟩
  · exact .inl fun _ _ => if_neg hk

theorem torn_masked {s c size i : Nat} {buff : List UInt8} (hi : i ≤ c) :
    Torn s c size buff C (masked (blanked s c C) s i size buff) := by
  intro k
  unfold masked blanked
  by_cases hk : s ≤ k ∧ k < s + c
  · refine .inr ⟨hk.1, hk.2, ?_⟩
    by_cases hki : s ≤ k ∧ k < s + i
    · right
      intro o _
      rw [if_pos hki, if_pos hk]
      exact UInt8.neg_one_and
    · left
      intro o _
      rw [if_neg hki, if_pos hk]
  · left
    intro o _
    rw [if_neg (by omega), if_neg hk]

/-- The chip mounts with torn contents. -/
def MountsTorn (n : Nat) (ss sc : UInt32) (b : WlFlash) (s c : Nat) (buff : List UInt8)
    (C : Nat → Nat → UInt8) (u : WlFlash) : Prop :=
  ∃ D, Torn s c b.ss buff C D ∧ Mounts n ss sc b D u

theorem eachSteps_concat (f : Nat → WlFlash → List Step) (l : List Nat) (i : Nat) (w : WlFlash) :
    eachSteps f (l ++ [i]) w = eachSteps f l w ++ f i (Step.runAll w (eachSteps f l w)) := by
  induction l generalizing w with
  | nil => simp [eachSteps, Step.runAll]
  | cons j l ih =>
    rw [List.cons_append, eachSteps, eachSteps, ih, List.append_assoc, Step.runAll_append]

theorem Laid.start_toNat (hw : Laid n w) {s : UInt32} (hs : s.toNat ≤ n) :
    (s * w.cfg.flashSectorSize / w.cfg.flashSectorSize).toNat = s.toNat := by
  rw [UInt32.toNat_div, hw.sector_toNat rfl hs]
  exact Nat.mul_div_cancel _ hw.ss_pos

theorem Laid.count_toNat (hw : Laid n w) {c : UInt32} (hc : c.toNat ≤ n) :
    ((c * w.cfg.flashSectorSize + w.cfg.flashSectorSize - 1) / w.cfg.flashSectorSize).toNat =
      c.toNat := by
  have hfit := hw.mul_lt hc
  have hpos := hw.ss_pos
  rw [UInt32.toNat_div, sub_toNat (add_toNat (mul_toNat rfl rfl
    (by show c.toNat * w.ss < _; omega)) rfl hfit) rfl (by show 1 ≤ _ + w.ss; omega)]
  show (c.toNat * w.ss + w.ss - 1) / w.ss = c.toNat
  rw [Nat.div_eq_iff hpos]
  omega

section
variable (hb : Starts n ss sc b) {s c : Nat} {buff : List UInt8}

include hb

variable (buff) in
theorem Kept.eraseEach (h : Kept n C w) (hplan : w.plan = b.plan) {start : UInt32}
    (hs : start.toNat = s) (hin : s + c ≤ n) (i : Nat) (hi : i ≤ c) :
    Cut.Always (MountsTorn n ss sc b s c buff C) Step.run
        (eachSteps (fun i => eraseSectorSteps (start + i.toUInt32)) (List.range i) w) w ∧
      Kept n (blanked s i C)
        (Step.runAll w (eachSteps (fun i => eraseSectorSteps (start + i.toUInt32)) (List.range i) w)) ∧
      (Step.runAll w (eachSteps (fun i => eraseSectorSteps (start + i.toUInt32))
        (List.range i) w)).plan = b.plan := by
  induction i with
  | zero =>
    have hzero : Kept n (blanked s 0 C) w := h.congr fun k _ o _ => by
      unfold blanked
      rw [if_neg (by omega)]
    exact ⟨⟨C, Torn.refl _ _ _ _ _, h.mounts hb hplan⟩, hzero, hplan⟩
  | succ i ih =>
    obtain ⟨halways, hkept, hpl⟩ := ih (by omega)
    rw [List.range_succ, eachSteps_concat, Step.runAll_append]
    have hhalf := hkept.laid.half
    have hn : s + i < 2 ^ 32 := by
      have hle := Nat.mul_le_mul_left n hkept.laid.ss_pos
      omega
    generalize hu : Step.runAll w (eachSteps _ (List.range i) w) = u at hkept hpl hhalf
    obtain ⟨hstep, hnext, hplan'⟩ :=
      hkept.eraseSector hb hpl (sector_add_toNat hs hn) (by omega : s + i < n)
    have hsame : ∀ k o, (if k = s + i then 0xff else blanked s i C k o) = blanked s (i + 1) C k o := by
      intro k o
      unfold blanked
      by_cases hk : k = s + i
      · rw [if_pos hk, if_pos (by omega)]
      · rw [if_neg hk]
        by_cases hr : s ≤ k ∧ k < s + i
        · rw [if_pos hr, if_pos (by omega)]
        · rw [if_neg hr, if_neg (by omega)]
    simp only [hsame] at hstep hnext
    rw [eraseSectorSteps_run]
    refine ⟨halways.append ?_, hnext, hplan'.trans hpl⟩
    change Cut.Always _ _ _ (Step.runAll w _)
    rw [hu]
    refine hstep.mono fun x hx => ?_
    rcases hx with hx | hx
    · exact ⟨_, torn_blanked (by omega), hx⟩
    · exact ⟨_, torn_blanked hi, hx⟩

theorem Kept.putEach (h : Kept n (blanked s c C) w) (hplan : w.plan = b.plan) {addr : Nat → UInt32}
    (haddr : ∀ i < c, (addr i).toNat = (s + i) * b.ss) (hin : s + c ≤ n)
    (hlen : buff.length = c * b.ss) (i : Nat) (hi : i ≤ c) :
    Cut.Always (MountsTorn n ss sc b s c buff C) Step.run
        ((List.range i).map fun j => w.putStep (addr j) ((buff.drop (j * b.ss)).take b.ss)) w ∧
      Kept n (masked (blanked s c C) s i b.ss buff) (Step.runAll w
        ((List.range i).map fun j => w.putStep (addr j) ((buff.drop (j * b.ss)).take b.ss))) ∧
      (Step.runAll w ((List.range i).map fun j =>
        w.putStep (addr j) ((buff.drop (j * b.ss)).take b.ss))).plan = b.plan := by
  induction i with
  | zero =>
    have hzero : Kept n (masked (blanked s c C) s 0 b.ss buff) w := h.congr fun k _ o _ => by
      unfold masked
      rw [if_neg (by omega)]
    exact ⟨⟨_, torn_blanked (Nat.le_refl c), h.mounts hb hplan⟩, hzero, hplan⟩
  | succ i ih =>
    obtain ⟨halways, hkept, hpl⟩ := ih (by omega)
    obtain ⟨hrun, hlike⟩ := putSteps_run (w := w) addr (fun j => (buff.drop (j * b.ss)).take b.ss)
      (List.range i) (v := w) ⟨rfl, rfl, rfl, rfl, rfl, rfl⟩
    rw [← hrun] at hlike
    rw [List.range_succ, List.map_append, List.map_singleton, Step.runAll_append]
    generalize hu : Step.runAll w ((List.range i).map _) = u at hkept hpl hlike
    have hss : u.ss = b.ss := plan_ss hpl
    have hput : (w.putStep (addr i) ((buff.drop (i * b.ss)).take b.ss)).run u =
        u.writePage (addr i) ((buff.drop (i * b.ss)).take b.ss) := by
      rw [← hlike.putStep]
      rfl
    have hlen' := chunk_length hlen (i := i) (by omega)
    have ha : (addr i).toNat = (s + i) * u.ss := by
      rw [hss]
      exact haddr i (by omega)
    have hmasked := masked_turn hkept.holding hss (by omega) ha hlen' fun o ho => chunk_getD ho
    have hnext := hkept.writePage (by omega) ha (hlen'.trans hss.symm) hmasked
    have hrun1 : Step.runAll u [w.putStep (addr i) ((buff.drop (i * b.ss)).take b.ss)] =
        u.writePage (addr i) ((buff.drop (i * b.ss)).take b.ss) := hput
    rw [hrun1]
    refine ⟨halways.append ?_, hnext, (pwrite_plan _).trans hpl⟩
    change Cut.Always _ _ _ (Step.runAll w _)
    rw [hu]
    refine ⟨⟨_, torn_masked (by omega), hkept.mounts hb hpl⟩, ?_⟩
    rw [hput]
    exact ⟨_, torn_masked hi, hnext.mounts hb ((pwrite_plan _).trans hpl)⟩

/-- **A `disk_write`**, cut off at any step: it tears no sector but those of its range. -/
theorem Kept.diskWrite (h : Kept n C w) (hplan : w.plan = b.plan) {sector count : UInt32}
    (hr : (DiskOp.write buff sector count).InRange n w.ss) :
    Cut.Always (MountsTorn n ss sc b sector.toNat count.toNat buff C) Step.run
        (w.diskWriteSteps buff sector count) w ∧
      ∃ v, FlashVis.diskWrite buff sector count (some w) = (.ok, some v) ∧ v.plan = b.plan ∧
        Kept n (masked (blanked sector.toNat count.toNat C) sector.toNat count.toNat w.ss buff) v := by
  obtain ⟨hc, hin, hlen⟩ := hr
  have hw := h.laid
  have hss : w.ss = b.ss := plan_ss hplan
  rw [hss] at hlen
  have hhalf := hw.half
  have hstart := hw.start_toNat (s := sector) (by omega)
  have hcount := hw.count_toNat (c := count) (by omega)
  obtain ⟨herase, hblank, hpl⟩ := h.eraseEach hb buff hplan hstart hin count.toNat (Nat.le_refl _)
  have htake : buff.take (count * w.cfg.flashSectorSize).toNat = buff := by
    rw [hw.bytes_toNat (by omega), hss, ← hlen]
    exact List.take_length
  have hcall := diskWrite_steps h.initialized
    (by rw [hw.getSectorSize_eq]; exact hw.getSectorSize_ne) buff sector count
  rw [hcall]
  unfold diskWriteSteps eraseRangeSteps
  dsimp only
  rw [hw.getSectorSize_eq, hcount, htake, Step.runAll_append]
  generalize hu : Step.runAll w (eachSteps _ (List.range count.toNat) w) = u at hblank hpl
  -- what is left is the pages
  have hlu := hblank.laid
  have hssu : u.ss = b.ss := plan_ss hpl
  have hcfg : u.cfg = w.cfg := plan_cfg (hpl.trans hplan.symm)
  have hpage : u.cfg.wlPageSize.toNat = b.ss := by
    rw [hlu.page]
    exact hssu
  have haddr : ∀ i < count.toNat, (sector * w.cfg.flashSectorSize +
      i.toUInt32 * u.cfg.wlPageSize).toNat = (sector.toNat + i) * b.ss := by
    intro i hi
    rw [← hssu, ← hcfg]
    exact hlu.range_toNat rfl hin hi
  have hputs : u.writeSteps (sector * w.cfg.flashSectorSize) buff = (List.range count.toNat).map
      fun j => u.putStep (sector * w.cfg.flashSectorSize + j.toUInt32 * u.cfg.wlPageSize)
        ((buff.drop (j * b.ss)).take b.ss) := by
    have hrange : List.range count.toNat = List.range (count.toNat - 1) ++ [count.toNat - 1] := by
      rw [← List.range_succ, Nat.succ_eq_add_one, Nat.sub_add_cancel hc]
    unfold writeSteps
    dsimp only
    rw [hlu.pages_toNat hc (by omega) (by rw [hssu]; exact hlen), hpage, hrange, List.map_append,
      List.map_singleton, ← last_chunk hlen hc]
  obtain ⟨hput, hdone, hpl'⟩ := hblank.putEach hb hpl haddr hin hlen count.toNat (Nat.le_refl _)
  rw [← hputs] at hput hdone hpl'
  refine ⟨herase.append ?_, _, rfl, hpl', ?_⟩
  · change Cut.Always _ _ _ (Step.runAll w _)
    rw [hu]
    exact hput
  · rw [hss]
    exact hdone

end

end WlFlash
end FlashVis
