import FlashVis.Fat.Cover

/-!
# The places in the live map

* `Walk.Mapped`        what the buffer of the caller holds while the sweep is on its way;
* `classify_mapped`    after the sweep every page of the sectors that the map takes the chip to have
                       is written.
-/

namespace FlashVis
open Bounded

namespace Walk
variable {x y : Walk} {pages m s : Nat} {out out' : Out}

/-- The physical sectors of the configuration and the state copies, as the map takes them. -/
def Pinned (x : Walk) (s : Nat) : Prop :=
  s = (x.wl.addrState1 / x.sSs).toNat ∨ s = (x.wl.addrState2 / x.sSs).toNat ∨
    s = (x.wl.addrCfg / x.sSs).toNat

/-- The pages of the three pinned sectors are class 4, those of the others have a reported class or,
from sector `m` on, none yet; behind the last sector nothing is written. -/
structure Mapped (x : Walk) (m : Nat) (out : Out) : Prop where
  beyond : ∀ p, x.ndev.toNat ≤ p / x.ppp → out p = none
  pinned : ∀ p, p / x.ppp < x.ndev.toNat → x.Pinned (p / x.ppp) → out p = some clsWl
  settled : ∀ s < x.ndev.toNat, ¬x.Pinned s → (∀ p, p / x.ppp = s → ∃ v, out p = some v ∧ Final v) ∨
    (m ≤ s ∧ ∀ p, p / x.ppp = s → out p = some pgFree)

theorem Like.ndev (h : Like x y) : y.ndev = x.ndev := by
  unfold Like at h
  rw [h]
  rfl

theorem Like.pinned (h : Like x y) : y.Pinned s ↔ x.Pinned s := by
  unfold Like at h
  rw [h]
  rfl

theorem Mapped.of_like (h : Like x y) (hm : Mapped y m out) : Mapped x m out := by
  have hp : y.ppp = x.ppp := h.ppp
  have hn : y.ndev = x.ndev := h.ndev
  refine ⟨?_, fun p => ?_, fun s => ?_⟩
  · rw [← hp, ← hn]
    exact hm.beyond
  · rw [← hp, ← hn, ← h.pinned]
    exact hm.pinned p
  · rw [← hp, ← hn, ← h.pinned]
    exact hm.settled s

theorem Bounded.ndev_toNat (hx : Walk.Bounded x) : x.ndev.toNat = x.sNlog.toNat + 4 := by
  have h := hx.nlog_le
  have h1 : (x.sNlog + 1).toNat = x.sNlog.toNat + 1 := WlFlash.add_toNat rfl rfl (by omega)
  exact WlFlash.add_toNat (x := x.sNlog.toNat + 1) (y := 3) h1 rfl (by omega)

theorem sector_fit (hfit : x.ndev.toNat * x.ppp ≤ pages) (hs : s < x.ndev.toNat) :
    s * x.ppp + x.ppp ≤ pages := by
  have h : (s + 1) * x.ppp ≤ x.ndev.toNat * x.ppp := Nat.mul_le_mul_right _ hs
  rw [Nat.succ_mul] at h
  omega

/-! ## the pinned sectors -/

theorem pin_eq (hx : Walk.Bounded x) (hfit : x.ndev.toNat * x.ppp ≤ pages) (s : UInt32) (out : Out) :
    (if s < x.ndev then fill pages out (s.toNat * x.ppp) x.ppp (some clsWl) else some out) =
      some fun p => if p / x.ppp = s.toNat ∧ s.toNat < x.ndev.toNat then some clsWl else out p := by
  by_cases hs : s < x.ndev
  · rw [if_pos hs]
    rw [UInt32.lt_iff_toNat_lt] at hs
    rw [fill_block hx.ppp_pos (sector_fit hfit hs)]
    simp only [hs, and_true]
  · rw [if_neg hs]
    rw [UInt32.lt_iff_toNat_lt] at hs
    simp only [hs, and_false, if_false]

theorem pinWl_mapped (hx : Walk.Bounded x) (hfit : x.ndev.toNat * x.ppp ≤ pages) :
    ∃ out, x.pinWl pages = some out ∧ Mapped x 0 out := by
  have hbase : fill pages (fun _ => none) 0 (x.ndev.toNat * x.ppp) (some pgFree) =
      some fun p => if p / x.ppp < x.ndev.toNat then some pgFree else none := by
    rw [fill_eq (by omega)]
    simp only [Nat.zero_le, true_and, Nat.zero_add, Nat.div_lt_iff_lt_mul hx.ppp_pos]
  unfold pinWl
  rw [do_some hbase]
  simp only [List.foldlM_cons, List.foldlM_nil, pin_eq hx hfit]
  refine ⟨_, rfl, fun p hp => ?_, fun p hp hpin => ?_, fun s hs hpin => .inr ⟨Nat.zero_le s, fun p hp => ?_⟩⟩
  · have hno : ∀ s : Nat, ¬(p / x.ppp = s ∧ s < x.ndev.toNat) := fun s h => by omega
    simp only [hno, if_false]
    exact if_neg (by omega)
  · have hin : ∀ s : Nat, p / x.ppp = s ∧ s < x.ndev.toNat ↔ p / x.ppp = s := fun s => by omega
    simp only [hin]
    rcases hpin with h | h | h
    · rw [if_pos h, ite_self, ite_self]
    · rw [if_pos h, ite_self]
    · rw [if_pos h]
  · subst hp
    have hno : ∀ a : UInt32, (p / x.ppp = (a / x.sSs).toNat → x.Pinned (p / x.ppp)) →
        ¬(p / x.ppp = (a / x.sSs).toNat ∧ (a / x.sSs).toNat < x.ndev.toNat) :=
      fun a h ha => hpin (h ha.1)
    rw [if_neg (hno _ fun h => .inr (.inr h))]
    dsimp only
    rw [if_neg (hno _ fun h => .inr (.inl h)), if_neg (hno _ .inl), if_pos hs]

/-! ## placing and sweeping -/

theorem Mapped.set (hm : Mapped x m out) (hs : s < x.ndev.toNat) (hpin : ¬x.Pinned s)
    (g : Nat → UInt8) (hg : ∀ p, p / x.ppp = s → Final (g p)) :
    Mapped x m fun p => if p / x.ppp = s then some (g p) else out p := by
  refine ⟨fun p hp => ?_, fun p hp h => ?_, fun t ht hpt => ?_⟩
  · show (if p / x.ppp = s then some (g p) else out p) = none
    rw [if_neg (by omega)]
    exact hm.beyond p hp
  · show (if p / x.ppp = s then some (g p) else out p) = some clsWl
    rw [if_neg (fun h' : p / x.ppp = s => hpin (h' ▸ h))]
    exact hm.pinned p hp h
  · by_cases hts : t = s
    · refine .inl fun p hp => ⟨g p, if_pos (hp.trans hts), hg p (hp.trans hts)⟩
    · refine (hm.settled t ht hpt).imp (fun h p hp => ?_) fun h => ⟨h.1, fun p hp => ?_⟩
      · rw [if_neg (by omega)]
        exact h p hp
      · rw [if_neg (by omega)]
        exact h.2 p hp

/-- The sweep has passed a sector that has classes. -/
theorem Mapped.next (hm : Mapped x m out)
    (h : ¬x.Pinned m → ∀ p, p / x.ppp = m → out p ≠ some pgFree) (hpos : 0 < x.ppp) :
    Mapped x (m + 1) out := by
  refine ⟨hm.beyond, hm.pinned, fun s hs hpin => ?_⟩
  rcases hm.settled s hs hpin with h' | ⟨hle, h'⟩
  · exact .inl h'
  · by_cases hsm : s = m
    · subst hsm
      have hfirst : s * x.ppp / x.ppp = s := Nat.mul_div_cancel _ hpos
      exact absurd (h' _ hfirst) (h hpin _ hfirst)
    · exact .inr ⟨by omega, h'⟩

theorem peek_first (hx : Walk.Bounded x) (hfit : x.ndev.toNat * x.ppp ≤ pages)
    (hs : s < x.ndev.toNat) : peek pages out (s * x.ppp) = some (out (s * x.ppp)) := by
  have h := sector_fit hfit hs
  have hpos := hx.ppp_pos
  exact peek_eq (by omega) _

theorem final_ne_wl {v : UInt8} (h : Final v) : v ≠ clsWl := by
  rintro rfl
  revert h
  unfold Final
  decide

theorem final_ne_free {v : UInt8} (h : Final v) : v ≠ pgFree := by
  rintro rfl
  revert h
  unfold Final
  decide

/-- A sector whose first page is not class 4 is not pinned. -/
theorem Mapped.not_pinned (hm : Mapped x m out) (hx : Walk.Bounded x) (hs : s < x.ndev.toNat)
    (h : out (s * x.ppp) ≠ some clsWl) : ¬x.Pinned s := by
  have hfirst : s * x.ppp / x.ppp = s := Nat.mul_div_cancel _ hx.ppp_pos
  intro hpin
  exact h (hm.pinned _ (by rw [hfirst]; exact hs) (by rw [hfirst]; exact hpin))

theorem placeSector_mapped {L : Nat} (hx : Walk.Bounded x) (hfit : x.ndev.toNat * x.ppp ≤ pages)
    (hlog : ∀ p < x.logPages, Final (x.sLogpg p)) (hL : L < x.sNlog.toNat) (hm : Mapped x m out) :
    ∃ out', x.placeSector pages out L = some out' ∧ Mapped x m out' := by
  unfold placeSector
  dsimp only
  generalize x.wl.physAddrOf (L.toUInt32 * x.sSs) / x.sSs = ps
  by_cases hps : x.ndev ≤ ps
  · rw [if_pos hps]
    exact ⟨out, rfl, hm⟩
  have hlt : ps.toNat < x.ndev.toNat := by
    rw [UInt32.le_iff_toNat_le] at hps
    omega
  rw [if_neg hps, do_some (peek_first hx hfit hlt)]
  by_cases hwl : out (ps.toNat * x.ppp) = some clsWl
  · rw [if_pos hwl]
    exact ⟨out, rfl, hm⟩
  rw [if_neg hwl, foldlM_poke hx.ppp_pos (sector_fit hfit hlt) (g := fun k => x.sLogpg (L * x.ppp + k))
    fun k hk => peek_eq (hx.page_lt hL hk) _]
  refine ⟨_, rfl, hm.set hlt (hm.not_pinned hx hlt hwl) _ fun p hp => hlog _ ?_⟩
  have h1 : (L + 1) * x.ppp ≤ x.sNlog.toNat * x.ppp := Nat.mul_le_mul_right _ hL
  have h2 := (block_iff hx.ppp_pos).mpr hp
  rw [Nat.succ_mul] at h1
  unfold logPages
  omega

theorem sweepSector_mapped {p : Nat} {r : Walk × Out} (hx : Walk.Bounded x)
    (hfit : x.ndev.toNat * x.ppp ≤ pages) (hp : p < x.ndev.toNat) (hl : Like x r.1)
    (hm : Mapped x p r.2) :
    ∃ r', sweepSector pages r p = some r' ∧ Like x r'.1 ∧ Mapped x (p + 1) r'.2 := by
  obtain ⟨y, out⟩ := r
  have hppp : y.ppp = x.ppp := hl.ppp
  have hfirst : p * x.ppp / x.ppp = p := Nat.mul_div_cancel _ hx.ppp_pos
  dsimp only at hl hm
  unfold sweepSector
  dsimp only
  rw [hppp, do_some (peek_first hx hfit hp)]
  by_cases hfree : out (p * x.ppp) = some pgFree
  · have hpin : ¬x.Pinned p := hm.not_pinned hx hp (by rw [hfree]; decide)
    have hz : Like x (y.readPhys p.toUInt32) := hl.trans rfl
    have hzp : (y.readPhys p.toUInt32).ppp = x.ppp := hz.ppp
    rw [if_neg (not_not.mpr hfree), hzp]
    have hscan : ∀ k, ∃ v, k < x.ppp →
        scanPage (y.readPhys p.toUInt32).sSec (y.readPhys p.toUInt32).sPgsz k = some v ∧ Final v := by
      intro k
      by_cases hk : k < x.ppp
      · obtain ⟨v, h⟩ := (hz.bounded hx).scanPage (y.readPhys p.toUInt32).sSec (hzp ▸ hk)
        exact ⟨v, fun _ => h⟩
      · exact ⟨0, fun h => absurd h hk⟩
    choose g hg using hscan
    rw [do_some (foldlM_poke hx.ppp_pos (sector_fit hfit hp) (fun k hk => (hg k hk).1) out)]
    refine ⟨_, rfl, hz, (hm.set hp hpin _ fun q hq => ?_).next ?_ hx.ppp_pos⟩
    · have h := (block_iff hx.ppp_pos).mpr hq
      exact (hg _ (by omega)).2
    · intro _ q hq
      have h := (block_iff hx.ppp_pos).mpr hq
      rw [if_pos hq]
      exact fun hc => final_ne_free (hg _ (by omega)).2 (Option.some.inj hc)
  · rw [if_pos hfree]
    refine ⟨_, rfl, hl, hm.next (fun hpin q hq => ?_) hx.ppp_pos⟩
    rcases hm.settled p hp hpin with h | ⟨-, h⟩
    · obtain ⟨v, hv, hf⟩ := h q hq
      rw [hv]
      exact fun hc => final_ne_free hf (Option.some.inj hc)
    · exact absurd (h _ hfirst) hfree

/-- **Every page of the sectors that the map takes the chip to have is written**, and no other. -/
theorem classify_mapped (b : Bpb) (hx : Walk.Bounded x) (ht : Tame x)
    (hfit : x.ndev.toNat * x.ppp ≤ pages) :
    ∃ r, x.classify pages b = some r ∧ Mapped x x.ndev.toNat r.2 := by
  obtain ⟨y, h1, hy, hlog⟩ := logical_final b hx ht
  have hb := hy.bounded hx
  have hn : y.ndev = x.ndev := hy.ndev
  have hp : y.ppp = x.ppp := hy.ppp
  have hfit' : y.ndev.toNat * y.ppp ≤ pages := by rw [hn, hp]; exact hfit
  have hlog' : ∀ p < y.logPages, Final (y.sLogpg p) := by
    have hpages : y.logPages = x.logPages := by rw [hy]; rfl
    rw [hpages]
    exact hlog
  obtain ⟨out, h2, hm⟩ := pinWl_mapped hb hfit'
  obtain ⟨out', h3, hm'⟩ := Loop.foldlM_inv (P := Mapped y 0) (f := y.placeSector pages)
    (List.range y.sNlog.toNat) hm fun L hL out hm =>
      placeSector_mapped hb hfit' hlog' (List.mem_range.mp hL) hm
  obtain ⟨r, h4, -, hr⟩ := Loop.foldlM_range_inv
    (P := fun p (r : Walk × Out) => Like y r.1 ∧ Mapped y p r.2) (f := sweepSector pages)
    (a := (y, out')) y.ndev.toNat ⟨.refl y, hm'⟩ fun p hp r hr =>
      sweepSector_mapped hb hfit' hp hr.1 hr.2
  unfold classify
  rw [do_some h1, do_some h2]
  have h3 : y.place pages out = some out' := h3
  rw [do_some h3]
  exact ⟨r, h4, .of_like hy (hn ▸ hr)⟩

/-! ## opening the volume -/

theorem peek_some (p : Nat → UInt8) {i : Nat} (h : i < bufSize) : ∃ v, peek bufSize p i = some v :=
  ⟨_, peek_eq h p⟩

theorem parseBpb_some (p : Nat → UInt8) : ∃ b, parseBpb p = some b := by
  have h : ∀ i, i + 3 < bufSize → (∃ v, rd16 p i = some v) ∧ (∃ v, rd32 p i = some v) ∧
      ∃ v, peek bufSize p i = some v := fun i hi =>
    ⟨rd16_some p (by omega), rd32_some p hi, peek_some p (by omega)⟩
  obtain ⟨v1, h1⟩ := (h 11 (by decide)).1
  obtain ⟨v2, h2⟩ := (h 13 (by decide)).2.2
  obtain ⟨v3, h3⟩ := (h 14 (by decide)).1
  obtain ⟨v4, h4⟩ := (h 16 (by decide)).2.2
  obtain ⟨v5, h5⟩ := (h 17 (by decide)).1
  obtain ⟨v6, h6⟩ := (h 19 (by decide)).1
  obtain ⟨v7, h7⟩ := (h 22 (by decide)).1
  obtain ⟨v8, h8⟩ := (h 32 (by decide)).2.1
  unfold parseBpb
  rw [do_some h1, do_some h2, do_some h3, do_some h4, do_some h5, do_some h6, do_some h7, do_some h8]
  exact ⟨_, rfl⟩

theorem rd16_lt {p : Nat → UInt8} {i : Nat} {v : UInt32} (h : rd16 p i = some v) :
    v.toNat < 2 ^ 16 := by
  unfold rd16 at h
  obtain ⟨a, -, h⟩ := Option.bind_eq_some_iff.mp h
  obtain ⟨b, -, h⟩ := Option.bind_eq_some_iff.mp h
  cases h
  have ha := a.toNat_lt
  have hb := b.toNat_lt
  rw [UInt32.toNat_or, UInt32.toNat_shiftLeft, UInt8.toNat_toUInt32, UInt8.toNat_toUInt32]
  refine Nat.or_lt_two_pow (by omega) ?_
  have hs : b.toNat <<< (UInt32.toNat 8 % 32) = b.toNat * 256 := Nat.shiftLeft_eq ..
  rw [hs]
  omega

/-- The size of the FAT comes from a 16-bit field. -/
theorem parseBpb_fatsz {p : Nat → UInt8} {b : Bpb} (h : parseBpb p = some b) :
    b.fatsz16.toNat < 2 ^ 16 := by
  unfold parseBpb at h
  obtain ⟨v1, -, h⟩ := Option.bind_eq_some_iff.mp h
  obtain ⟨v2, -, h⟩ := Option.bind_eq_some_iff.mp h
  obtain ⟨v3, -, h⟩ := Option.bind_eq_some_iff.mp h
  obtain ⟨v4, -, h⟩ := Option.bind_eq_some_iff.mp h
  obtain ⟨v5, -, h⟩ := Option.bind_eq_some_iff.mp h
  obtain ⟨v6, -, h⟩ := Option.bind_eq_some_iff.mp h
  obtain ⟨v7, h7, h⟩ := Option.bind_eq_some_iff.mp h
  obtain ⟨v8, -, h⟩ := Option.bind_eq_some_iff.mp h
  cases h
  exact rd16_lt h7

theorem readFat_eq {b : Bpb} (hx : Walk.Bounded x) (hfat : b.fatsz16.toNat < 2 ^ 16)
    (hne : b.fatsz16 ≠ 0) : ∃ y, x.readFat b = (y, true) ∧ Walk.Bounded y ∧ 0 < y.sFatLen.toNat ∧
      y.sNclusters = x.sNclusters ∧ y.ndev = x.ndev ∧ y.ppp = x.ppp ∧ y.Pinned = x.Pinned := by
  have hss := hx.ss_le
  have hpos : 0 < b.fatsz16.toNat := Nat.pos_of_ne_zero fun h => hne (UInt32.toNat_inj.mp h)
  have hle : b.fatsz16.toNat * x.sSs.toNat ≤ 2 ^ 16 * 4096 := Nat.mul_le_mul (Nat.le_of_lt hfat) hss
  have hlen : (b.fatsz16 * x.sSs).toNat = b.fatsz16.toNat * x.sSs.toNat :=
    WlFlash.mul_toNat rfl rfl (by omega)
  have hlpos : 0 < (b.fatsz16 * x.sSs).toNat := by
    rw [hlen]
    exact Nat.mul_pos hpos hx.ss_pos
  have hcap : (if bufSize.toUInt32 < b.fatsz16 * x.sSs then bufSize.toUInt32
      else b.fatsz16 * x.sSs).toNat = min 4096 (b.fatsz16 * x.sSs).toNat := by
    have hb : bufSize.toUInt32.toNat = 4096 := rfl
    by_cases h : bufSize.toUInt32 < b.fatsz16 * x.sSs
    · rw [if_pos h]
      rw [UInt32.lt_iff_toNat_lt] at h
      omega
    · rw [if_neg h]
      rw [UInt32.lt_iff_toNat_lt] at h
      omega
  obtain ⟨data, h⟩ := WlFlash.read_quiet hx.quiet hx.ready (b.fatStart * x.sSs)
    (bytesOf x.sFat x.sSs.toNat)
  unfold readFat readLogical
  dsimp only
  rw [h]
  refine ⟨_, rfl, { hx with fatLen := ?_ }, ?_, rfl, rfl, rfl, rfl⟩
  · show (ite _ _ _ : UInt32).toNat ≤ 4096
    rw [hcap]
    exact Nat.min_le_left ..
  · show 0 < (ite _ _ _ : UInt32).toNat
    rw [hcap]
    omega

end Walk
end FlashVis
