import FlashVis.Player.Refine
import FlashVis.Model.Chip

/-!
# One event, or its steps (worker-heat.js: applyEvent, stepsFor, applyStep)

An eager batch applies a device event at once; a metered one plays its per-page steps.

* `steps_effect`  the steps have the effect of the event, from every state;
* `steps_exact`   they also carry its flash time, except for a zero-length read at a page boundary,
                  which touches no page.
-/

namespace FlashVis

namespace Device

/-- A zero length touches no unit exactly when it stands at a boundary. -/
theorem spanCount_zero {unit off : Nat} (hunit : 0 < unit) : spanCount unit off 0 = 0 ↔ unit ∣ off := by
  have hdiv := Nat.div_add_mod off unit
  have hmod := Nat.mod_lt off hunit
  rw [Nat.dvd_iff_mod_eq_zero]
  unfold spanCount
  cases off with
  | zero =>
    have hneg : (-1 : Int).fdiv unit < 0 := Int.fdiv_neg_of_neg_of_pos (by decide) (by omega)
    simpa using hneg
  | succ a =>
    have hcast : ((a + 1 : Nat) + (0 : Nat) : Int) - 1 = (a : Int) := by omega
    rw [hcast, Int.fdiv_eq_ediv_of_nonneg _ (by omega), ← Int.natCast_ediv]
    have hsucc : (a + 1) / unit = a / unit + if unit ∣ a + 1 then 1 else 0 := Nat.succ_div
    split at hsucc
    · rename_i hdvd
      have := Nat.mod_eq_zero_of_dvd hdvd
      omega
    · rename_i hdvd
      rw [Nat.dvd_iff_mod_eq_zero] at hdvd
      omega

theorem spanCount_pos {unit off len : Nat} (hunit : 0 < unit) (hlen : 0 < len) :
    0 < spanCount unit off len := by
  rw [spanCount_eq hunit hlen]
  exact Nat.succ_pos _

theorem hal_event {d : Device} {op : HalOp} {ev : DevEvent} (hev : ev ∈ (d.hal op).2) :
    (∃ off len, ev = .read off len (readFixed + readPer * len)) ∨
    (∃ off len : Nat, ev = .prog off len (progFixed + progPer * len)) ∨
    (∃ s off len ns, ev = .erase s off len ns) := by
  cases op with
  | read off len => exact .inl ⟨off, len, List.mem_singleton.mp hev⟩
  | readQuiet off len => cases hev
  | prog off data => exact .inr (.inl ⟨off, data.length, List.mem_singleton.mp hev⟩)
  | erase off len =>
    refine .inr (.inr ?_)
    have herase : ∀ (l : List Nat) (d : Device), ev ∈ (d.eraseFrom l).2 →
        ∃ s off len ns, ev = .erase s off len ns := by
      intro l
      induction l with
      | nil => intro d h; cases h
      | cons s l ih =>
        intro d h
        rcases List.mem_cons.mp h with rfl | h
        · exact ⟨s, _, _, _, rfl⟩
        · exact ih _ h
    exact herase _ d hev

end Device

namespace HeatPlayer
variable {h : HeatPlayer} {ev : DevEvent} {now : ℚ}

/-- The effect of steps applied in order. -/
def applySteps (now : ℚ) (steps : List PStep) (h : HeatPlayer) : HeatPlayer :=
  steps.foldl (fun h ps => h.applyStep now ps) h

/-- The steps of an event applied in order are the event. -/
theorem steps_effect (hev : ev ≠ .reset) : h.applySteps now (h.stepsFor ev) = h.applyEvent now ev := by
  unfold applySteps
  cases ev with
  | reset => exact absurd rfl hev
  | erase s off len ns => rfl
  | prog off len ns =>
    rw [stepsFor, List.foldl_map]
    rfl
  | read off len ns =>
    rw [stepsFor, List.foldl_map]
    rfl

/-- Splitting an event into steps changes nothing but granularity. -/
structure SplitsExactly (now : ℚ) (ev : DevEvent) (h : HeatPlayer) : Prop where
  ns : ((h.stepsFor ev).map PStep.ns).sum = ev.ns
  effect : h.applySteps now (h.stepsFor ev) = h.applyEvent now ev

/-- An event of the chip is split exactly unless it is a zero-length read at a page boundary. -/
theorem steps_exact {d : Device} {op : HalOp} (hev : ev ∈ (d.hal op).2)
    (hpage : 0 < h.geometry.pageSize) :
    h.SplitsExactly now ev ↔ ¬∃ off ns, ev = .read off 0 ns ∧ h.geometry.pageSize ∣ off := by
  have hsplit := stepsFor_sum ev h
  obtain ⟨off, len, rfl⟩ | ⟨off, len, rfl⟩ | ⟨s, off, len, ns, rfl⟩ := Device.hal_event hev
  · have hcost : (0 : ℚ) < readFixed + readPer * len := by
      have hfix : 0 < readFixed := by decide +kernel
      have hper : 0 ≤ readPer * len := mul_nonneg (by decide +kernel) (Nat.cast_nonneg len)
      exact add_pos_of_pos_of_nonneg hfix hper
    have hzero : Device.spanCount h.geometry.pageSize off len = 0 ↔
        len = 0 ∧ h.geometry.pageSize ∣ off := by
      rcases Nat.eq_zero_or_pos len with rfl | hlen
      · rw [Device.spanCount_zero hpage, and_iff_right rfl]
      · have hpos : 0 < Device.spanCount h.geometry.pageSize off len := Device.spanCount_pos hpage hlen
        omega
    rw [Player.splitNs] at hsplit
    constructor
    · rintro hexact ⟨_, _, heq, hdvd⟩
      cases heq
      have hns := hexact.ns
      rw [hsplit, if_pos (hzero.mpr ⟨rfl, hdvd⟩)] at hns
      exact hcost.ne hns
    · intro hne
      have hspan : ¬Device.spanCount h.geometry.pageSize off len = 0 := by
        intro h0
        obtain ⟨rfl, hdvd⟩ := hzero.mp h0
        exact hne ⟨off, _, rfl, hdvd⟩
      rw [if_neg hspan] at hsplit
      exact ⟨hsplit, steps_effect (by rintro ⟨⟩)⟩
  · have hne : ¬∃ o ns, DevEvent.prog off len (progFixed + progPer * len) = .read o 0 ns ∧
        h.geometry.pageSize ∣ o := by
      rintro ⟨_, _, heq, -⟩
      cases heq
    refine iff_of_true ⟨?_, steps_effect (by rintro ⟨⟩)⟩ hne
    rw [hsplit]
    show (if Device.spanCount h.geometry.pageSize off len = 0 then 0 else progFixed + progPer * len) = _
    split
    · rename_i h0
      -- a program that touches no page is empty, and costs nothing
      have hlen : len = 0 := by
        by_contra hlen
        have hpos : 0 < Device.spanCount h.geometry.pageSize off len :=
          Device.spanCount_pos hpage (Nat.pos_of_ne_zero hlen)
        omega
      subst hlen
      simp [DevEvent.ns, progFixed]
    · rfl
  · have hne : ¬∃ o n, DevEvent.erase s off len ns = .read o 0 n ∧ h.geometry.pageSize ∣ o := by
      rintro ⟨_, _, heq, -⟩
      cases heq
    exact iff_of_true ⟨hsplit, steps_effect (by rintro ⟨⟩)⟩ hne

/-- A read across a page boundary. -/
theorem steps_exact_read : (createHeatPlayer ⟨512, 2, 256, 1⟩ 0).SplitsExactly 0
    (.read 250 10 (readFixed + readPer * 10)) :=
  (steps_exact (show _ ∈ ((createNorDevice ⟨512, 2, 256, 1⟩).hal (.read 250 10)).2 from
    List.mem_cons_self) (by decide)).mpr fun ⟨_, _, heq, _⟩ => nomatch heq

/-- The time of a zero-length read at a page boundary is lost. -/
theorem empty_read_lost : ¬∀ (h : HeatPlayer) (d : Device) (op : HalOp) (ev : DevEvent) (now : ℚ),
    d.geometry = h.geometry → h.geometry.pageSize ∣ h.geometry.sectorSize →
    0 < h.geometry.pageSize → ev ∈ (d.hal op).2 → h.SplitsExactly now ev := by
  intro hall
  have hexact := hall (createHeatPlayer ⟨512, 2, 256, 1⟩ 0) (createNorDevice ⟨512, 2, 256, 1⟩)
    (.read 256 0) (.read 256 0 (readFixed + readPer * (0 : Nat))) 0 rfl (by decide) (by decide)
    List.mem_cons_self
  exact absurd hexact.ns (by decide +kernel)

end HeatPlayer
end FlashVis
