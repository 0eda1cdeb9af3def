import FlashVis.Model.Device
import Mathlib.Data.Nat.ModEq

/-!
# What the calls of the chip do to its bytes

* `prog_flash`     programming clears bits inside the range and nowhere else;
* `erase_flash`    an erase sets every sector it touches to `0xff` and nothing else;
* `erase_block`    erasing one aligned sector, `erase_below` what lies before the first sector.
-/

namespace FlashVis
namespace Device
variable {d : Device} {off len a : Nat}

@[simp] theorem read_flash : (d.read off len).1.flash = d.flash := rfl

@[simp] theorem read_geometry : (d.read off len).1.geometry = d.geometry := rfl

@[simp] theorem prog_geometry {data : List UInt8} : (d.prog off data).1.geometry = d.geometry := rfl

/-- A byte after programming: the bytes of the range are masked. -/
theorem prog_flash (data : List UInt8) (a : Nat) :
    (d.prog off data).1.flash a =
      if off ≤ a ∧ a < d.geometry.sectorSize * d.geometry.sectorCount then
        d.flash a &&& data.getD (a - off) 0xff
      else d.flash a := by
  have hff : ∀ x : UInt8, x &&& 0xff = x := fun x => UInt8.and_neg_one
  unfold prog
  dsimp only
  rw [List.getD_eq_getElem?_getD]
  cases data[a - off]? with
  | some b => rfl
  | none => simp [hff]

theorem prog_flash_out {data : List UInt8} (h : a < off ∨ off + data.length ≤ a) :
    (d.prog off data).1.flash a = d.flash a := by
  unfold prog
  dsimp only
  rcases h with h | h
  · split
    · rw [if_neg (by omega)]
    · rfl
  · rw [List.getElem?_eq_none (by omega)]

@[simp] theorem eraseFrom_geometry (d : Device) (l : List Nat) :
    (d.eraseFrom l).1.geometry = d.geometry := by
  induction l generalizing d with
  | nil => rfl
  | cons s l ih => exact ih _

@[simp] theorem erase_geometry : (d.erase off len).1.geometry = d.geometry :=
  eraseFrom_geometry d _

theorem eraseFrom_flash (d : Device) (hss : 0 < d.geometry.sectorSize) (l : List Nat) (a : Nat) :
    (d.eraseFrom l).1.flash a = if a / d.geometry.sectorSize ∈ l then 0xff else d.flash a := by
  induction l generalizing d with
  | nil => simp [eraseFrom]
  | cons s l ih =>
    have hsec : s * d.geometry.sectorSize ≤ a ∧ a < (s + 1) * d.geometry.sectorSize ↔
        a / d.geometry.sectorSize = s := by
      rw [Nat.div_eq_iff hss, ← Nat.le_sub_one_iff_lt (by positivity)]
      constructor <;> rintro ⟨h1, h2⟩ <;> refine ⟨h1, ?_⟩ <;> rw [Nat.succ_mul] at * <;> omega
    have h := ih (d.eraseSector s).1 hss
    show ((d.eraseSector s).1.eraseFrom l).1.flash a = _
    rw [h]
    show (if a / d.geometry.sectorSize ∈ l then 0xff else
      if s * d.geometry.sectorSize ≤ a ∧ a < (s + 1) * d.geometry.sectorSize then 0xff
      else d.flash a) = _
    by_cases h1 : a / d.geometry.sectorSize ∈ l
    · simp [h1]
    · simp only [List.mem_cons, h1, if_false, or_false, hsec]

theorem spanCount_eq {unit : Nat} (hunit : 0 < unit) (hlen : 0 < len) :
    spanCount unit off len = (off + len - 1) / unit - off / unit + 1 := by
  have hle : off / unit ≤ (off + len - 1) / unit := Nat.div_le_div_right (by omega)
  have hcast : ((off + len : Int) - 1) = ((off + len - 1 : Nat) : Int) := by omega
  unfold spanCount
  rw [hcast, Int.fdiv_eq_ediv_of_nonneg _ (by omega), ← Int.natCast_ediv]
  omega

/-- The units that a non-empty range visits are those it meets. -/
theorem mem_span {unit off len s : Nat} (hunit : 0 < unit) (hlen : 0 < len) :
    s ∈ List.range' (off / unit) (spanCount unit off len) ↔
      off < (s + 1) * unit ∧ s * unit < off + len := by
  have hle : off / unit ≤ (off + len - 1) / unit := Nat.div_le_div_right (by omega)
  have hlow : off / unit ≤ s ↔ off < (s + 1) * unit := by
    rw [← Nat.div_lt_iff_lt_mul hunit, Nat.lt_succ_iff]
  have hhigh : s ≤ (off + len - 1) / unit ↔ s * unit < off + len := by
    rw [Nat.le_div_iff_mul_le hunit]
    omega
  rw [List.mem_range'_1, spanCount_eq hunit hlen, ← hlow, ← hhigh]
  omega

/-- A byte after an erase: its sector is blank if the range meets it. -/
theorem erase_flash_meets (hss : 0 < d.geometry.sectorSize) (hlen : 0 < len) (a : Nat) :
    (d.erase off len).1.flash a =
      if off < (a / d.geometry.sectorSize + 1) * d.geometry.sectorSize ∧
        a / d.geometry.sectorSize * d.geometry.sectorSize < off + len then 0xff
      else d.flash a := by
  show (d.eraseFrom (List.range' _ (spanCount _ off len))).1.flash a = _
  rw [eraseFrom_flash d hss]
  simp only [mem_span hss hlen]

/-- **A byte after an erase.** -/
theorem erase_flash (hss : 0 < d.geometry.sectorSize) (hlen : 0 < len) (a : Nat) :
    (d.erase off len).1.flash a =
      if off / d.geometry.sectorSize ≤ a / d.geometry.sectorSize ∧
        a / d.geometry.sectorSize ≤ (off + len - 1) / d.geometry.sectorSize then 0xff
      else d.flash a := by
  have hle : off / d.geometry.sectorSize ≤ (off + len - 1) / d.geometry.sectorSize :=
    Nat.div_le_div_right (by omega)
  show (d.eraseFrom (List.range' _ (spanCount _ off len))).1.flash a = _
  rw [eraseFrom_flash d hss, spanCount_eq hss hlen]
  congr 1
  rw [List.mem_range'_1, eq_iff_iff]
  omega

theorem erase_block (hss : 0 < d.geometry.sectorSize) (k a : Nat) :
    (d.erase (k * d.geometry.sectorSize) d.geometry.sectorSize).1.flash a =
      if a / d.geometry.sectorSize = k then 0xff else d.flash a := by
  have hlast : (k * d.geometry.sectorSize + d.geometry.sectorSize - 1) / d.geometry.sectorSize = k := by
    rw [Nat.div_eq_iff hss]
    omega
  rw [erase_flash hss hss, hlast, Nat.mul_div_cancel _ hss]
  congr 1
  rw [eq_iff_iff]
  omega

/-- What lies in sectors before the first one touched stays. -/
theorem erase_below (hss : 0 < d.geometry.sectorSize) (hlen : 0 < len) {k : Nat}
    (hk : k * d.geometry.sectorSize ≤ off) (ha : a < k * d.geometry.sectorSize) :
    (d.erase off len).1.flash a = d.flash a := by
  have h1 : k ≤ off / d.geometry.sectorSize := (Nat.le_div_iff_mul_le hss).mpr hk
  have h2 : a / d.geometry.sectorSize < k := (Nat.div_lt_iff_lt_mul hss).mpr ha
  rw [erase_flash hss hlen, if_neg (by omega)]

end Device
end FlashVis
